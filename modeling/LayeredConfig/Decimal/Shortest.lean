import LayeredConfig.Decimal.Binary64

/-!
# Shortest decimals

Every finite number of the format is written with the fewest decimal digits
that read back as it, and of those with the nearest ones. On the grid of
`n`-digit decimals only the two neighbours of the number have to be tried: if
any grid point reads back, one of them does.
-/

set_option autoImplicit false

namespace LayeredConfig.Decimal

structure Scaled where
  digits : Nat
  exponent : Int
  deriving DecidableEq, Repr

def decimalExponent (num den : Nat) : Int :=
  if den ≤ num then ((Nat.toDigits 10 (num / den)).length : Int) - 1
  else
    let r := (den + num - 1) / num
    Int.negOfNat (Nat.toDigits 10 (r - 1)).length

/-- Does `c * 10 ^ k` lie among the reals that round to the number whose
quadrupled significand is `4 * m`, its scale being `q`? The ends belong to the
interval when the significand is even. -/
def readsBack (m : Nat) (q : Int) (narrowBelow : Bool) (c : Nat) (k : Int) : Bool :=
  let low := 4 * m - (if narrowBelow then 1 else 2)
  let high := 4 * m + 2
  -- compare c * 10^k with bound * 2^(q-2), all powers moved to the side where they are natural
  let lhs := c * Nat.pow 10 k.toNat * Nat.pow 2 (2 - q).toNat
  let rhs (bound : Nat) := bound * Nat.pow 2 (q - 2).toNat * Nat.pow 10 (-k).toNat
  if m % 2 = 0 then rhs low ≤ lhs && lhs ≤ rhs high else rhs low < lhs && lhs < rhs high

/-- The neighbours on the grid of `n` digits that read back, the nearer first. -/
def candidate (m : Nat) (q : Int) (narrowBelow : Bool) (lead : Int) (n : Nat) : Option Scaled :=
  let k := lead - (n : Int) + 1
  let (num, den) := Binary64.ratio m q
  let (num, den) :=
    if 0 ≤ k then (num, den * Nat.pow 10 k.toNat) else (num * Nat.pow 10 (-k).toNat, den)
  let below := num / den
  let twice := 2 * (num % den)
  let upper := decide (den < twice) || (twice == den && below % 2 == 1)
  let first := if upper then below + 1 else below
  let second := if upper then below else below + 1
  if readsBack m q narrowBelow first k then some ⟨first, k⟩
  else if readsBack m q narrowBelow second k then some ⟨second, k⟩
  else none

def Scaled.strip : Nat → Scaled → Scaled
  | 0, s => s
  | fuel + 1, s =>
    if s.digits ≠ 0 ∧ s.digits % 10 = 0 then strip fuel ⟨s.digits / 10, s.exponent + 1⟩ else s

def shortest (x : Binary64) : Scaled :=
  if x.isZero then ⟨0, 0⟩
  else
    let m := x.significand
    let q := x.scale
    let narrowBelow := x.fraction == 0 && decide (1 < x.exponentField)
    let (num, den) := Binary64.ratio m q
    let lead := decimalExponent num den
    let found := (List.range 17).findSome? fun n => candidate m q narrowBelow lead (n + 1)
    (found.getD ⟨m, 0⟩).strip 20

example : shortest ⟨0x3fb999999999999a⟩ = ⟨1, -1⟩ := by decide +kernel
example : shortest ⟨0x4480f0cf064dd592⟩ = ⟨1, 22⟩ := by decide +kernel

end LayeredConfig.Decimal
