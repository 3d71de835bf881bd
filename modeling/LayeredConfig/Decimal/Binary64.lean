/-!
# Numbers of the format binary64

A number is its 64 bits, so equality is equality of representations and
`0.0` differs from `-0.0`. A finite magnitude is `significand * 2 ^ scale`.
Rounding a ratio of naturals to the format is exact integer arithmetic: the
nearest magnitude, and of two equally near ones the even one.
-/

set_option autoImplicit false

namespace LayeredConfig

structure Binary64 where
  bits : UInt64
  deriving DecidableEq, Repr, Inhabited

namespace Binary64

def fractionCount : Nat := 0x10000000000000

def infinityBits : Nat := 2047 * fractionCount

def signBit : Nat := 0x8000000000000000

def ofPattern (negative : Bool) (magnitude : Nat) : Binary64 :=
  ⟨UInt64.ofNat (if negative then signBit + magnitude else magnitude)⟩

def isNegative (x : Binary64) : Bool := signBit ≤ x.bits.toNat

def magnitude (x : Binary64) : Nat := x.bits.toNat % signBit

def exponentField (x : Binary64) : Nat := x.magnitude / fractionCount

def fraction (x : Binary64) : Nat := x.magnitude % fractionCount

def isFinite (x : Binary64) : Bool := x.magnitude < infinityBits

def isNaN (x : Binary64) : Bool := infinityBits < x.magnitude

def isZero (x : Binary64) : Bool := x.magnitude == 0

def significand (x : Binary64) : Nat :=
  if x.exponentField = 0 then x.fraction else fractionCount + x.fraction

def scale (x : Binary64) : Int := (max x.exponentField 1 : Nat) - 1075

def neg (x : Binary64) : Binary64 := ofPattern (!x.isNegative) x.magnitude

/-- The natural nearest to `num / den`, a tie going to the even one. -/
def roundDiv (num den : Nat) : Nat :=
  let q := num / den
  let r := 2 * (num % den)
  if r < den then q else if den < r then q + 1 else q + q % 2

def ratio (m : Nat) (e : Int) : Nat × Nat :=
  if 0 ≤ e then (m * Nat.pow 2 e.toNat, 1) else (m, Nat.pow 2 (-e).toNat)

/-- The exponent `e` with `2 ^ e ≤ num / den < 2 ^ (e + 1)`. -/
def binaryExponent (num den : Nat) : Int :=
  let e : Int := (Nat.log2 num : Int) - Nat.log2 den
  let (n, d) := ratio den e
  if n ≤ num * d then e else e - 1

/-- The pattern of the magnitude nearest to `num / den`. Consecutive patterns
are consecutive magnitudes, so a significand that rounds up to `2 ^ 53`
carries into the exponent by itself. -/
def nearestPattern (num den : Nat) : Nat :=
  if num = 0 ∨ den = 0 then 0
  else
    let unit : Int := max (binaryExponent num den - 52) (-1074)
    let (n, d) :=
      if 0 ≤ unit then (num, den * Nat.pow 2 unit.toNat) else (num * Nat.pow 2 (-unit).toNat, den)
    min ((unit + 1074).toNat * fractionCount + roundDiv n d) infinityBits

def ofRatio (negative : Bool) (num den : Nat) : Binary64 :=
  ofPattern negative (nearestPattern num den)

def ofInt (n : Int) : Binary64 := ofRatio (n < 0) n.natAbs 1

def zero (negative : Bool) : Binary64 := ofPattern negative 0

def infinity (negative : Bool) : Binary64 := ofPattern negative infinityBits

def nan (negative : Bool) : Binary64 := ofPattern negative (infinityBits + fractionCount / 2)

def mul (x y : Binary64) : Binary64 :=
  let (n, d) := ratio (x.significand * y.significand) (x.scale + y.scale)
  ofRatio (x.isNegative != y.isNegative) n d

def div (x y : Binary64) : Binary64 :=
  let (n, d) := ratio x.significand (x.scale - y.scale)
  ofRatio (x.isNegative != y.isNegative) n (d * y.significand)

def roundHalfAway (x : Binary64) : Int :=
  let (n, d) := ratio x.significand x.scale
  let m : Int := ((2 * n + d) / (2 * d) : Nat)
  if x.isNegative then -m else m

/-- The number `m * 10 ^ e`, rounded once. A decimal of more than 310 digits
before the point is infinite and one below `10 ^ -330` is zero, which is decided
before any power is computed. -/
def ofDecimal (negative : Bool) (m : Nat) (e : Int) : Binary64 :=
  let lead : Int := e + (Nat.toDigits 10 m).length
  if m = 0 ∨ lead < -330 then zero negative
  else if 310 < lead then infinity negative
  else if 0 ≤ e then ofRatio negative (m * Nat.pow 10 e.toNat) 1
  else ofRatio negative m (Nat.pow 10 (-e).toNat)

example : ofDecimal false 15 (-1) = ⟨0x3ff8000000000000⟩ := by decide +kernel
example : ofDecimal true 1 (-1) = ⟨0xbfb999999999999a⟩ := by decide +kernel
example : ofInt 0xffffffffffffffff = ⟨0x43f0000000000000⟩ := by decide +kernel

end Binary64

end LayeredConfig
