import LayeredConfig.Decimal.Shortest

/-!
# Decimal texts of numbers

Two layouts of the shortest digits. `positional` never uses an exponent and
always shows a point. `compact` is positional for magnitudes from `1e-5` below
`1e16` and scientific outside.
-/

set_option autoImplicit false

namespace LayeredConfig.Decimal

def natText (n : Nat) : String := String.ofList (Nat.toDigits 10 n)

def intText (n : Int) : String :=
  if n < 0 then "-" ++ natText n.natAbs else natText n.natAbs

def zeros (n : Nat) : List Char := List.replicate n '0'

/-- Digits with the point after `point` of them; zeros fill what is missing. -/
def placePoint (digits : List Char) (point : Int) : List Char :=
  if point ≤ 0 then '0' :: '.' :: (zeros (-point).toNat ++ digits)
  else if point.toNat < digits.length then
    digits.take point.toNat ++ '.' :: digits.drop point.toNat
  else digits ++ zeros (point.toNat - digits.length) ++ ['.', '0']

def signed (x : Binary64) (text : List Char) : String :=
  String.ofList (if x.isNegative then '-' :: text else text)

def positional (x : Binary64) : String :=
  let s := shortest x
  let digits := Nat.toDigits 10 s.digits
  signed x (if s.digits = 0 then ['0', '.', '0'] else placePoint digits (digits.length + s.exponent))

/-- The text of a finite number, with an exponent when the magnitude is at
least `1e16` or below `1e-5`; the exponent has a sign: `1e+16`, `1.5e-7`. -/
def compact (x : Binary64) : String :=
  let s := shortest x
  let digits := Nat.toDigits 10 s.digits
  let point : Int := digits.length + s.exponent
  if s.digits = 0 then signed x ['0', '.', '0']
  else if -5 < point ∧ point ≤ 16 then signed x (placePoint digits point)
  else
    let mantissa := match digits with
      | d :: e :: rest => d :: '.' :: e :: rest
      | one => one
    let exponent := point - 1
    signed x (mantissa ++ 'e' :: (if exponent < 0 then '-' else '+') :: Nat.toDigits 10 exponent.natAbs)

example : positional ⟨0x4480f0cf064dd592⟩ = "10000000000000000000000.0" := by decide +kernel
example : compact ⟨0x4341c37937e08000⟩ = "1e+16" := by decide +kernel
example : compact ⟨0x3e7ad7f29abcaf48⟩ = "1e-7" := by decide +kernel

end LayeredConfig.Decimal
