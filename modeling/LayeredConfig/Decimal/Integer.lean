/-!
# Reading decimal integers

A decimal integer is a run of digits with an optional sign, within the bounds of a
64-bit word.
-/

set_option autoImplicit false

namespace LayeredConfig.Decimal

def isInt64 (n : Int) : Bool := -0x8000000000000000 ≤ n && n < 0x8000000000000000

def wordCount : Nat := 0x10000000000000000

def digitsValue (digits : List Char) : Nat :=
  digits.foldl (fun n c => 10 * n + (c.toNat - 48)) 0

def natural? (digits : List Char) : Option Nat :=
  if digits.isEmpty || !digits.all Char.isDigit then none else some (digitsValue digits)

def signedInteger? : List Char → Option Int
  | '-' :: digits => (natural? digits).map fun n => -(n : Int)
  | '+' :: digits => (natural? digits).map fun n => (n : Int)
  | digits => (natural? digits).map fun n => (n : Int)

def int64? (s : String) : Option Int := (signedInteger? s.toList).filter isInt64

def word64? (s : String) : Option Nat :=
  let n := match s.toList with
    | '+' :: digits => natural? digits
    | digits => natural? digits
  n.filter (· < wordCount)

example : int64? "-9223372036854775808" = some (-0x8000000000000000) ∧ int64? "9223372036854775808" = none := by
  decide +kernel
example : word64? "+007" = some 7 ∧ word64? "-0" = none ∧ word64? "" = none := by decide +kernel

end LayeredConfig.Decimal
