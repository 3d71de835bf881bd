import LayeredConfig.Decimal.Integer
import LayeredConfig.Toml.Basic
import LayeredConfig.Toml.Dialect

/-!
# Unquoted scalars

Booleans, numbers and date-times of TOML, each written without quotation marks.
Underscores may stand between two digits. A decimal number has no leading zero;
numbers to the bases 16, 8 and 2 have no sign.
-/

set_option autoImplicit false

namespace LayeredConfig.Toml

def plainDigits? (isDigit : Char → Bool) : List Char → Option (List Char)
  | [] => none
  | [c] => if isDigit c then some [c] else none
  | c :: '_' :: rest =>
    if isDigit c then (plainDigits? isDigit rest).map (c :: ·) else none
  | c :: rest => if isDigit c then (plainDigits? isDigit rest).map (c :: ·) else none

def digitValue (c : Char) : Nat :=
  if c.isDigit then c.toNat - 48
  else if 'a' ≤ c then c.toNat - 87 else c.toNat - 55

def isDigitOf (base : Nat) (c : Char) : Bool :=
  (c.isDigit || ('a' ≤ c && c ≤ 'f') || ('A' ≤ c && c ≤ 'F')) && digitValue c < base

def numberIn (base : Nat) (cs : List Char) : Nat :=
  cs.foldl (fun n c => base * n + digitValue c) 0

def signOf : List Char → Bool × List Char
  | '+' :: rest => (false, rest)
  | '-' :: rest => (true, rest)
  | rest => (false, rest)

def decimalDigits? (cs : List Char) : Option (List Char) := do
  let ds ← plainDigits? Char.isDigit cs
  if ds.head? == some '0' && ds.length != 1 then none else some ds

def integerIn? (base : Nat) (cs : List Char) : Option Toml := do
  let n := numberIn base (← plainDigits? (isDigitOf base) cs)
  if Decimal.isInt64 n then some (.integer n) else none

def integer? : List Char → Option Toml
  | '0' :: 'x' :: rest => integerIn? 16 rest
  | '0' :: 'o' :: rest => integerIn? 8 rest
  | '0' :: 'b' :: rest => integerIn? 2 rest
  | text => do
    let (negative, body) := signOf text
    let n : Int := numberIn 10 (← decimalDigits? body)
    let n := if negative then -n else n
    if Decimal.isInt64 n then some (.integer n) else none

def isMark (c : Char) : Bool := c = 'e' || c = 'E'

def exponent? : List Char → Option Int
  | [] => some 0
  | _ :: rest => do
    let (negative, body) := signOf rest
    let n : Int := numberIn 10 (← plainDigits? Char.isDigit body)
    pure (if negative then -n else n)

/-- A decimal fraction with an exponent, or one of both. A magnitude that rounds
to infinity is no float, unless the dialect admits the negative one. -/
def float? (d : Dialect) (text : List Char) : Option Toml := do
  let (negative, body) := signOf text
  if body = ['i', 'n', 'f'] then some (.float (Binary64.infinity negative))
  else if body = ['n', 'a', 'n'] then some (.float (Binary64.nan negative))
  else
    let (mantissa, mark) := body.span (!isMark ·)
    let (whole, point) := mantissa.span (· != '.')
    if mark.isEmpty && point.isEmpty then none
    let wholeDigits ← decimalDigits? whole
    let places ← match point with
      | [] => some []
      | _ :: places => plainDigits? Char.isDigit places
    let power ← exponent? mark
    let x := Binary64.ofDecimal negative (numberIn 10 (wholeDigits ++ places))
      (power - places.length)
    if x.isFinite || (negative && d.negativeOverflow) then some (.float x) else none

def scalar? (d : Dialect) (text : List Char) : Option Toml :=
  if text = ['t', 'r', 'u', 'e'] then some (.boolean true)
  else if text = ['f', 'a', 'l', 's', 'e'] then some (.boolean false)
  else ((DateTime.ofText? d.times text).map .dateTime).or ((float? d text).or (integer? text))

def isDate (text : List Char) : Bool :=
  match date? text with
  | some (_, []) => true
  | _ => false

end LayeredConfig.Toml
