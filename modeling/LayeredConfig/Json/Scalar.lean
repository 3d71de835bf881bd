import LayeredConfig.Value
import LayeredConfig.Json.Lexer

/-!
# Strings and numbers of JSON texts

Decoding of the escapes of a string, and the number that a numeral denotes.
A numeral without fraction and exponent that fits 64 bits, signed or not, is an
integer. Any other keeps as many leading digits as fit an unsigned 64-bit word;
that significand is rounded to binary64 and then multiplied or divided by the
binary64 power of ten, so the last bit can differ from the nearest number.
-/

set_option autoImplicit false

namespace LayeredConfig.Json

def hexDigit (c : Char) : Nat :=
  if c.isDigit then c.toNat - 48
  else if 'a' ≤ c then c.toNat - 87 else c.toNat - 55

def hexNumber (cs : List Char) : Nat := cs.foldl (fun n c => 16 * n + hexDigit c) 0

def escaped : Char → Char
  | 'b' => '\x08'
  | 'f' => '\x0c'
  | 'n' => '\n'
  | 'r' => '\r'
  | 't' => '\t'
  | c => c

/-- The characters that a string of the grammar denotes. A surrogate without its
partner denotes nothing. -/
def decode : List Char → Option (List Char)
  | [] => some []
  | '\\' :: 'u' :: a :: b :: c :: d :: rest =>
    let n := hexNumber [a, b, c, d]
    if 0xDC00 ≤ n ∧ n ≤ 0xDFFF then none
    else if 0xD800 ≤ n ∧ n ≤ 0xDBFF then
      match rest with
      | '\\' :: 'u' :: e :: f :: g :: h :: rest =>
        let m := hexNumber [e, f, g, h]
        if 0xDC00 ≤ m ∧ m ≤ 0xDFFF then
          (decode rest).map (Char.ofNat (0x10000 + (n - 0xD800) * 0x400 + (m - 0xDC00)) :: ·)
        else none
      | _ => none
    else (decode rest).map (Char.ofNat n :: ·)
  | '\\' :: c :: rest => (decode rest).map (escaped c :: ·)
  | c :: rest => (decode rest).map (c :: ·)

def decodeText (raw : List Char) : Option String := (decode raw).map String.ofList

def maxWord : Nat := 0xffffffffffffffff

def maxExponent : Nat := 0x7fffffff

def digitOf (c : Char) : Nat := c.toNat - 48

structure Digits where
  significand : Nat
  exponent : Int

/-- Digits before the point: the first that does not fit and all after it are
counted, not kept. -/
def wholeDigits : Digits → List Char → Digits
  | d, [] => d
  | d, c :: cs =>
    let n := d.significand * 10 + digitOf c
    if n ≤ maxWord then wholeDigits ⟨n, d.exponent⟩ cs
    else ⟨d.significand, d.exponent + (cs.length + 1 : Nat)⟩

/-- Digits after the point: the first that does not fit ends them. -/
def fractionDigits : Digits → List Char → Digits
  | d, [] => d
  | d, c :: cs =>
    let n := d.significand * 10 + digitOf c
    if n ≤ maxWord then fractionDigits ⟨n, d.exponent - 1⟩ cs else d

def powerOfTen (k : Nat) : Binary64 := Binary64.ofRatio false (Nat.pow 10 k) 1

/-- Scaling in steps of at most `308`. Two divisions by `1e308` take every
significand to zero, so three steps are always enough. -/
def scaleBy : Nat → Binary64 → Int → Option Binary64
  | 0, x, _ => some x
  | steps + 1, x, e =>
    if e.natAbs ≤ 308 then
      if 0 ≤ e then
        let y := x.mul (powerOfTen e.natAbs)
        if y.isFinite then some y else none
      else some (x.div (powerOfTen e.natAbs))
    else if x.isZero then some x
    else if 0 ≤ e then none
    else scaleBy steps (x.div (powerOfTen 308)) (e + 308)

def number? (text : List Char) : Option Value :=
  let negative := text.head? == some '-'
  let body := if negative then text.drop 1 else text
  let (whole, afterWhole) := body.span Char.isDigit
  let (fraction, afterFraction) := match afterWhole with
    | '.' :: rest => rest.span Char.isDigit
    | rest => ([], rest)
  let d := wholeDigits ⟨0, 0⟩ whole
  let float (d : Digits) (power : Int) : Option Value :=
    (scaleBy 4 (Binary64.ofInt d.significand) (d.exponent + power)).map fun x =>
      .float (if negative then x.neg else x)
  match afterFraction with
  | _ :: mark =>
    let d := fractionDigits d fraction
    let below := mark.head? == some '-'
    let power := (mark.filter Char.isDigit).foldl (fun n c => 10 * n + digitOf c) 0
    if maxExponent < power then
      if d.significand ≠ 0 ∧ !below then none else some (.float (Binary64.zero negative))
    else float d (if below then -power else power)
  | [] =>
    if fraction ≠ [] then float (fractionDigits d fraction) 0
    else if d.exponent ≠ 0 then float d 0
    else if !negative then some (.int d.significand)
    else if d.significand = 0 ∨ 0x8000000000000000 < d.significand then float d 0
    else some (.int (-d.significand))

end LayeredConfig.Json
