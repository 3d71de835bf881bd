/-!
# Decoding UTF-8

A machine that takes one byte at a time. Within a character it knows the bounds of
the next byte, so overlong forms, surrogates and numbers beyond the last character
are seen at the first byte that makes them. A byte out of bounds ends the character
before it as faulty and is then taken on its own.
-/

set_option autoImplicit false

namespace LayeredConfig.Text

inductive Utf8State where
  | start
  | inside (value left low high : Nat)
  deriving DecidableEq, Repr

def leadByte (b : Nat) : Utf8State × List (Option Char) :=
  if b < 0x80 then (.start, [some (Char.ofNat b)])
  else if 0xC2 ≤ b ∧ b ≤ 0xDF then (.inside (b - 0xC0) 1 0x80 0xBF, [])
  else if b = 0xE0 then (.inside 0 2 0xA0 0xBF, [])
  else if b = 0xED then (.inside (b - 0xE0) 2 0x80 0x9F, [])
  else if 0xE1 ≤ b ∧ b ≤ 0xEF then (.inside (b - 0xE0) 2 0x80 0xBF, [])
  else if b = 0xF0 then (.inside 0 3 0x90 0xBF, [])
  else if 0xF1 ≤ b ∧ b ≤ 0xF3 then (.inside (b - 0xF0) 3 0x80 0xBF, [])
  else if b = 0xF4 then (.inside (b - 0xF0) 3 0x80 0x8F, [])
  else (.start, [none])

def utf8Step : Utf8State → Nat → Utf8State × List (Option Char)
  | .start, b => leadByte b
  | .inside value left low high, b =>
    if low ≤ b ∧ b ≤ high then
      let value := 64 * value + (b - 0x80)
      if left ≤ 1 then (.start, [some (Char.ofNat value)])
      else (.inside value (left - 1) 0x80 0xBF, [])
    else
      let (state, out) := leadByte b
      (state, none :: out)

def utf8Run (state : Utf8State) : List UInt8 → List (Option Char)
  | [] => if state = .start then [] else [none]
  | b :: bs =>
    let (state, out) := utf8Step state b.toNat
    out ++ utf8Run state bs

def utf8? (bytes : List UInt8) : Option String :=
  ((utf8Run .start bytes).mapM id).map String.ofList

def utf8Lossy (bytes : List UInt8) : String :=
  String.ofList ((utf8Run .start bytes).map fun c => c.getD '\ufffd')

def bytesOf (s : String) : List UInt8 := s.toUTF8.data.toList

end LayeredConfig.Text
