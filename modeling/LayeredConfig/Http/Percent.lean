import LayeredConfig.Text.Split
import LayeredConfig.Text.Utf8

/-!
# Percent encoding and query strings

A percent sign with two hexadecimal digits stands for a byte; any other percent sign
stands for itself. In a query a plus sign stands for a blank, and bytes that are no
text are replaced.
-/

set_option autoImplicit false

namespace LayeredConfig.Http

def hexByte? (b : UInt8) : Option Nat :=
  let n := b.toNat
  if 48 ≤ n ∧ n ≤ 57 then some (n - 48)
  else if 97 ≤ n ∧ n ≤ 102 then some (n - 87)
  else if 65 ≤ n ∧ n ≤ 70 then some (n - 55)
  else none

def percentDecode : List UInt8 → List UInt8
  | [] => []
  | 37 :: a :: b :: rest =>
    match hexByte? a, hexByte? b with
    | some high, some low => UInt8.ofNat (16 * high + low) :: percentDecode rest
    | _, _ => 37 :: percentDecode (a :: b :: rest)
  | b :: rest => b :: percentDecode rest

def decodeSegment? (raw : String) : Option String :=
  Text.utf8? (percentDecode (Text.bytesOf raw))

def decodeQuery (raw : List Char) : String :=
  let bytes := (Text.bytesOf (String.ofList raw)).map fun b => if b = 43 then 32 else b
  Text.utf8Lossy (percentDecode bytes)

/-- The pairs of a query string; a piece without an equals sign has an empty value. -/
def queryPairs (query : String) : List (String × String) :=
  ((Text.splitOn (· == '&') query.toList).filter (!·.isEmpty)).map fun piece =>
    let (name, value) := piece.span (· != '=')
    (decodeQuery name, decodeQuery (value.drop 1))

end LayeredConfig.Http
