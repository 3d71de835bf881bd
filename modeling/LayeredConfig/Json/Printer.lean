import LayeredConfig.Value

/-!
# JSON texts of values

Two layouts: `compact` without any blank, and `pretty` with one item or member
a line, two spaces deeper than its container.
-/

set_option autoImplicit false

namespace LayeredConfig.Json

def hexChar (n : Nat) : Char :=
  if n < 10 then Char.ofNat (48 + n) else Char.ofNat (87 + n)

/-- Quotation marks, backslashes and control characters are escaped, nothing else. -/
def escape (c : Char) : List Char :=
  if c = '"' then ['\\', '"']
  else if c = '\\' then ['\\', '\\']
  else if c = '\x08' then ['\\', 'b']
  else if c = '\x0c' then ['\\', 'f']
  else if c = '\n' then ['\\', 'n']
  else if c = '\r' then ['\\', 'r']
  else if c = '\t' then ['\\', 't']
  else if c.toNat < 0x20 then ['\\', 'u', '0', '0', hexChar (c.toNat / 16), hexChar (c.toNat % 16)]
  else [c]

def quote (s : String) : String :=
  String.ofList ('"' :: s.toList.flatMap escape ++ ['"'])

def openBrace : String := "\x7b"

def closeBrace : String := "\x7d"

mutual

def compact : Value → String
  | .null => "null"
  | .bool true => "true"
  | .bool false => "false"
  | .int n => Decimal.intText n
  | .float x => Decimal.compact x
  | .str s => quote s
  | .arr items => "[" ++ ",".intercalate (compactItems items) ++ "]"
  | .obj members => openBrace ++ ",".intercalate (compactMembers members) ++ closeBrace

def compactItems : List Value → List String
  | [] => []
  | v :: vs => compact v :: compactItems vs

def compactMembers : List (String × Value) → List String
  | [] => []
  | (k, v) :: vs => (quote k ++ ":" ++ compact v) :: compactMembers vs

end

def indentText (depth : Nat) : String := String.ofList (List.replicate (2 * depth) ' ')

def enclose (opening closing : String) (depth : Nat) (lines : List String) : String :=
  if lines.isEmpty then opening ++ closing
  else
    let inner := "\n" ++ indentText (depth + 1)
    opening ++ inner ++ ("," ++ inner).intercalate lines ++ "\n" ++ indentText depth ++ closing

mutual

def prettyAt (depth : Nat) : Value → String
  | .arr items => enclose "[" "]" depth (prettyItems (depth + 1) items)
  | .obj members => enclose openBrace closeBrace depth (prettyMembers (depth + 1) members)
  | v => compact v

def prettyItems (depth : Nat) : List Value → List String
  | [] => []
  | v :: vs => prettyAt depth v :: prettyItems depth vs

def prettyMembers (depth : Nat) : List (String × Value) → List String
  | [] => []
  | (k, v) :: vs => (quote k ++ ": " ++ prettyAt depth v) :: prettyMembers depth vs

end

def pretty (v : Value) : String := prettyAt 0 v

end LayeredConfig.Json
