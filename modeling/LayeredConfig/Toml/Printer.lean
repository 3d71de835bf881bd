import LayeredConfig.Toml.Basic

/-!
# Printing TOML documents

A table prints its plain entries first, then its tables and series of tables,
each in the order of the entries. A header is left out for a table that is
neither empty nor has plain entries. Blocks are separated by an empty line.
Strings and keys take the first written form that needs no escapes but for tabs;
only where there is none, other characters are escaped.
-/

set_option autoImplicit false

namespace LayeredConfig.Toml

def isHidden (c : Char) : Bool :=
  (c.toNat < 0x20 && c != '\t' && c != '\n') || c.toNat = 0x7F

def isBareKey (cs : List Char) : Bool :=
  !cs.isEmpty && cs.all fun c => c.isAlphanum || c = '_' || c = '-'

def upperHex (n : Nat) : Char := if n < 10 then Char.ofNat (48 + n) else Char.ofNat (55 + n)

def escapeOf (c : Char) : List Char :=
  if c = '\x08' then ['\\', 'b']
  else if c = '\t' then ['\\', 't']
  else if c = '\n' then ['\\', 'n']
  else if c = '\x0c' then ['\\', 'f']
  else if c = '\r' then ['\\', 'r']
  else if c = '"' then ['\\', '"']
  else if c = '\\' then ['\\', '\\']
  else if c.toNat < 0x20 ∨ c.toNat = 0x7F then
    ['\\', 'u', '0', '0', upperHex (c.toNat / 16), upperHex (c.toNat % 16)]
  else [c]

/-- The body of a basic block: line ends stay, every third mark in a row is escaped. -/
def escapeBlock (marks : Nat) : List Char → List Char
  | [] => []
  | c :: cs =>
    if c = '"' then
      if marks < 2 then '"' :: escapeBlock (marks + 1) cs
      else '\\' :: '"' :: escapeBlock 0 cs
    else if c = '\n' then '\n' :: escapeBlock 0 cs
    else escapeOf c ++ escapeBlock 0 cs

def shortRuns (q : Char) (most run : Nat) : List Char → Bool
  | [] => true
  | c :: cs => if c = q then run + 1 ≤ most && shortRuns q most (run + 1) cs
               else shortRuns q most 0 cs

def tripleBasic : List Char := ['"', '"', '"']

def tripleLiteral : List Char := ['\'', '\'', '\'']

/-- A block puts its text on lines of its own when it has any line end. -/
def block (mark : List Char) (hasLines : Bool) (body : List Char) : List Char :=
  mark ++ (if hasLines then ['\n'] else []) ++ body ++ mark

def basicLine (cs : List Char) : List Char := '"' :: cs.flatMap escapeOf ++ ['"']

def literalLine (cs : List Char) : List Char := '\'' :: cs ++ ['\'']

def stringText (cs : List Char) : List Char :=
  let hidden := cs.any isHidden
  let hasLines := cs.contains '\n'
  let slash := cs.contains '\\'
  if !hidden && !slash && !cs.contains '"' && !hasLines then basicLine cs
  else if !hidden && !cs.contains '\'' && !hasLines then literalLine cs
  else if !hidden && !slash && shortRuns '"' 2 0 cs then
    block tripleBasic hasLines (escapeBlock 0 cs)
  else if !hidden && shortRuns '\'' 2 0 cs then block tripleLiteral hasLines cs
  else if hasLines then block tripleBasic true (escapeBlock 0 cs)
  else basicLine cs

def keyText (key : String) : List Char :=
  let cs := key.toList
  let hidden := cs.any fun c => isHidden c || c = '\n'
  if isBareKey cs then cs
  else if !hidden && !cs.contains '"' && !cs.contains '\\' then basicLine cs
  else if !hidden && !cs.contains '\'' then literalLine cs
  else basicLine cs

def pathText : List String → List Char
  | [] => []
  | [key] => keyText key
  | key :: path => keyText key ++ '.' :: pathText path

def floatText (x : Binary64) : List Char :=
  if x.isFinite then (Decimal.positional x).toList
  else (if x.isNegative then ['-'] else []) ++
    (if x.isNaN then ['n', 'a', 'n'] else ['i', 'n', 'f'])

def itemIndent : List Char := ['\n', ' ', ' ', ' ', ' ']

mutual

def valueText : Toml → List Char
  | .string s => stringText s.toList
  | .integer n => (Decimal.intText n).toList
  | .float x => floatText x
  | .boolean true => ['t', 'r', 'u', 'e']
  | .boolean false => ['f', 'a', 'l', 's', 'e']
  | .dateTime t => t.text.toList
  | .array [] => ['[', ']']
  | .array [v] => '[' :: valueText v ++ [']']
  | .array items => '[' :: itemsText items ++ ['\n', ']']
  | .table [] => ['\x7b', '\x7d']
  | .table entries => '\x7b' :: ' ' :: pairsText entries ++ [' ', '\x7d']

def itemsText : List Toml → List Char
  | [] => []
  | v :: vs => itemIndent ++ valueText v ++ ',' :: itemsText vs

def pairsText : List (String × Toml) → List Char
  | [] => []
  | [(key, v)] => keyText key ++ ' ' :: '=' :: ' ' :: valueText v
  | (key, v) :: rest =>
    keyText key ++ ' ' :: '=' :: ' ' :: valueText v ++ ',' :: ' ' :: pairsText rest

end

def isPlain (v : Toml) : Bool := !v.isTable && !v.isTableSeries

def plainLines : List (String × Toml) → List Char
  | [] => []
  | (key, v) :: rest =>
    (if isPlain v then keyText key ++ ' ' :: '=' :: ' ' :: valueText v ++ ['\n'] else []) ++
      plainLines rest

def headerText (path : List String) : List Char := '[' :: pathText path ++ [']', '\n']

def elementText (path : List String) : List Char :=
  '[' :: '[' :: pathText path ++ [']', ']', '\n']

mutual

def entryBlocks (path : List String) : List (String × Toml) → List (List Char)
  | [] => []
  | (key, v) :: rest => headedBlocks (path ++ [key]) v ++ entryBlocks path rest

def headedBlocks (path : List String) : Toml → List (List Char)
  | .table entries =>
    let own := if entries.isEmpty || entries.any (fun e => isPlain e.2) then
      [headerText path ++ plainLines entries] else []
    own ++ entryBlocks path entries
  | .array items =>
    if (Toml.array items).isTableSeries then seriesBlocks path items else []
  | _ => []

def seriesBlocks (path : List String) : List Toml → List (List Char)
  | [] => []
  | .table entries :: rest =>
    (elementText path ++ plainLines entries) :: (entryBlocks path entries ++ seriesBlocks path rest)
  | _ :: rest => seriesBlocks path rest

end

def separate : List (List Char) → List Char
  | [] => []
  | [block] => block
  | block :: blocks => block ++ '\n' :: separate blocks

def print (root : List (String × Toml)) : String :=
  let top := plainLines root
  String.ofList (separate ((if top.isEmpty then [] else [top]) ++ entryBlocks [] root))

end LayeredConfig.Toml
