import LayeredConfig.Toml.Dialect

/-!
# Tokens of TOML documents

The lexer is a machine that takes one character at a time and may put out
tokens. Blanks are tokens, since some places admit none; comments are not.
Strings of both kinds, on one line and on several, are decoded here. An atom is a
run of the characters that bare keys and unquoted values are made of, the point
excepted. A text with a character that fits nowhere has no tokens at all.
-/

set_option autoImplicit false

namespace LayeredConfig.Toml

inductive Token where
  | atom (text : List Char)
  | quoted (text : List Char)
  | block (text : List Char)
  | dot
  | equals
  | comma
  | openBracket
  | closeBracket
  | openBrace
  | closeBrace
  | space (text : List Char)
  | newline
  deriving DecidableEq, Repr

inductive Quote where
  | basic
  | literal
  deriving DecidableEq, Repr

def Quote.char : Quote → Char
  | .basic => '"'
  | .literal => '\''

inductive Fold where
  | blanks
  | lineEnd
  | carriage
  deriving DecidableEq, Repr

inductive Mode where
  | idle
  | atom (text : List Char)
  | space (text : List Char)
  | comment
  | carriage
  | opening (q : Quote) (count : Nat)
  | line (q : Quote) (text : List Char)
  | blockStart (q : Quote)
  | blockStartCarriage (q : Quote)
  | block (q : Quote) (text : List Char)
  | blockCarriage (q : Quote) (text : List Char)
  | closing (q : Quote) (text : List Char) (count : Nat)
  | escape (inBlock : Bool) (text : List Char)
  | hex (inBlock : Bool) (text : List Char) (left value : Nat)
  | fold (text : List Char) (seen : Fold)
  deriving DecidableEq, Repr

def isBare (c : Char) : Bool :=
  c.isAlphanum || c = '_' || c = '-'

def isAtom (c : Char) : Bool := isBare c || c = '+' || c = ':'

def isSpace (c : Char) : Bool := c = ' ' || c = '\t'

def isControl (c : Char) : Bool := (c.toNat < 0x20 && c != '\t') || c.toNat = 0x7F

def hexValue? (c : Char) : Option Nat :=
  if c.isDigit then some (c.toNat - 48)
  else if 'a' ≤ c && c ≤ 'f' then some (c.toNat - 87)
  else if 'A' ≤ c && c ≤ 'F' then some (c.toNat - 55)
  else none

def escaped? (d : Dialect) : Char → Option Char
  | 'b' => some '\x08'
  | 't' => some '\t'
  | 'n' => some '\n'
  | 'f' => some '\x0c'
  | 'r' => some '\r'
  | '"' => some '"'
  | '\\' => some '\\'
  | 'e' => if d.shortEscapes then some '\x1b' else none
  | _ => none

def hexDigits? (d : Dialect) : Char → Option Nat
  | 'u' => some 4
  | 'U' => some 8
  | 'x' => if d.shortEscapes then some 2 else none
  | _ => none

abbrev Out := Mode × List Token

def idleStep (c : Char) : Option Out :=
  if isSpace c then some (.space [c], [])
  else if isAtom c then some (.atom [c], [])
  else match c with
    | '\n' => some (.idle, [.newline])
    | '\r' => some (.carriage, [])
    | '#' => some (.comment, [])
    | '"' => some (.opening .basic 1, [])
    | '\'' => some (.opening .literal 1, [])
    | '.' => some (.idle, [.dot])
    | '=' => some (.idle, [.equals])
    | ',' => some (.idle, [.comma])
    | '[' => some (.idle, [.openBracket])
    | ']' => some (.idle, [.closeBracket])
    | '\x7b' => some (.idle, [.openBrace])
    | '\x7d' => some (.idle, [.closeBrace])
    | _ => none

def emit (token : Token) (c : Char) : Option Out :=
  (idleStep c).map fun (mode, out) => (mode, token :: out)

def lineStep (q : Quote) (text : List Char) (c : Char) : Option Out :=
  if c = q.char then some (.idle, [.quoted text.reverse])
  else if c = '\\' ∧ q = .basic then some (.escape false text, [])
  else if isControl c then none
  else some (.line q (c :: text), [])

def blockStep (q : Quote) (text : List Char) (c : Char) : Option Out :=
  if c = q.char then some (.closing q text 1, [])
  else if c = '\\' ∧ q = .basic then some (.escape true text, [])
  else if c = '\n' then some (.block q ('\n' :: text), [])
  else if c = '\r' then some (.blockCarriage q text, [])
  else if isControl c then none
  else some (.block q (c :: text), [])

def resume (inBlock : Bool) (text : List Char) : Mode :=
  if inBlock then .block .basic text else .line .basic text

def escapeStep (d : Dialect) (inBlock : Bool) (text : List Char) (c : Char) : Option Out :=
  match escaped? d c, hexDigits? d c with
  | some e, _ => some (resume inBlock (e :: text), [])
  | none, some digits => some (.hex inBlock text digits 0, [])
  | none, none =>
    if !inBlock then none
    else if isSpace c then some (.fold text .blanks, [])
    else if c = '\n' then some (.fold text .lineEnd, [])
    else if c = '\r' then some (.fold text .carriage, [])
    else none

def hexStep (inBlock : Bool) (text : List Char) (left value : Nat) (c : Char) : Option Out := do
  let value := 16 * value + (← hexValue? c)
  if 1 < left then some (.hex inBlock text (left - 1) value, [])
  else if value.isValidChar then some (resume inBlock (Char.ofNat value :: text), [])
  else none

/-- Blanks after a backslash count only if a line end follows; after it, blanks and
further line ends are skipped. -/
def foldStep (text : List Char) (seen : Fold) (c : Char) : Option Out :=
  match seen with
  | .blanks =>
    if isSpace c then some (.fold text .blanks, [])
    else if c = '\n' then some (.fold text .lineEnd, [])
    else if c = '\r' then some (.fold text .carriage, [])
    else none
  | .carriage => if c = '\n' then some (.fold text .lineEnd, []) else none
  | .lineEnd =>
    if isSpace c ∨ c = '\n' then some (.fold text .lineEnd, [])
    else if c = '\r' then some (.fold text .carriage, [])
    else blockStep .basic text c

/-- Marks at the end of a block: three close it, one or two before them belong to
the text. -/
def closingStep (q : Quote) (text : List Char) (count : Nat) (c : Char) : Option Out :=
  if c = q.char ∧ count < 5 then some (.closing q text (count + 1), [])
  else if 3 ≤ count then
    emit (.block (List.replicate (count - 3) q.char ++ text).reverse) c
  else blockStep q (List.replicate count q.char ++ text) c

/-- A line end inside a string, which may keep its carriage return. -/
def keptLineEnd (d : Dialect) (text : List Char) : List Char :=
  if d.keepsCarriage then '\n' :: '\r' :: text else '\n' :: text

def step (d : Dialect) : Mode → Char → Option Out
  | .idle, c => idleStep c
  | .atom text, c =>
    if isAtom c then some (.atom (c :: text), []) else emit (.atom text.reverse) c
  | .space text, c =>
    if isSpace c then some (.space (c :: text), []) else emit (.space text.reverse) c
  | .comment, c =>
    if c = '\n' then some (.idle, [.newline])
    else if c = '\r' then some (.carriage, [])
    else if isControl c then none
    else some (.comment, [])
  | .carriage, c => if c = '\n' then some (.idle, [.newline]) else none
  | .opening q count, c =>
    if c = q.char then
      if count = 1 then some (.opening q 2, []) else some (.blockStart q, [])
    else if count = 1 then lineStep q [] c
    else emit (.quoted []) c
  | .line q text, c => lineStep q text c
  | .blockStart q, c =>
    if c = '\n' then some (.block q [], [])
    else if c = '\r' then some (.blockStartCarriage q, [])
    else blockStep q [] c
  | .blockStartCarriage q, c => if c = '\n' then some (.block q [], []) else none
  | .block q text, c => blockStep q text c
  | .blockCarriage q text, c => if c = '\n' then some (.block q (keptLineEnd d text), []) else none
  | .closing q text count, c => closingStep q text count c
  | .escape inBlock text, c => escapeStep d inBlock text c
  | .hex inBlock text left value, c => hexStep inBlock text left value c
  | .fold text seen, c => foldStep text seen c

def finish : Mode → Option (List Token)
  | .idle => some []
  | .atom text => some [.atom text.reverse]
  | .space text => some [.space text.reverse]
  | .comment => some []
  | .opening _ 2 => some [.quoted []]
  | .closing q text count =>
    if 3 ≤ count then some [.block (List.replicate (count - 3) q.char ++ text).reverse] else none
  | _ => none

def lex (d : Dialect) (mode : Mode) : List Char → Option (List Token)
  | [] => finish mode
  | c :: cs => do
    let (mode, out) ← step d mode c
    let rest ← lex d mode cs
    pure (out ++ rest)

def skipByteOrderMark : List Char → List Char
  | '\ufeff' :: rest => rest
  | text => text

def tokens (d : Dialect) (text : List Char) : Option (List Token) :=
  lex d .idle (skipByteOrderMark text)

end LayeredConfig.Toml
