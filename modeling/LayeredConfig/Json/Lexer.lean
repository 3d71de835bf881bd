/-!
# Tokens of JSON texts

The lexer is a machine that takes one character at a time and may put out
tokens. It checks the shape of strings, numbers and keywords but leaves strings
as they are written, since some readers skip a string without decoding it.
A text that leaves the lexical grammar is read up to that place:
`tokens` returns what came before and whether the whole text was in the grammar.
-/

set_option autoImplicit false

namespace LayeredConfig.Json

inductive Token where
  | openBrace
  | closeBrace
  | openBracket
  | closeBracket
  | colon
  | comma
  | null
  | bool (b : Bool)
  | number (text : List Char)
  | string (raw : List Char)
  deriving DecidableEq, Repr

inductive NumberPart where
  | minus
  | zero
  | whole
  | point
  | fraction
  | mark
  | markSign
  | exponent
  deriving DecidableEq, Repr

namespace NumberPart

def isComplete : NumberPart → Bool
  | .zero | .whole | .fraction | .exponent => true
  | _ => false

def next? (part : NumberPart) (c : Char) : Option NumberPart :=
  match part with
  | .minus => if c = '0' then some .zero else if c.isDigit then some .whole else none
  | .zero => if c = '.' then some .point else if c = 'e' ∨ c = 'E' then some .mark else none
  | .whole =>
    if c.isDigit then some .whole
    else if c = '.' then some .point
    else if c = 'e' ∨ c = 'E' then some .mark else none
  | .point => if c.isDigit then some .fraction else none
  | .fraction =>
    if c.isDigit then some .fraction else if c = 'e' ∨ c = 'E' then some .mark else none
  | .mark =>
    if c = '+' ∨ c = '-' then some .markSign else if c.isDigit then some .exponent else none
  | .markSign => if c.isDigit then some .exponent else none
  | .exponent => if c.isDigit then some .exponent else none

end NumberPart

inductive Mode where
  | idle
  | keyword (rest : List Char) (token : Token)
  | number (part : NumberPart) (text : List Char)
  | string (raw : List Char)
  | escape (raw : List Char)
  | hex (left : Nat) (raw : List Char)
  | broken
  deriving DecidableEq, Repr

def isHexDigit (c : Char) : Bool :=
  c.isDigit || ('a' ≤ c && c ≤ 'f') || ('A' ≤ c && c ≤ 'F')

def isGap (c : Char) : Bool := c = ' ' || c = '\n' || c = '\t' || c = '\r'

def idleStep (c : Char) : Mode × List Token :=
  if isGap c then (.idle, [])
  else match c with
    | '\x7b' => (.idle, [.openBrace])
    | '\x7d' => (.idle, [.closeBrace])
    | '[' => (.idle, [.openBracket])
    | ']' => (.idle, [.closeBracket])
    | ':' => (.idle, [.colon])
    | ',' => (.idle, [.comma])
    | '"' => (.string [], [])
    | 'n' => (.keyword ['u', 'l', 'l'] .null, [])
    | 't' => (.keyword ['r', 'u', 'e'] (.bool true), [])
    | 'f' => (.keyword ['a', 'l', 's', 'e'] (.bool false), [])
    | '-' => (.number .minus [c], [])
    | '0' => (.number .zero [c], [])
    | _ => if c.isDigit then (.number .whole [c], []) else (.broken, [])

def escapeLetters : List Char := ['"', '\\', '/', 'b', 'f', 'n', 'r', 't']

/-- A zero directly before a digit is no number, and no digit continues it. -/
def step : Mode → Char → Mode × List Token
  | .idle, c => idleStep c
  | .keyword [] _, _ => (.broken, [])
  | .keyword (k :: rest) token, c =>
    if c ≠ k then (.broken, [])
    else if rest = [] then (.idle, [token])
    else (.keyword rest token, [])
  | .number part text, c =>
    match part.next? c with
    | some part => (.number part (c :: text), [])
    | none =>
      if part.isComplete && !(part = .zero && c.isDigit) then
        let (mode, out) := idleStep c
        (mode, .number text.reverse :: out)
      else (.broken, [])
  | .string raw, c =>
    if c = '"' then (.idle, [.string raw.reverse])
    else if c = '\\' then (.escape (c :: raw), [])
    else if c.toNat < 0x20 then (.broken, [])
    else (.string (c :: raw), [])
  | .escape raw, c =>
    if c = 'u' then (.hex 4 (c :: raw), [])
    else if escapeLetters.contains c then (.string (c :: raw), [])
    else (.broken, [])
  | .hex left raw, c =>
    if !isHexDigit c then (.broken, [])
    else if left ≤ 1 then (.string (c :: raw), [])
    else (.hex (left - 1) (c :: raw), [])
  | .broken, _ => (.broken, [])

def finish : Mode → List Token × Bool
  | .idle => ([], true)
  | .number part text => if part.isComplete then ([.number text.reverse], true) else ([], false)
  | _ => ([], false)

def lex (mode : Mode) : List Char → List Token × Bool
  | [] => finish mode
  | c :: cs =>
    let (mode, out) := step mode c
    let (rest, whole) := lex mode cs
    (out ++ rest, whole)

def tokens (text : String) : List Token × Bool := lex .idle text.toList

end LayeredConfig.Json
