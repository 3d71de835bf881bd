import LayeredConfig.Toml.Lexer
import LayeredConfig.Toml.Scalar
import LayeredConfig.Toml.Outline

/-!
# Statements of TOML documents

A document is a series of statements: headers, headers of series, and entries.
They are read by a machine with a stack of the arrays and inline tables that are
still open; it takes one token at a time and may put out one statement. The dialect
bounds the parts of a key and the containers that are open at once.
-/

set_option autoImplicit false

namespace LayeredConfig.Toml

inductive Statement where
  | header (path : List String)
  | element (path : List String)
  | entry (path : List String) (value : Toml)
  deriving Repr

inductive Frame where
  | array (items : List Toml)
  | table (pairs : List (List String × Toml)) (key : List String)

inductive KeyUse where
  | entry
  | header
  | element
  | inline (pairs : List (List String × Toml)) (root : List String) (frames : List Frame)

/-- The place in a document between two tokens. Keys are kept in reverse; `root`
is the key of the entry whose value is being read. -/
inductive Place where
  | lineStart
  | bracket
  | keyPart (use : KeyUse) (parts : List String)
  | keyEnd (use : KeyUse) (parts : List String)
  | keyGap (use : KeyUse) (parts : List String)
  | elementEnd (path : List String)
  | value (root : List String) (frames : List Frame)
  | scalar (root : List String) (frames : List Frame) (text : List Char)
  | dateGap (root : List String) (frames : List Frame) (text : List Char)
  | itemEnd (root : List String) (items : List Toml) (frames : List Frame)
  | pairStart (root : List String) (pairs : List (List String × Toml)) (frames : List Frame)
  | pairEnd (root : List String) (pairs : List (List String × Toml)) (frames : List Frame)
  | lineEnd

abbrev Move := Place × List Statement

def move (place : Place) : Option Move := some (place, [])

def addPart (d : Dialect) (use : KeyUse) (parts : List String) (text : List Char) : Option Move :=
  if d.keyParts.all (parts.length + 1 ≤ ·) then move (.keyEnd use (String.ofList text :: parts))
  else none

def keyStep (d : Dialect) (use : KeyUse) (parts : List String) : Token → Option Move
  | .atom text => if text.all isBare then addPart d use parts text else none
  | .quoted text => addPart d use parts text
  | .space _ => move (.keyPart use parts)
  | _ => none

def keyUseStep (use : KeyUse) (parts : List String) (token : Token) : Option Move :=
  match use, token with
  | .entry, .equals => move (.value parts.reverse [])
  | .header, .closeBracket => some (.lineEnd, [.header parts.reverse])
  | .element, .closeBracket => move (.elementEnd parts.reverse)
  | .inline pairs root frames, .equals => move (.value root (.table pairs parts.reverse :: frames))
  | _, _ => none

/-- Only the key of a pair may end before a line end, if its table is loose. -/
def keyEndStep (d : Dialect) (use : KeyUse) (parts : List String) (token : Token) : Option Move :=
  match token with
  | .space _ => move (.keyEnd use parts)
  | .dot => move (.keyPart use parts)
  | .newline =>
    match use with
    | .inline _ _ _ => if d.looseTables then move (.keyGap use parts) else none
    | _ => none
  | _ => keyUseStep use parts token

def keyGapStep (use : KeyUse) (parts : List String) (token : Token) : Option Move :=
  match token with
  | .space _ | .newline => move (.keyGap use parts)
  | _ => keyUseStep use parts token

def accept (root : List String) (v : Toml) : List Frame → Move
  | [] => (.lineEnd, [.entry root v])
  | .array items :: frames => (.itemEnd root (v :: items) frames, [])
  | .table pairs key :: frames => (.pairEnd root ((key, v) :: pairs) frames, [])

/-- Blanks may precede a value; inside an array or a loose table also line ends, and
inside an array its end. -/
def valueStep (d : Dialect) (root : List String) (frames : List Frame) (token : Token) :
    Option Move :=
  match token with
  | .space _ => move (.value root frames)
  | .atom text => move (.scalar root frames text)
  | .quoted text => some (accept root (.string (String.ofList text)) frames)
  | .block text => some (accept root (.string (String.ofList text)) frames)
  | .openBracket =>
    if frames.length + 1 ≤ d.openContainers then move (.value root (.array [] :: frames)) else none
  | .openBrace =>
    if frames.length + 1 ≤ d.openContainers then move (.pairStart root [] frames) else none
  | _ =>
    match frames, token with
    | .array items :: outer, .newline => move (.value root (.array items :: outer))
    | .array items :: outer, .closeBracket => some (accept root (.array items.reverse) outer)
    | .table pairs key :: outer, .newline =>
      if d.looseTables then move (.value root (.table pairs key :: outer)) else none
    | _, _ => none

/-- A pair of an inline table, or the end of the table. Only a loose table may end
after a comma or hold line ends. -/
def pairStep (d : Dialect) (root : List String) (pairs : List (List String × Toml))
    (frames : List Frame) (token : Token) : Option Move :=
  match token with
  | .space _ => move (.pairStart root pairs frames)
  | .newline => if d.looseTables then move (.pairStart root pairs frames) else none
  | .closeBrace => do
    if pairs.isEmpty || d.looseTables then
      some (accept root (← Outline.inlineTable? d pairs.reverse) frames)
    else none
  | _ => keyStep d (.inline pairs root frames) [] token

def endStep (d : Dialect) (place : Place) (token : Token) : Option Move :=
  match place, token with
  | place, .space _ => move place
  | .lineEnd, .newline => move .lineStart
  | .itemEnd root items frames, .newline => move (.itemEnd root items frames)
  | .itemEnd root items frames, .comma => move (.value root (.array items :: frames))
  | .itemEnd root items frames, .closeBracket => some (accept root (.array items.reverse) frames)
  | .pairEnd root pairs frames, .newline =>
    if d.looseTables then move (.pairEnd root pairs frames) else none
  | .pairEnd root pairs frames, .comma => move (.pairStart root pairs frames)
  | .pairEnd root pairs frames, .closeBrace => do
    some (accept root (← Outline.inlineTable? d pairs.reverse) frames)
  | _, _ => none

def scalarEnd (d : Dialect) (root : List String) (frames : List Frame) (text : List Char)
    (token : Token) : Option Move := do
  let (place, out) := accept root (← scalar? d text) frames
  let (place, more) ← endStep d place token
  some (place, out ++ more)

def placeStep (d : Dialect) (place : Place) (token : Token) : Option Move :=
  match place with
  | .lineStart =>
    match token with
    | .space _ | .newline => move .lineStart
    | .openBracket => move .bracket
    | _ => keyStep d .entry [] token
  | .bracket =>
    match token with
    | .openBracket => move (.keyPart .element [])
    | _ => keyStep d .header [] token
  | .keyPart use parts => keyStep d use parts token
  | .keyEnd use parts => keyEndStep d use parts token
  | .keyGap use parts => keyGapStep use parts token
  | .elementEnd path => if token = .closeBracket then some (.lineEnd, [.element path]) else none
  | .value root frames => valueStep d root frames token
  | .scalar root frames text =>
    match token with
    | .atom more => move (.scalar root frames (text ++ more))
    | .dot => move (.scalar root frames (text ++ ['.']))
    | .space [' '] =>
      if isDate text then move (.dateGap root frames text)
      else scalarEnd d root frames text token
    | _ => scalarEnd d root frames text token
  | .dateGap root frames text =>
    match token with
    | .atom more => move (.scalar root frames (text ++ ' ' :: more))
    | _ => scalarEnd d root frames text token
  | .itemEnd root items frames => endStep d (.itemEnd root items frames) token
  | .pairStart root pairs frames => pairStep d root pairs frames token
  | .pairEnd root pairs frames => endStep d (.pairEnd root pairs frames) token
  | .lineEnd => endStep d .lineEnd token

def placeRun (d : Dialect) (place : Place) : List Token → Option Move
  | [] => some (place, [])
  | token :: rest => do
    let (place, out) ← placeStep d place token
    let (place, more) ← placeRun d place rest
    some (place, out ++ more)

def statements? (d : Dialect) (ts : List Token) : Option (List Statement) := do
  let (place, out) ← placeRun d .lineStart (ts ++ [.newline])
  match place with
  | .lineStart => some out
  | _ => none

end LayeredConfig.Toml
