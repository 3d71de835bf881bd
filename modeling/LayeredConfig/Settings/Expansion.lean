import LayeredConfig.Settings.Environment
import LayeredConfig.Text.Word

/-!
# Expansion of paths

A path may refer to variables, as `$NAME` or in braces, and start with a tilde for
the home directory. A text is first read as pieces, which needs no environment; then
each reference is replaced by the value of its variable, which is not expanded again.
In braces a fallback may follow the name after `:-`; it counts when the variable is
not set. Two dollar signs are one, and one that starts no reference is itself.
-/

set_option autoImplicit false

namespace LayeredConfig

inductive PathPiece where
  | plain (c : Char)
  | variable (name : String) (fallback : Option String)
  deriving DecidableEq, Repr

namespace PathPiece

def isNameChar (c : Char) : Bool := Text.isWordChar c || c = '_'

def splitFallback : List Char → List Char × Option (List Char)
  | [] => ([], none)
  | ':' :: '-' :: rest => ([], some rest)
  | c :: cs =>
    let (name, fallback) := splitFallback cs
    (c :: name, fallback)

/-- The reference in braces. A fallback needs a name before it. -/
def braced (inside : List Char) : PathPiece :=
  match splitFallback inside with
  | ([], some _) => .variable (String.ofList inside) none
  | (name, fallback) => .variable (String.ofList name) (fallback.map String.ofList)

def ofText : List Char → List PathPiece
  | [] => []
  | '$' :: '$' :: cs => .plain '$' :: ofText cs
  | '$' :: '\x7b' :: cs =>
    match h : cs.dropWhile (· != '\x7d') with
    | [] => .plain '$' :: .plain '\x7b' :: ofText cs
    | _ :: rest =>
      have : rest.length < cs.length := by
        have := (List.dropWhile_suffix (l := cs) (· != '\x7d')).length_le
        rw [h] at this
        exact this
      braced (cs.takeWhile (· != '\x7d')) :: ofText rest
  | '$' :: cs =>
    have : (cs.dropWhile isNameChar).length ≤ cs.length :=
      (List.dropWhile_suffix isNameChar).length_le
    let name := cs.takeWhile isNameChar
    if name.isEmpty then .plain '$' :: ofText cs
    else .variable (String.ofList name) none :: ofText (cs.dropWhile isNameChar)
  | c :: cs => .plain c :: ofText cs
termination_by cs => cs.length
decreasing_by all_goals (simp only [List.length_cons]; omega)

def value (e : Environment) : PathPiece → Except String (List Char)
  | .plain c => .ok [c]
  | .variable name fallback =>
    match (e.get? name).or fallback with
    | some s => .ok s.toList
    | none => .error name

end PathPiece

namespace Environment

def substitute (e : Environment) : List PathPiece → Except String (List Char)
  | [] => .ok []
  | piece :: pieces => do
    let head ← piece.value e
    let tail ← e.substitute pieces
    pure (head ++ tail)

/-- A tilde stands for the home directory if it is the whole first name. -/
def expandTilde (e : Environment) : List Char → List Char
  | ['~'] => e.home.toList
  | '~' :: '/' :: rest => e.home.toList ++ '/' :: rest
  | cs => cs

/-- The path that a text means, or the name of a variable that is not set. A tilde
that comes out of a variable is an ordinary character. -/
def expand (e : Environment) (text : String) : Except String String := do
  let cs ← e.substitute (PathPiece.ofText text.toList)
  pure (String.ofList (if text.toList.head? = some '~' then e.expandTilde cs else cs))

end Environment

end LayeredConfig
