import LayeredConfig.Json.Lexer

/-!
# JSON texts as trees, as far as they are well formed

Reading stops at the first token that does not fit. What was read until then is
kept: a missing value is `broken`, and an array or object that was not closed
says so. A reader that walks a tree from left to right therefore meets a fault of
shape before a fault of grammar exactly when it comes first in the text.
-/

set_option autoImplicit false

namespace LayeredConfig.Json

inductive Tree where
  | null
  | bool (b : Bool)
  | number (text : List Char)
  | string (raw : List Char)
  | array (items : List Tree) (closed : Bool)
  | object (members : List (List Char × Tree)) (closed : Bool)
  | broken
  deriving Repr, Inhabited

inductive Frame where
  | array (items : List Tree)
  | object (members : List (List Char × Tree)) (key : List Char)

inductive Expect where
  | value
  | firstItem
  | itemEnd (items : List Tree)
  | firstKey
  | key (members : List (List Char × Tree))
  | colon (members : List (List Char × Tree)) (key : List Char)
  | memberEnd (members : List (List Char × Tree))
  | done (tree : Tree)

structure State where
  expect : Expect
  frames : List Frame

def accept (tree : Tree) : List Frame → State
  | [] => ⟨.done tree, []⟩
  | .array items :: frames => ⟨.itemEnd (tree :: items), frames⟩
  | .object members key :: frames => ⟨.memberEnd ((key, tree) :: members), frames⟩

def valueStep (frames : List Frame) : Token → Option State
  | .null => some (accept .null frames)
  | .bool b => some (accept (.bool b) frames)
  | .number text => some (accept (.number text) frames)
  | .string raw => some (accept (.string raw) frames)
  | .openBracket => some ⟨.firstItem, frames⟩
  | .openBrace => some ⟨.firstKey, frames⟩
  | _ => none

def treeStep (s : State) (token : Token) : Option State :=
  match s.expect, token with
  | .value, token => valueStep s.frames token
  | .firstItem, .closeBracket => some (accept (.array [] true) s.frames)
  | .firstItem, token => valueStep (.array [] :: s.frames) token
  | .itemEnd items, .comma => some ⟨.value, .array items :: s.frames⟩
  | .itemEnd items, .closeBracket => some (accept (.array items.reverse true) s.frames)
  | .firstKey, .closeBrace => some (accept (.object [] true) s.frames)
  | .firstKey, .string key => some ⟨.colon [] key, s.frames⟩
  | .key members, .string key => some ⟨.colon members key, s.frames⟩
  | .colon members key, .colon => some ⟨.value, .object members key :: s.frames⟩
  | .memberEnd members, .comma => some ⟨.key members, s.frames⟩
  | .memberEnd members, .closeBrace => some (accept (.object members.reverse true) s.frames)
  | _, _ => none

def cut (tree : Tree) : List Frame → Tree
  | [] => tree
  | .array items :: frames => cut (.array (tree :: items).reverse false) frames
  | .object members key :: frames => cut (.object ((key, tree) :: members).reverse false) frames

def State.stop (s : State) : Tree :=
  match s.expect with
  | .value => cut .broken s.frames
  | .firstItem => cut (.array [] false) s.frames
  | .itemEnd items => cut (.array items.reverse false) s.frames
  | .firstKey => cut (.object [] false) s.frames
  | .key members => cut (.object members.reverse false) s.frames
  | .colon members key => cut (.object ((key, .broken) :: members).reverse false) s.frames
  | .memberEnd members => cut (.object members.reverse false) s.frames
  | .done tree => tree

def treeRun (s : State) : List Token → State × Bool
  | [] => (s, true)
  | token :: rest =>
    match treeStep s token with
    | some s => treeRun s rest
    | none => (s, false)

def Tree.ofText (text : String) : Tree × Bool :=
  let (ts, whole) := tokens text
  let (s, fitted) := treeRun ⟨.value, []⟩ ts
  (s.stop, whole && fitted)

mutual

def Tree.isWhole : Tree → Bool
  | .array items closed => closed && areWhole items
  | .object members closed => closed && membersWhole members
  | .broken => false
  | _ => true

def areWhole : List Tree → Bool
  | [] => true
  | t :: ts => t.isWhole && areWhole ts

def membersWhole : List (List Char × Tree) → Bool
  | [] => true
  | (_, t) :: ts => t.isWhole && membersWhole ts

end

end LayeredConfig.Json
