import LayeredConfig.Json.Tree
import LayeredConfig.Json.Scalar

/-!
# Values of JSON texts

A text that holds one value and nothing else denotes that value. Of equal keys
in an object the last counts. Containers may be nested at most `maxDepth` deep.
-/

set_option autoImplicit false

namespace LayeredConfig.Json

def maxDepth : Nat := 127

mutual

def Tree.value? (depth : Nat) : Tree → Option Value
  | .null => some .null
  | .bool b => some (.bool b)
  | .number text => number? text
  | .string raw => (decodeText raw).map .str
  | .array items closed =>
    if depth = 0 ∨ !closed then none else (values? (depth - 1) items).map .arr
  | .object members closed =>
    if depth = 0 ∨ !closed then none else (memberValues? (depth - 1) members).map Value.object
  | .broken => none

def values? (depth : Nat) : List Tree → Option (List Value)
  | [] => some []
  | t :: ts => do
    let v ← t.value? depth
    let vs ← values? depth ts
    pure (v :: vs)

def memberValues? (depth : Nat) : List (List Char × Tree) → Option (List (String × Value))
  | [] => some []
  | (key, t) :: ts => do
    let k ← decodeText key
    let v ← t.value? depth
    let rest ← memberValues? depth ts
    pure ((k, v) :: rest)

end

def parse? (text : String) : Option Value :=
  match Tree.ofText text with
  | (tree, true) => tree.value? maxDepth
  | (_, false) => none

end LayeredConfig.Json
