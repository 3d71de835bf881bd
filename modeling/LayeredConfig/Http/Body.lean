import LayeredConfig.Json.Reader
import LayeredConfig.Schema

/-!
# Request bodies

A body is read against a schema from left to right, so of two faults the one that
comes first in the text counts: that the text is no JSON, or that the data have
another shape. Members that are no fields are passed over and only have to be whole.
-/

set_option autoImplicit false

namespace LayeredConfig.Http

open Json

inductive BodyFault where
  | malformed
  | wrongShape
  deriving DecidableEq, Repr

/-- A value of another kind than expected; it is still read to its end if it is a
string or a number. -/
def unexpected : Tree → BodyFault
  | .broken => .malformed
  | .number text => if (number? text).isSome then .wrongShape else .malformed
  | .string raw => if (decodeText raw).isSome then .wrongShape else .malformed
  | _ => .wrongShape

def isNull : Tree → Bool
  | .null => true
  | _ => false

def orMalformed {α : Type} : Option α → Except BodyFault α
  | some a => .ok a
  | none => .error .malformed

def bracket {α : Type} (depth : Nat) (closed : Bool) (x : Except BodyFault α) :
    Except BodyFault α := do
  if depth = 0 then .error .malformed
  let a ← x
  if closed then pure a else .error .malformed

mutual

def readTree (depth : Nat) : Schema → Tree → Except BodyFault Value
  | .any, t => orMalformed (t.value? depth)
  | .int64, .number text => do
    match ← orMalformed (number? text) with
    | .int n => if Decimal.isInt64 n then pure (.int n) else .error .wrongShape
    | _ => .error .wrongShape
  | .string, .string raw => do pure (.str (← orMalformed (decodeText raw)))
  | .boolean, .bool b => pure (.bool b)
  | .word allowed, .string raw => do
    let s ← orMalformed (decodeText raw)
    if allowed.contains s then pure (.str s) else .error .wrongShape
  | .list inner, .array items closed => do
    pure (.arr (← bracket depth closed (readItems (depth - 1) inner items)))
  | .record _ fields, .array items closed => do
    pure (.object (← bracket depth closed (readPositions (depth - 1) closed fields items)))
  | .record _ fields, .object members closed => do
    let found ← bracket depth closed (readMembers (depth - 1) fields [] members)
    if (Schema.missingField? fields found).isSome then .error .wrongShape
    else pure (.object found)
  | _, t => .error (unexpected t)

def readItems (depth : Nat) (inner : Schema) : List Tree → Except BodyFault (List Value)
  | [] => pure []
  | t :: ts => do
    let v ← readTree depth inner t
    let vs ← readItems depth inner ts
    pure (v :: vs)

/-- A field that was seen before is a fault of shape, whatever its value. -/
def readMembers (depth : Nat) (fields : Schema.Fields) (seen : List String) :
    List (List Char × Tree) → Except BodyFault (List (String × Value))
  | [] => pure []
  | (raw, t) :: rest => do
    let key ← orMalformed (decodeText raw)
    match Schema.field? fields key with
    | none =>
      if t.isWhole then readMembers depth fields seen rest else .error .malformed
    | some (presence, inner) =>
      if seen.contains key then .error .wrongShape
      let v ← if presence.allowsNull && isNull t then pure .null else readTree depth inner t
      let vs ← readMembers depth fields (key :: seen) rest
      pure ((key, v) :: vs)

/-- Items beyond the fields are a fault of grammar: the list should have ended. -/
def readPositions (depth : Nat) (closed : Bool) :
    Schema.Fields → List Tree → Except BodyFault (List (String × Value))
  | (key, presence, inner) :: fields, t :: ts => do
    let v ← if presence.allowsNull && isNull t then pure .null else readTree depth inner t
    let vs ← readPositions depth closed fields ts
    pure ((key, v) :: vs)
  | fields, [] =>
    if closed && (Schema.missingItem? 0 fields).isSome then .error .wrongShape else pure []
  | [], _ :: _ => .error .malformed

end

def readBody (schema : Schema) (text : String) : Except BodyFault Value := do
  let (tree, whole) := Tree.ofText text
  let v ← readTree maxDepth schema tree
  if whole then pure v else .error .malformed

end LayeredConfig.Http
