import LayeredConfig.Value
import LayeredConfig.Text.Quoted

/-!
# Schemas of data

What shape a piece of data must have to be read as something: a site, an update, a
request body. `Schema.check` finds the first place where a value does not have the
shape and words it. The members of an object are visited in key order and missing
fields are found afterwards; a record may also be given as the list of its fields.
-/

set_option autoImplicit false

namespace LayeredConfig

/-- Whether a field of a record may be left out, and whether `null` stands for
leaving it out. A `nullable` field may be missing from an object but not from a list. -/
inductive Presence where
  | required
  | defaulted
  | nullable
  | free
  deriving DecidableEq, Repr

namespace Presence

def allowsNull : Presence → Bool
  | .nullable | .free => true
  | _ => false

def mayBeNoMember : Presence → Bool
  | .required => false
  | _ => true

def mayBeNoItem : Presence → Bool
  | .defaulted | .free => true
  | _ => false

end Presence

inductive Schema where
  | any
  | int64
  | string
  | boolean
  | word (allowed : List String)
  | list (inner : Schema)
  | record (name : String) (fields : List (String × Presence × Schema))
  deriving Inhabited

namespace Schema

def described : Value → String
  | .null => "null"
  | .bool true => "boolean `true`"
  | .bool false => "boolean `false`"
  | .int n => s!"integer `{Decimal.intText n}`"
  | .float x => s!"floating point `{Decimal.compact x}`"
  | .str s => s!"string {Text.quoted s}"
  | .arr _ => "sequence"
  | .obj _ => "map"

def wrongType (v : Value) (expected : String) : Except String Unit :=
  .error s!"invalid type: {described v}, expected {expected}"

def elementCount (n : Nat) : String :=
  if n = 1 then "1 element" else s!"{Decimal.natText n} elements"

abbrev Fields := List (String × Presence × Schema)

def field? (fields : Fields) (key : String) : Option (Presence × Schema) :=
  (fields.find? (·.1 == key)).map (·.2)

def missingField? (fields : Fields) (members : List (String × Value)) : Option String :=
  (fields.find? fun (name, presence, _) =>
    !presence.mayBeNoMember && !Table.contains members name).map (·.1)

def missingItem? (position : Nat) (fields : Fields) : Option Nat :=
  (fields.findIdx? fun (_, presence, _) => !presence.mayBeNoItem).map (position + ·)

mutual

def check : Schema → Value → Except String Unit
  | .any, _ => .ok ()
  | .int64, .int n =>
    if Decimal.isInt64 n then .ok ()
    else .error s!"invalid value: integer `{Decimal.intText n}`, expected i64"
  | .int64, v => wrongType v "i64"
  | .string, .str _ => .ok ()
  | .string, v => wrongType v "a string"
  | .boolean, .bool _ => .ok ()
  | .boolean, v => wrongType v "a boolean"
  | .word allowed, .str s =>
    if allowed.contains s then .ok () else .error s!"unknown variant `{s}`"
  | .word _, v => wrongType v "a string"
  | .list inner, .arr items => checkItems inner items
  | .list _, v => wrongType v "a sequence"
  | .record name fields, .arr items => checkPositions name fields.length 0 fields items
  | .record _ fields, .obj members => do
    checkMembers fields members
    match missingField? fields members with
    | some name => .error s!"missing field `{name}`"
    | none => .ok ()
  | .record name _, v => wrongType v s!"struct {name}"

def checkItems (inner : Schema) : List Value → Except String Unit
  | [] => .ok ()
  | v :: vs => do
    check inner v
    checkItems inner vs

/-- Members that are no fields of the record are not looked at. -/
def checkMembers (fields : Fields) : List (String × Value) → Except String Unit
  | [] => .ok ()
  | (key, v) :: rest => do
    match field? fields key with
    | some (presence, inner) =>
      if presence.allowsNull && v == .null then .ok () else check inner v
    | none => .ok ()
    checkMembers fields rest

def checkPositions (name : String) (count position : Nat) :
    Fields → List Value → Except String Unit
  | (_, presence, inner) :: fields, v :: vs => do
    if presence.allowsNull && v == .null then .ok () else check inner v
    checkPositions name count (position + 1) fields vs
  | fields, [] =>
    match missingItem? position fields with
    | some n => .error s!"invalid length {Decimal.natText n}, expected struct {name} with {elementCount count}"
    | none => .ok ()
  | [], v :: vs =>
    .error s!"invalid length {Decimal.natText (position + (v :: vs).length)}, expected fewer elements in array"

end

def fieldOf (fields : Fields) (v : Value) (name : String) : Value :=
  match v with
  | .arr items => (items[fields.findIdx (·.1 == name)]?).getD .null
  | v => (v.get? name).getD .null

end Schema

end LayeredConfig
