import LayeredConfig.Value
import LayeredConfig.Toml.Basic

/-!
# Values that a level file can hold

TOML has no null and its integers have 64 bits. Members that are null are left
out; null anywhere else makes a value unrepresentable. Greater integers become
floats. In the other direction date-times become strings, and floats that are no
numbers have no value.
-/

set_option autoImplicit false

namespace LayeredConfig

namespace Toml

mutual

def ofValue? : Value → Option Toml
  | .null => none
  | .bool b => some (.boolean b)
  | .int n => some (if Decimal.isInt64 n then .integer n else .float (Binary64.ofInt n))
  | .float x => some (.float x)
  | .str s => some (.string s)
  | .arr items => (ofItems? items).map .array
  | .obj members => (ofMembers? members).map .table

def ofItems? : List Value → Option (List Toml)
  | [] => some []
  | v :: vs => do
    let t ← ofValue? v
    let ts ← ofItems? vs
    some (t :: ts)

def ofMembers? : List (String × Value) → Option (List (String × Toml))
  | [] => some []
  | (_, .null) :: rest => ofMembers? rest
  | (key, v) :: rest => do
    let t ← ofValue? v
    let ts ← ofMembers? rest
    some ((key, t) :: ts)

end

mutual

def toValue? : Toml → Option Value
  | .string s => some (.str s)
  | .integer n => some (.int n)
  | .float x => if x.isFinite then some (.float x) else none
  | .boolean b => some (.bool b)
  | .dateTime t => some (.str t.text)
  | .array items => (toItems? items).map .arr
  | .table entries => (toMembers? entries).map .obj

def toItems? : List Toml → Option (List Value)
  | [] => some []
  | t :: ts => do
    let v ← toValue? t
    let vs ← toItems? ts
    some (v :: vs)

def toMembers? : List (String × Toml) → Option (List (String × Value))
  | [] => some []
  | (key, t) :: rest => do
    let v ← toValue? t
    let vs ← toMembers? rest
    some ((key, v) :: vs)

end

end Toml

def Value.isRepresentable (v : Value) : Bool := (Toml.ofValue? v).isSome

end LayeredConfig
