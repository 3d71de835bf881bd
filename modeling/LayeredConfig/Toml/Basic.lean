import LayeredConfig.Table
import LayeredConfig.Toml.DateTime

/-!
# TOML values

The data of a TOML document. Integers are those of 64 bits, floats include
infinities and NaNs. The entries of a table are a list: a reader puts them in key
order, a printer keeps the order that it is given.
-/

set_option autoImplicit false

namespace LayeredConfig

inductive Toml where
  | string (s : String)
  | integer (n : Int)
  | float (x : Binary64)
  | boolean (b : Bool)
  | dateTime (t : Toml.DateTime)
  | array (items : List Toml)
  | table (entries : List (String × Toml))
  deriving Repr, Inhabited

namespace Toml

def isTable : Toml → Bool
  | .table _ => true
  | _ => false

def isTableSeries : Toml → Bool
  | .array items => !items.isEmpty && items.all isTable
  | _ => false

def get? : Toml → String → Option Toml
  | .table entries, key => Table.get? entries key
  | _, _ => none

end Toml

end LayeredConfig
