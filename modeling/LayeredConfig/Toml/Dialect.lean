import LayeredConfig.Toml.DateTime

/-!
# Dialects of TOML

Readers of TOML differ in what they admit beyond the common core and in what they keep
of a text. A dialect says so for one reader.
-/

set_option autoImplicit false

namespace LayeredConfig.Toml

structure Dialect where
  /-- The greatest number of parts that a key may have, if there is one. -/
  keyParts : Option Nat
  /-- The greatest number of arrays and inline tables that may be open at once. -/
  openContainers : Nat
  /-- Do inline tables hold line ends and comments, and a comma before their end? -/
  looseTables : Bool
  /-- Are `\e` and `\x` with two hexadecimal digits escapes? -/
  shortEscapes : Bool
  /-- Does a line end in a string keep its carriage return? -/
  keepsCarriage : Bool
  /-- Is a negative number beyond all floats the negative infinity? -/
  negativeOverflow : Bool
  /-- May a dotted key add to a table that exists only as the parent of others? -/
  extendsParents : Bool
  /-- How dates and times are written. -/
  times : TimeForm
  /-- A form, if a table whose first key is `dateKey` is a date-time in that form. -/
  dateTables : Option TimeForm
  deriving Repr

/-- The key that makes a table a date-time where the dialect says so. -/
def dateKey : String := "$__toml_private_datetime"

end LayeredConfig.Toml
