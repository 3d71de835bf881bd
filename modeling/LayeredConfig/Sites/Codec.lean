import LayeredConfig.Sites.Basic
import LayeredConfig.Schema

/-!
# Sites as data

The schemas of sites and of changes to them, reading them from values that have the
shape, and writing them back.
-/

set_option autoImplicit false

namespace LayeredConfig

open Schema

namespace Value

def int? : Value → Option Int
  | .int n => some n
  | _ => none

def str? : Value → Option String
  | .str s => some s
  | _ => none

def bool? : Value → Option Bool
  | .bool b => some b
  | _ => none

def arr? : Value → Option (List Value)
  | .arr items => some items
  | _ => none

end Value

namespace Application

def fields : Fields :=
  [("path", .required, .string), ("physical_path", .required, .string)]

def schema : Schema := .record "ApplicationEntry" fields

def ofValue (v : Value) : Application :=
  ⟨((fieldOf fields v "path").str?).getD "", ((fieldOf fields v "physical_path").str?).getD ""⟩

def toValue (a : Application) : Value :=
  .obj [("path", .str a.path), ("physical_path", .str a.physicalPath)]

end Application

def applicationsOf (v : Value) : Option (List Application) :=
  v.arr?.map (·.map Application.ofValue)

namespace Site

def fields : Fields :=
  [("id", .required, .int64), ("name", .required, .string), ("physical_path", .required, .string),
    ("server_auto_start", .defaulted, .boolean),
    ("applications", .defaulted, .list Application.schema)]

def schema : Schema := .record "SiteEntry" fields

def ofValue (v : Value) : Site :=
  let field := fieldOf fields v
  { id := (field "id").int?.getD 0
    name := (field "name").str?.getD ""
    physicalPath := (field "physical_path").str?.getD ""
    autoStart := (field "server_auto_start").bool?.getD false
    applications := (applicationsOf (field "applications")).getD [] }

def ofValue? (v : Value) : Except String Site := do
  schema.check v
  pure (ofValue v)

def toValue (s : Site) : Value :=
  .obj [("applications", .arr (s.applications.map Application.toValue)),
    ("id", .int s.id), ("name", .str s.name), ("physical_path", .str s.physicalPath),
    ("server_auto_start", .bool s.autoStart)]

end Site

namespace NewSite

def fields : Fields :=
  [("id", .free, .int64), ("name", .required, .string), ("physical_path", .required, .string),
    ("server_auto_start", .defaulted, .boolean),
    ("applications", .defaulted, .list Application.schema)]

def schema : Schema := .record "NewSite" fields

def ofValue (v : Value) : NewSite :=
  let field := fieldOf fields v
  { id := (field "id").int?
    name := (field "name").str?.getD ""
    physicalPath := (field "physical_path").str?.getD ""
    autoStart := (field "server_auto_start").bool?.getD false
    applications := (applicationsOf (field "applications")).getD [] }

def ofValue? (v : Value) : Except String NewSite := do
  schema.check v
  pure (ofValue v)

end NewSite

namespace SiteUpdate

def fields : Fields :=
  [("name", .free, .string), ("physical_path", .free, .string),
    ("server_auto_start", .free, .boolean),
    ("applications", .free, .list Application.schema)]

def schema : Schema := .record "SiteUpdate" fields

def ofValue (v : Value) : SiteUpdate :=
  let field := fieldOf fields v
  { name := (field "name").str?
    physicalPath := (field "physical_path").str?
    autoStart := (field "server_auto_start").bool?
    applications := applicationsOf (field "applications") }

def ofValue? (v : Value) : Except String SiteUpdate := do
  schema.check v
  pure (ofValue v)

end SiteUpdate

namespace Sites

def fields : Fields := [("entries", .defaulted, .list Site.schema)]

def schema : Schema := .record "SitesSection" fields

def ofValue (v : Value) : Sites :=
  ⟨((fieldOf fields v "entries").arr?.getD []).map Site.ofValue⟩

def ofValue? (v : Value) : Except ConfigError Sites :=
  match schema.check v with
  | .ok () => .ok (ofValue v)
  | .error why => .error (.validation (.sites why))

def toValue (s : Sites) : Value := .obj [("entries", .arr (s.entries.map Site.toValue))]

end Sites

end LayeredConfig
