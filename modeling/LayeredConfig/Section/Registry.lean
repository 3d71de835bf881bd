import LayeredConfig.Error
import LayeredConfig.Section.Representable

/-!
# Registered sections

A section is known by its definition: where it may be stored and what holds where no
level stores it. The registry lists its definitions in the order of their names.
-/

set_option autoImplicit false

namespace LayeredConfig

inductive AllowDefinition where
  | hostOnly
  | everywhere
  deriving DecidableEq, Repr

def AllowDefinition.name : AllowDefinition → String
  | .hostOnly => "host_only"
  | .everywhere => "everywhere"

structure SectionDefinition where
  name : String
  description : String
  default : Value
  allow : AllowDefinition
  deriving DecidableEq, Repr

namespace SectionDefinition

def validate (d : SectionDefinition) (v : Value) : Except ConfigError Unit :=
  if !v.isObject then .error (.validation (.notObject d.name))
  else if !v.isRepresentable then .error (.validation (.unrepresentable d.name))
  else .ok ()

end SectionDefinition

structure Registry where
  definitions : Table SectionDefinition
  deriving DecidableEq, Repr

namespace Registry

def empty : Registry := ⟨[]⟩

def get (r : Registry) (name : String) : Except ConfigError SectionDefinition :=
  match Table.get? r.definitions name with
  | some d => .ok d
  | none => .error (.notFound (.sectionNamed name))

def register (r : Registry) (d : SectionDefinition) : Except ConfigError Registry := do
  if Table.contains r.definitions d.name then .error (.alreadyExists (.sectionNamed d.name))
  d.validate d.default
  pure ⟨Table.insert r.definitions d.name d⟩

def list (r : Registry) : List SectionDefinition := r.definitions.map (·.2)

def sitesSection : String := "sites"

def strings (items : List String) : Value := .arr (items.map .str)

def builtinDefinitions : List SectionDefinition :=
  [{ name := "anonymous_authentication"
     description := "Anonymous access"
     default := .obj [("enabled", .bool true), ("user", .str "")]
     allow := .everywhere },
   { name := "default_document"
     description := "Files served when a request names a directory"
     default := .obj [("enabled", .bool true),
       ("files", strings ["index.html", "index.htm", "default.htm"])]
     allow := .everywhere },
   { name := "directory_browse"
     description := "Directory listing"
     default := .obj [("enabled", .bool false),
       ("show_flags", strings ["date", "time", "size", "extension"])]
     allow := .everywhere },
   { name := "http_response_headers"
     description := "Custom headers added to every response"
     default := .obj [("allow_keep_alive", .bool true), ("custom_headers", .arr [])]
     allow := .everywhere },
   { name := "request_filtering"
     description := "Request limits and blocked file extensions"
     default := .obj [("allow_double_escaping", .bool false),
       ("allow_high_bit_characters", .bool true), ("file_extensions", .arr []),
       ("max_allowed_content_length", .int 30000000), ("max_query_string_length", .int 2048),
       ("max_url_length", .int 4096)]
     allow := .everywhere },
   { name := sitesSection
     description := "Sites and their applications"
     default := .obj [("entries", .arr [])]
     allow := .hostOnly },
   { name := "static_content"
     description := "Static file handling and client caching"
     default := .obj [("client_cache", .obj [("max_age_secs", .int 86400),
       ("mode", .str "no_control")]), ("mime_maps", .arr [])]
     allow := .everywhere }]

def builtin : Registry :=
  ⟨Table.ofList (builtinDefinitions.map fun d => (d.name, d))⟩

end Registry

end LayeredConfig
