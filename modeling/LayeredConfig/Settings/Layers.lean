import LayeredConfig.Settings.Environment
import LayeredConfig.Settings.Basic
import LayeredConfig.Settings.KeyPath

/-!
# Layers of settings

Settings come from several layers, each laid over the one before: tables are merged
entry by entry, anything else replaces what was there. The keys of a layer are paths.
Variables of the environment are a layer too: the name after the name of the program
and two underscores, in lower case, with two underscores between the names of the path.
-/

set_option autoImplicit false

namespace LayeredConfig

/-- What the layers hold at a place. A list has missing items where only a later one
was given. -/
inductive Setting where
  | missing
  | scalar (v : Toml)
  | list (items : List Setting)
  | table (entries : List (String × Setting))
  deriving Inhabited

namespace Setting

mutual

def ofToml : Toml → Setting
  | .array items => .list (ofItems items)
  | .table entries => .table (ofEntries entries)
  | v => .scalar v

def ofItems : List Toml → List Setting
  | [] => []
  | v :: vs => ofToml v :: ofItems vs

def ofEntries : List (String × Toml) → List (String × Setting)
  | [] => []
  | (key, v) :: vs => (key, ofToml v) :: ofEntries vs

end

def entries : Setting → Table Setting
  | .table entries => entries
  | _ => []

def items : Setting → List Setting
  | .list items => items
  | _ => []

def entry (below : Setting) (key : String) : Setting :=
  (Table.get? below.entries key).getD .missing

/-- The position that an index means, in a list that is made long enough for it: by items
at the end, or in front if the index counts from the end. -/
def reach (index : Int) (items : List Setting) : List Setting × Nat :=
  if 0 ≤ index then
    (items ++ List.replicate (index.toNat + 1 - items.length) .missing, index.toNat)
  else
    (List.replicate (index.natAbs - items.length) .missing ++ items, items.length - index.natAbs)

mutual

def merge (below : Setting) : Setting → Setting
  | .table entries => .table (mergeEntries below.entries entries)
  | v => v

def mergeEntries (below : Table Setting) : List (String × Setting) → Table Setting
  | [] => below
  | (key, v) :: rest =>
    mergeEntries (Table.insert below key (merge ((Table.get? below key).getD .missing) v)) rest

end

/-- Lay a setting over what is at a path. Whatever is on the way becomes a table or a
list. -/
def place (v : Setting) : KeyPath → Setting → Setting
  | [], below => merge below v
  | .entry key :: path, below =>
    .table (Table.insert below.entries key (place v path (below.entry key)))
  | .item index :: path, below =>
    let (items, position) := reach index below.items
    .list (items.set position (place v path (items[position]?.getD .missing)))

def placeAll (below : Setting) (layer : List (String × Toml)) : Setting :=
  layer.foldl (fun below (key, v) => place (ofToml v) (KeyPath.ofKey key) below) below

def dotted : List Char → List Char
  | '_' :: '_' :: cs => '.' :: dotted cs
  | c :: cs => c :: dotted cs
  | [] => []

def variablePrefix : List Char := (programName ++ "__").toList

def ofVariable? (name value : String) : Option (String × Toml) :=
  let lower := name.toList.map Char.toLower
  if variablePrefix.isPrefixOf lower then
    some (String.ofList (dotted (lower.drop variablePrefix.length)), .string value)
  else none

def ofEnvironment (e : Environment) : List (String × Toml) :=
  e.entries.filterMap fun (name, value) => ofVariable? name value

end Setting

end LayeredConfig
