import LayeredConfig.Toml.Statement

/-!
# Reading TOML documents

A document denotes the table that its statements build, its entries in key order.
Each entry belongs to the table that the last header before it opened.
-/

set_option autoImplicit false

namespace LayeredConfig.Toml

structure Draft where
  root : Entries
  path : List String

def lastKey? (path : List String) : Option (List String × String) :=
  match path.reverse with
  | [] => none
  | key :: parents => some (parents.reverse, key)

def Draft.add (d : Dialect) (draft : Draft) : Statement → Option Draft
  | .header path => do
    let (parents, key) ← lastKey? path
    let root ← Outline.update (Outline.openTable key) parents draft.root
    some ⟨root, path⟩
  | .element path => do
    let (parents, key) ← lastKey? path
    let root ← Outline.update (Outline.openElement key) parents draft.root
    some ⟨root, path⟩
  | .entry path value => do
    let root ← Outline.update (Outline.define d value path) draft.path draft.root
    some ⟨root, draft.path⟩

/-- The outermost table is always a table, whatever its keys. -/
def build? (d : Dialect) (statements : List Statement) : Option (List (String × Toml)) := do
  let draft ← statements.foldlM (Draft.add d) ⟨[], []⟩
  some (Table.ofList (← Outline.entriesToToml? d draft.root))

def parse? (d : Dialect) (text : String) : Option (List (String × Toml)) := do
  build? d (← statements? d (← tokens d text.toList))

end LayeredConfig.Toml
