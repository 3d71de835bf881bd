import LayeredConfig.Error
import LayeredConfig.Section.Representable
import LayeredConfig.Toml.Reader
import LayeredConfig.Toml.Printer

/-!
# Level documents

What one level file says: the override modes that it declares and the sections that
it stores. Inheriting is not declared but is the absence of a declaration. A
document is read from TOML with at most two tables of its own, `override_modes` and
`sections`; whatever else is in the text is dropped.
-/

set_option autoImplicit false

namespace LayeredConfig

structure LevelDocument where
  modes : Table OverrideMode
  sections : Table Value
  deriving DecidableEq, Repr

namespace LevelDocument

def empty : LevelDocument := ⟨[], []⟩

def modesKey : String := "override_modes"

def sectionsKey : String := "sections"

def tableOf? : Toml → Option (List (String × Toml))
  | .table entries => some entries
  | _ => none

def declaredMode? : Toml → Option OverrideMode
  | .string s => OverrideMode.ofName? s
  | _ => none

def readModes : List (String × Toml) → Except DocumentFault (Table OverrideMode)
  | [] => .ok []
  | (name, t) :: rest =>
    match declaredMode? t with
    | none => .error (.unknownMode name)
    | some mode => do
      let modes ← readModes rest
      pure (if mode = .inherit then modes else (name, mode) :: modes)

def readSections : List (String × Toml) → Except DocumentFault (Table Value)
  | [] => .ok []
  | (name, t) :: rest =>
    if !t.isTable then .error (.sectionNotTable name)
    else match t.toValue? with
      | none => .error .specialFloat
      | some v => do
        let sections ← readSections rest
        pure ((name, v) :: sections)

def entriesOf (root : Table Toml) (key : String) (fault : DocumentFault) :
    Except DocumentFault (List (String × Toml)) :=
  match Table.get? root key with
  | none => .ok []
  | some t =>
    match tableOf? t with
    | some entries => .ok entries
    | none => .error fault

def ofToml (root : Table Toml) : Except DocumentFault LevelDocument := do
  let modes ← readModes (← entriesOf root modesKey .modesNotTable)
  let sections ← readSections (← entriesOf root sectionsKey .sectionsNotTable)
  pure ⟨modes, sections⟩

/-- Level files keep to the core of the format. The one form of a date-time that is a
table is laxer with hours and offsets than the literal one. -/
def dialect : Toml.Dialect where
  keyParts := some 79
  openContainers := 79
  looseTables := false
  shortEscapes := false
  keepsCarriage := false
  negativeOverflow := true
  extendsParents := false
  times := ⟨false, false, 23, 23, 59, 1439⟩
  dateTables := some ⟨false, false, 24, 99, 99, 1440⟩

def parse (text : String) : Except DocumentFault LevelDocument :=
  match Toml.parse? dialect text with
  | none => .error .notToml
  | some root => ofToml root

def sectionTables : Table Value → Except DocumentFault (List (String × Toml))
  | [] => .ok []
  | (name, v) :: rest =>
    match Toml.ofValue? v with
    | none => .error .nullItem
    | some t => do
      let tables ← sectionTables rest
      pure ((name, t) :: tables)

def modeTable (modes : Table OverrideMode) : List (String × Toml) :=
  modes.map fun (name, mode) => (name, .string mode.name)

/-- The document as TOML; tables without entries are left out. -/
def toToml (d : LevelDocument) : Except DocumentFault (List (String × Toml)) := do
  let sections ← sectionTables d.sections
  pure <|
    (if d.modes.isEmpty then [] else [(modesKey, .table (modeTable d.modes))]) ++
    (if d.sections.isEmpty then [] else [(sectionsKey, .table sections)])

def render (d : LevelDocument) : Except DocumentFault String := do
  pure (Toml.print (← d.toToml))

def section? (d : LevelDocument) (name : String) : Option Value := Table.get? d.sections name

def setSection (d : LevelDocument) (name : String) (v : Value) : LevelDocument :=
  { d with sections := Table.insert d.sections name v }

def removeSection (d : LevelDocument) (name : String) : LevelDocument :=
  { d with sections := Table.erase d.sections name }

def mode (d : LevelDocument) (name : String) : OverrideMode :=
  (Table.get? d.modes name).getD .inherit

def setMode (d : LevelDocument) (name : String) (mode : OverrideMode) : LevelDocument :=
  { d with
    modes := if mode = .inherit then Table.erase d.modes name else Table.insert d.modes name mode }

end LevelDocument

end LayeredConfig
