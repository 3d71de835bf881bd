import LayeredConfig.Chain
import LayeredConfig.Section.Mutation
import LayeredConfig.Section.Registry
import LayeredConfig.Sites.Codec
import LayeredConfig.Store

/-!
# Sections as seen from a scope

A read resolves the scope to its chain and loads every level of it; staged changes,
if there are any, lie over the files. The value comes from the nearest level that
stores the section, else from its definition. A write is admitted for the last level
of the chain, unless a denial stands against it.
-/

set_option autoImplicit false

namespace LayeredConfig

abbrev ConfigM := ExceptT ConfigError (StateM Store)

structure SectionView where
  name : String
  scope : Scope
  location : String
  owner : Option String
  value : Value
  isLocal : Bool
  mode : OverrideMode
  effective : OverrideMode
  dirty : Bool
  deriving DecidableEq, Repr

namespace Access

def onSection {α : Type} (sectionPath : String) (x : StoreM α) : ConfigM α := fun s =>
  match x s with
  | (.ok a, s) => (.ok a, s)
  | (.error e, s) => (.error (.ofStore sectionPath e), s)

def load (overlay : Option StagedSet) (file : String) : ConfigM LevelDocument := do
  let d ← onSection file (Store.load file)
  pure (match overlay with
    | some set => set.overlay file d
    | none => d)

def sitesOf (d : LevelDocument) : Except ConfigError Sites :=
  match d.section? Registry.sitesSection with
  | some v => Sites.ofValue? v
  | none => .ok .empty

def sites (overlay : Option StagedSet) : ConfigM Sites := do
  let d ← load overlay Chain.hostFile
  ExceptT.mk (pure (sitesOf d))

def resolve (overlay : Option StagedSet) (scope : Scope) : ConfigM (List LevelRef) := do
  let sites ← sites overlay
  ExceptT.mk (pure (Chain.resolve Chain.hostFile scope sites))

def materialize (overlay : Option StagedSet) (scope : Scope) :
    ConfigM (List (LevelRef × LevelDocument)) := do
  let chain ← resolve overlay scope
  chain.mapM fun level => do pure (level, ← load overlay level.file)

def levels (name : String) (chain : List (LevelRef × LevelDocument)) : List Level :=
  chain.mapIdx fun i (level, d) =>
    { location := level.location
      file := level.file
      mode := d.mode name
      isLocal := (d.section? name).isSome
      parent := if i = 0 then none else some (i - 1) }

def nearest? (name : String) (chain : List (LevelRef × LevelDocument)) :
    Option (LevelRef × Value) :=
  chain.reverse.findSome? fun (level, d) => (d.section? name).map fun v => (level, v)

def isStoredLast (name : String) (chain : List (LevelRef × LevelDocument)) : Bool :=
  (chain.getLast?.bind fun (_, d) => d.section? name).isSome

def view (name : String) (default : Value) (scope : Scope) (overlay : Option StagedSet)
    (chain : List (LevelRef × LevelDocument)) : SectionView :=
  let ls := levels name chain
  let target := ls.length - 1
  let found := nearest? name chain
  { name := name
    scope := scope
    location := ((chain.getLast?).map fun l => l.1.location).getD ""
    owner := found.map (·.1.location)
    value := (found.map (·.2)).getD default
    isLocal := isStoredLast name chain
    mode := ((ls[target]?).map (·.mode)).getD .inherit
    effective := Level.effectiveMode ls target
    dirty := overlay.any fun set => chain.any fun (level, _) => set.contains level.file name }

def getSection (registry : Registry) (overlay : Option StagedSet) (scope : Scope)
    (name : String) : ConfigM SectionView := do
  let definition ← ExceptT.mk (pure (registry.get name))
  let chain ← materialize overlay scope
  pure (view name definition.default scope overlay chain)

def checkMutation (definition : SectionDefinition) (m : Mutation) : Except ConfigError Unit :=
  if m.isEmpty then .error (.validation .emptyMutation)
  else match m.content with
    | some (.replace v) => definition.validate v
    | _ => .ok ()

def target (name : String) (allow : AllowDefinition) (m : Mutation)
    (chain : List (LevelRef × LevelDocument)) : Except ConfigError LevelRef :=
  match chain.getLast? with
  | none => .error (.scopeNotFound name)
  | some (level, _) =>
    let ls := levels name chain
    let last := ls.length - 1
    let sectionPath := s!"{level.location}/{name}"
    if allow = .hostOnly ∧ level.file ≠ Chain.hostFile then
      .error (.validation (.hostOnly name))
    else if m.content.isSome ∧ Level.effectiveMode ls last = .deny then
      .error (.locked sectionPath .denied)
    else if m.mode.isSome ∧ Level.modeAbove ls last = .deny then
      .error (.locked sectionPath .deniedAbove)
    else .ok level

def checkWrite (registry : Registry) (overlay : Option StagedSet) (scope : Scope)
    (name : String) (m : Mutation) : ConfigM LevelRef := do
  let definition ← ExceptT.mk (pure (registry.get name))
  ExceptT.mk (pure (checkMutation definition m))
  let chain ← materialize overlay scope
  ExceptT.mk (pure (target name definition.allow m chain))

end Access

def Staged.of (scope : Scope) (target : LevelRef) (name : String) (m : Mutation) : Staged :=
  ⟨scope, target.location, target.file, name, m⟩

end LayeredConfig
