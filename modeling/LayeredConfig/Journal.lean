import LayeredConfig.Section.Access

/-!
# Writing a staged set, all or nothing

A commit leases each file that it writes and notes what the file held when it was
first leased. Every entry is checked once more right before it is written. The first
failure puts the notes back, newest first; in the end all leases are given up.
-/

set_option autoImplicit false

namespace LayeredConfig

structure JournalEntry where
  lease : Lease
  before : Option String
  deriving DecidableEq, Repr

structure Progress where
  store : Store
  journal : List JournalEntry
  deriving DecidableEq, Repr

abbrev CommitM := ExceptT ConfigError (StateM Progress)

namespace Journal

def onStore {α : Type} (x : ConfigM α) : CommitM α := fun p =>
  let (result, store) := x p.store
  (result, { p with store := store })

/-- Take a lease and note what the file holds; if that cannot be read, the lease is
given up at once. -/
def takeLease (file : String) : StoreM JournalEntry := do
  let lease ← Store.acquire file
  try
    let before ← Store.read file
    pure ⟨lease, before⟩
  catch e =>
    Store.release lease
    throw e

def lease (sectionPath file : String) : CommitM Lease := do
  match (← get).journal.find? (·.lease.file == file) with
  | some entry => pure entry.lease
  | none =>
    let entry ← onStore (Access.onSection sectionPath (takeLease file))
    modify fun p => { p with journal := entry :: p.journal }
    pure entry.lease

def applyEntry (registry : Registry) (s : Staged) : CommitM Unit := do
  let target ← onStore (Access.checkWrite registry none s.scope s.name s.mutation)
  if target.file ≠ s.file then
    throw (.scopeNotFound s!"{s.scope.text} no longer resolves to {s.file}")
  let lease ← lease s.sectionPath target.file
  let d ← onStore (Access.load none target.file)
  match (s.mutation.apply s.name d).render with
  | .error fault => throw (.ofStore s.sectionPath (.parse target.file fault))
  | .ok text => onStore (Access.onSection s.sectionPath (Store.write lease text))

def applyEntries (registry : Registry) : List Staged → CommitM Unit
  | [] => pure ()
  | s :: rest => do
    applyEntry registry s
    applyEntries registry rest

def after {α : Type} (x : StoreM α) (s : Store) : Store := (x s).2

def restore (entry : JournalEntry) (s : Store) : Store :=
  match entry.before with
  | some text => after (Store.write entry.lease text) s
  | none => after (Store.remove entry.lease) s

def rollback : List JournalEntry → Store → Store
  | [], s => s
  | entry :: rest, s => rollback rest (after (Store.release entry.lease) (restore entry s))

def releaseAll : List JournalEntry → Store → Store
  | [], s => s
  | entry :: rest, s => releaseAll rest (after (Store.release entry.lease) s)

def commit (registry : Registry) (entries : List Staged) : ConfigM Unit := fun s =>
  match applyEntries registry entries ⟨s, []⟩ with
  | (.ok (), p) => (.ok (), releaseAll p.journal p.store)
  | (.error e, p) => (.error e, rollback p.journal p.store)

end Journal

namespace Access

def setSection (registry : Registry) (scope : Scope) (name : String) (m : Mutation) :
    ConfigM Unit := do
  let target ← checkWrite registry none scope name m
  Journal.commit registry [Staged.of scope target name m]

def revertSection (registry : Registry) (scope : Scope) (name : String) : ConfigM Bool := do
  let current ← getSection registry none scope name
  if current.isLocal then
    setSection registry scope name .revert
    pure true
  else pure false

end Access

end LayeredConfig
