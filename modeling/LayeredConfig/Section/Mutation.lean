import LayeredConfig.LevelDocument
import LayeredConfig.Scope

/-!
# Mutations and staged sets

A mutation changes what one level says about one section: its content, its mode, or
both. A staged set keeps at most one mutation for each level file and section, in
the order in which they were first staged; staging again merges into the entry that
is there and gives it the newer scope.
-/

set_option autoImplicit false

namespace LayeredConfig

inductive ContentChange where
  | replace (value : Value)
  | revert
  deriving DecidableEq, Repr

structure Mutation where
  content : Option ContentChange
  mode : Option OverrideMode
  deriving DecidableEq, Repr

namespace Mutation

def none : Mutation := ⟨.none, .none⟩

def replace (v : Value) : Mutation := ⟨some (.replace v), .none⟩

def revert : Mutation := ⟨some .revert, .none⟩

def setMode (mode : OverrideMode) : Mutation := ⟨.none, some mode⟩

def isEmpty (m : Mutation) : Bool := m.content.isNone && m.mode.isNone

def merge (earlier later : Mutation) : Mutation :=
  ⟨later.content.or earlier.content, later.mode.or earlier.mode⟩

def apply (m : Mutation) (name : String) (d : LevelDocument) : LevelDocument :=
  let d := match m.content with
    | some (.replace v) => d.setSection name v
    | some .revert => d.removeSection name
    | .none => d
  match m.mode with
  | some mode => d.setMode name mode
  | .none => d

theorem merge_assoc (a b c : Mutation) : (a.merge b).merge c = a.merge (b.merge c) := by
  simp [merge, Option.or_assoc]

theorem merge_none (a : Mutation) : a.merge none = a := by
  simp [merge, none]

theorem none_merge (a : Mutation) : none.merge a = a := by
  simp [merge, none]

end Mutation

structure Staged where
  scope : Scope
  location : String
  file : String
  name : String
  mutation : Mutation
  deriving DecidableEq, Repr

namespace Staged

def sectionPath (s : Staged) : String := s!"{s.location}/{s.name}"

def hasKey (s : Staged) (file name : String) : Bool := s.file == file && s.name == name

def absorb (s later : Staged) : Staged :=
  { s with scope := later.scope, mutation := s.mutation.merge later.mutation }

end Staged

structure StagedSet where
  entries : List Staged
  deriving DecidableEq, Repr

namespace StagedSet

def empty : StagedSet := ⟨[]⟩

def isEmpty (set : StagedSet) : Bool := set.entries.isEmpty

def size (set : StagedSet) : Nat := set.entries.length

def stageIn (later : Staged) : List Staged → List Staged
  | [] => [later]
  | s :: rest =>
    if s.hasKey later.file later.name then s.absorb later :: rest
    else s :: stageIn later rest

def stage (set : StagedSet) (s : Staged) : StagedSet := ⟨stageIn s set.entries⟩

def get? (set : StagedSet) (file name : String) : Option Staged :=
  set.entries.find? (·.hasKey file name)

def contains (set : StagedSet) (file name : String) : Bool := (set.get? file name).isSome

def overlay (set : StagedSet) (file : String) (d : LevelDocument) : LevelDocument :=
  (set.entries.filter (·.file == file)).foldl (fun d s => s.mutation.apply s.name d) d

theorem overlay_empty (file : String) (d : LevelDocument) : empty.overlay file d = d := rfl

end StagedSet

end LayeredConfig
