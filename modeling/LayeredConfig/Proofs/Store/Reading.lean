import LayeredConfig.Proofs.Store.Calls

/-!
# Reading leaves the store as it is

Resolving a scope, loading its levels and checking a write only read: the root and the tree
of the store are the same afterwards, whatever the answer.
-/

set_option autoImplicit false

namespace LayeredConfig.Access

open Run

theorem onSection_apply {α : Type} (sectionPath : String) (x : StoreM α) (s : Store) :
    onSection sectionPath x s = match x s with
      | (.ok a, s') => (.ok a, s')
      | (.error e, s') => (.error (.ofStore sectionPath e), s') := rfl

theorem keeps_onSection {α τ : Type} {part : Store → τ} (sectionPath : String) {x : StoreM α}
    (h : Keeps part x) : Keeps part (onSection sectionPath x) := by
  intro s
  rw [onSection_apply]
  have hs := h s
  rcases hx : x s with ⟨e | a, s'⟩
  all_goals rw [hx] at hs; exact hs

theorem keeps_load (overlay : Option StagedSet) (file : String) :
    Keeps Store.files (load overlay file) :=
  keeps_bind (keeps_onSection file (Store.keeps_load file)) fun _ => keeps_pure _

theorem keeps_sites (overlay : Option StagedSet) : Keeps Store.files (sites overlay) :=
  keeps_bind (keeps_load overlay Chain.hostFile) fun _ => keeps_mk _

theorem keeps_resolve (overlay : Option StagedSet) (scope : Scope) :
    Keeps Store.files (resolve overlay scope) :=
  keeps_bind (keeps_sites overlay) fun _ => keeps_mk _

theorem keeps_materialize (overlay : Option StagedSet) (scope : Scope) :
    Keeps Store.files (materialize overlay scope) :=
  keeps_bind (keeps_resolve overlay scope) fun chain =>
    keeps_mapM chain fun level => keeps_bind (keeps_load overlay level.file) fun _ => keeps_pure _

theorem keeps_checkWrite (registry : Registry) (overlay : Option StagedSet) (scope : Scope)
    (name : String) (m : Mutation) :
    Keeps Store.files (checkWrite registry overlay scope name m) :=
  keeps_bind (keeps_mk _) fun _ => keeps_bind (keeps_mk _) fun _ =>
    keeps_bind (keeps_materialize overlay scope) fun _ => keeps_mk _

end LayeredConfig.Access
