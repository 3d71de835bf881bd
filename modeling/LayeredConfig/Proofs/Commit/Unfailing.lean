import LayeredConfig.Proofs.Store.Looking
import LayeredConfig.Proofs.Commit.Rollback

/-!
# Calls that are not scheduled to fail

Counting calls takes faults off the schedule and adds none, so calls of a kind that cannot fail
by schedule still cannot after a commit, whatever became of it.
-/

set_option autoImplicit false

namespace LayeredConfig

open Run

namespace Store

variable {kind : StoreCall}

theorem preserves_tick (call : StoreCall) (path : String) :
    Preserves (Unfailing kind) (tick call path) := by
  intro s h
  have hstrike : ∀ f ∈ (strike call s.faults).1, f.call ≠ kind := by
    intro f hf
    obtain ⟨g, hg, hc, -⟩ := (strike_kinds call s.faults).1 f hf
    rw [← hc]
    exact h g hg
  simp only [tick]
  rw [get_bind]
  generalize strike call s.faults = struck at hstrike
  obtain ⟨faults, _ | kind⟩ := struck
  · exact hstrike
  · exact hstrike

theorem preserves_of_faults {α : Type} {x : StoreM α} (h : Keeps faults x) :
    Preserves (Unfailing kind) x := by
  intro s hs
  simp only [Unfailing]
  rw [h s]
  exact hs

theorem preserves_place (path : String) : Preserves (Unfailing kind) (place path) := by
  apply preserves_of_faults
  intro s
  simp only [place]
  rw [get_bind]
  rcases Place.ofPath? s.root path with _ | p
  · rfl
  · rfl

theorem preserves_change (onFault : IoFault → StoreError) (p : Place)
    (f : FileTree → Except IoFault FileTree) : Preserves (Unfailing kind) (change onFault p f) := by
  apply preserves_of_faults
  intro s
  rcases change_cases onFault p f s with ⟨e, he⟩ | ⟨t, -, he⟩
  · rw [he]
  · rw [he]

theorem preserves_read (file : String) : Preserves (Unfailing kind) (read file) := by
  simp only [read]
  refine preserves_bind (preserves_tick _ _) fun _ => preserves_bind (preserves_place _) fun p => ?_
  apply preserves_of_faults
  intro s
  rcases p.fault? with _ | e
  · dsimp only
    rw [get_bind]
    rcases s.tree.readText p.names p.ending.asDirectory with e | text
    · cases e <;> rfl
    · rfl
  · rfl

theorem preserves_load (file : String) : Preserves (Unfailing kind) (load file) := by
  simp only [load]
  refine preserves_bind (preserves_read file) fun text => ?_
  rcases text with _ | text
  · exact preserves_pure _
  · dsimp only
    rcases LevelDocument.parse text with fault | d
    · exact preserves_throw _
    · exact preserves_pure _

theorem preserves_acquire (file : String) : Preserves (Unfailing kind) (acquire file) :=
  preserves_bind (preserves_tick _ _) fun _ => preserves_bind (preserves_place _) fun _ =>
    preserves_bind (preserves_change _ _ _) fun _ => preserves_pure _

theorem preserves_release (lease : Lease) : Preserves (Unfailing kind) (release lease) := by
  apply preserves_of_faults
  intro s
  simp only [release]
  rw [get_bind]
  rcases s.tree.removeFile lease.lock false with e | t
  · rfl
  · rfl

theorem preserves_write (lease : Lease) (text : String) :
    Preserves (Unfailing kind) (write lease text) := by
  simp only [write]
  refine preserves_bind (preserves_tick _ _) fun _ => preserves_bind (preserves_place _) fun p => ?_
  refine preserves_bind (preserves_change _ _ _) fun _ => ?_
  apply preserves_of_faults
  intro s
  rw [get_bind]
  rcases p.fault? with _ | e
  · rcases s.tree.rename (p.sibling ".tmp").names p.names p.ending with e | t
    · rfl
    · rfl
  · rfl

theorem preserves_remove (lease : Lease) : Preserves (Unfailing kind) (remove lease) := by
  simp only [remove]
  refine preserves_bind (preserves_tick _ _) fun _ => preserves_bind (preserves_place _) fun p => ?_
  apply preserves_of_faults
  intro s
  rw [get_bind]
  rcases p.fault? with _ | e
  · dsimp only
    rcases s.tree.removeFile p.names p.ending.asDirectory with e | t
    · cases e <;> rfl
    · rfl
  · rfl

end Store

namespace Access

variable {good : Store → Prop}

theorem preserves_onSection {α : Type} (sectionPath : String) {x : StoreM α}
    (h : Preserves good x) : Preserves good (onSection sectionPath x) := by
  intro s hs
  have hx := h s hs
  rw [onSection_apply]
  rcases hr : x s with ⟨e | a, s'⟩
  all_goals rw [hr] at hx; exact hx

variable (hload : ∀ file, Preserves good (Store.load file))

include hload

theorem preserves_load (overlay : Option StagedSet) (file : String) :
    Preserves good (load overlay file) :=
  preserves_bind (preserves_onSection file (hload file)) fun _ => preserves_pure _

theorem preserves_sites (overlay : Option StagedSet) : Preserves good (sites overlay) :=
  preserves_bind (preserves_load hload overlay _) fun _ _ h => h

theorem preserves_materialize (overlay : Option StagedSet) (scope : Scope) :
    Preserves good (materialize overlay scope) := by
  refine preserves_bind (preserves_bind (preserves_sites hload overlay) fun _ _ h => h)
    fun chain => ?_
  exact preserves_mapM chain fun level =>
    preserves_bind (preserves_load hload overlay level.file) fun _ => preserves_pure _

theorem preserves_getSection (registry : Registry) (overlay : Option StagedSet) (scope : Scope)
    (name : String) : Preserves good (getSection registry overlay scope name) :=
  preserves_bind (fun _ h => h) fun _ =>
    preserves_bind (preserves_materialize hload overlay scope) fun _ => preserves_pure _

theorem preserves_checkWrite (registry : Registry) (overlay : Option StagedSet) (scope : Scope)
    (name : String) (m : Mutation) : Preserves good (checkWrite registry overlay scope name m) :=
  preserves_bind (fun _ h => h) fun _ => preserves_bind (fun _ h => h) fun _ =>
    preserves_bind (preserves_materialize hload overlay scope) fun _ _ h => h

end Access

namespace Journal

variable {kind : StoreCall}

theorem preserves_takeLease (file : String) :
    Preserves (Store.Unfailing kind) (takeLease file) := by
  simp only [takeLease]
  refine preserves_bind (Store.preserves_acquire file) fun lease => ?_
  refine preserves_tryCatch ?_ fun e => ?_
  · exact preserves_bind (Store.preserves_read file) fun _ => preserves_pure _
  · exact preserves_bind (Store.preserves_release lease) fun _ => preserves_throw _

def Spared (kind : StoreCall) (p : Progress) : Prop := p.store.Unfailing kind

theorem preserves_onStore {α : Type} {x : ConfigM α} (h : Preserves (Store.Unfailing kind) x) :
    Preserves (Spared kind) (onStore x) := fun p hp => h p.store hp

theorem preserves_lease (sectionPath file : String) :
    Preserves (Spared kind) (lease sectionPath file) := by
  simp only [lease]
  refine preserves_bind preserves_get fun p => ?_
  split
  · exact preserves_pure _
  · refine preserves_bind (preserves_onStore ?_) fun _ => preserves_bind (fun _ h => h) fun _ =>
      preserves_pure _
    exact Access.preserves_onSection _ (preserves_takeLease file)

theorem preserves_applyEntry (registry : Registry) (s : Staged) :
    Preserves (Spared kind) (applyEntry registry s) := by
  simp only [applyEntry]
  refine preserves_bind (preserves_onStore
    (Access.preserves_checkWrite Store.preserves_load _ _ _ _ _)) fun target => ?_
  split
  · exact preserves_throw _
  · refine preserves_bind (preserves_lease _ _) fun lease =>
      preserves_bind (preserves_onStore (Access.preserves_load Store.preserves_load _ _)) fun d => ?_
    split
    · exact preserves_throw _
    · exact preserves_onStore (Access.preserves_onSection _ (Store.preserves_write lease _))

theorem preserves_applyEntries (registry : Registry) (entries : List Staged) :
    Preserves (Spared kind) (applyEntries registry entries) := by
  induction entries with
  | nil => exact preserves_pure _
  | cons s entries ih => exact preserves_bind (preserves_applyEntry registry s) fun _ => ih

theorem unfailing_restore (entry : JournalEntry) (s : Store) (h : s.Unfailing kind) :
    (restore entry s).Unfailing kind := by
  simp only [restore, after]
  split
  · exact Store.preserves_write entry.lease _ s h
  · exact Store.preserves_remove entry.lease s h

theorem unfailing_rollback (journal : List JournalEntry) (s : Store) (h : s.Unfailing kind) :
    (rollback journal s).Unfailing kind := by
  induction journal generalizing s with
  | nil => exact h
  | cons entry rest ih =>
    exact ih _ (Store.preserves_release entry.lease _ (unfailing_restore entry s h))

theorem unfailing_releaseAll (journal : List JournalEntry) (s : Store) (h : s.Unfailing kind) :
    (releaseAll journal s).Unfailing kind := by
  induction journal generalizing s with
  | nil => exact h
  | cons entry rest ih => exact ih _ (Store.preserves_release entry.lease s h)

theorem preserves_commit (registry : Registry) (entries : List Staged) :
    Preserves (Store.Unfailing kind) (commit registry entries) := by
  intro s h
  have hentries : Spared kind (applyEntries registry entries ⟨s, []⟩).2 :=
    preserves_applyEntries registry entries ⟨s, []⟩ h
  simp only [commit]
  rcases hp : applyEntries registry entries ⟨s, []⟩ with ⟨e | u, p⟩
  · rw [hp] at hentries
    exact unfailing_rollback p.journal p.store hentries
  · rw [hp] at hentries
    exact unfailing_releaseAll p.journal p.store hentries

theorem unfailing_of_commit {registry : Registry} {entries : List Staged} {s s' : Store}
    {answer : Except ConfigError Unit} (h : commit registry entries s = (answer, s'))
    (hs : s.Unfailing kind) : s'.Unfailing kind := by
  have hkept : (commit registry entries s).2.Unfailing kind :=
    preserves_commit registry entries s hs
  rwa [h] at hkept

end Journal

end LayeredConfig
