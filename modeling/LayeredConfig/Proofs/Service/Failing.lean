import LayeredConfig.Proofs.Commit.Restoring
import LayeredConfig.Proofs.Service.Isolation
import LayeredConfig.Proofs.Service.Transitions

/-!
# Calls that fail

A unit looks and checks before it stages anything, and staging is the last thing that it does. So a
call that fails has staged nothing and claimed nothing, and the files are as they were, but for the
directories of a site that was to be created. The commit of a unit writes before it can fail, but it
gives back what it has written.
-/

set_option autoImplicit false

namespace LayeredConfig

open Run

namespace Service

structure Unmoved (s s' : Service) : Prop where
  transactions : ∀ id, (s'.find? id).map (fun t => (t.state, t.staged)) =
    (s.find? id).map fun t => (t.state, t.staged)
  claims : s'.claims = s.claims

structure Unedited (making : Bool) (s s' : Service) : Prop extends Unmoved s s' where
  registry : s'.registry = s.registry
  store : s.store.Grows s'.store
  files : making = false → s'.store.files = s.store.files

variable {making : Bool} {s s' s₁ : Service}

theorem Unmoved.trans (h : Unmoved s s₁) (h' : Unmoved s₁ s') : Unmoved s s' where
  transactions id := (h'.transactions id).trans (h.transactions id)
  claims := h'.claims.trans h.claims

theorem Unmoved.refl (s : Service) : Unmoved s s := ⟨fun _ => rfl, rfl⟩

theorem Unedited.refl (making : Bool) (s : Service) : Unedited making s s where
  toUnmoved := .refl s
  registry := rfl
  store := .refl _
  files _ := rfl

theorem Unedited.get? (h : Unedited making s s') (path : Names) :
    s'.store.tree.get? path = s.store.tree.get? path ∨
      making = true ∧ s.store.tree.get? path = none ∧
        s'.store.tree.get? path = some .directory := by
  rcases hmaking : making with _ | _
  · exact .inl (congrArg (·.get? path) (Store.files_eq _ _ (h.files hmaking)).2)
  · exact (h.store.tree path).imp_right fun hmade => ⟨rfl, hmade⟩

theorem unedited_snapshot (id : String) (making : Bool) (s : Service) :
    Preserves (Unedited making s) (snapshot id) := by
  refine preserves_pending id _ fun t s' h hf _ => ?_
  refine ⟨⟨fun other => ?_, h.claims⟩, h.registry, h.store, h.files⟩
  rw [← h.transactions other]
  change ((s'.put { t with lastActivity := s'.now }).find? other).map _ = _
  by_cases hother : id = other
  · subst hother
    have hput : (s'.put { t with lastActivity := s'.now }).find? id =
        some { t with lastActivity := s'.now } := find?_put hf rfl
    rw [hput, hf]
    rfl
  · rw [find?_put_of_ne]
    exact fun heq => hother ((id_of_find? hf).symm.trans heq)

/-- A change that cannot be staged leaves everything. -/
theorem failsSafely_stage (id : String) (change : Staged) (good : Service → Prop) :
    FailsSafely good (stage id change) := by
  intro s e s' hs h
  rcases pendingTransaction_cases id s with ⟨e', hfails⟩ | ⟨t, -, -, hfound⟩
  · simp only [stage] at h
    rw [bind_apply, hfails] at h
    cases h
    exact hs
  · simp only [stage] at h
    rw [bind_apply, hfound] at h
    dsimp only at h
    rw [get_bind, bind_apply] at h
    simp only [ofExcept] at h
    rcases hclaim : s.claims.claim change id with e' | claims
    all_goals
      rw [hclaim] at h
      cases h
    exact hs

end Service

namespace WorkUnit

open Service

variable {u : WorkUnit}

theorem observed_unedited (u : WorkUnit) (making : Bool) (s : Service) :
    u.Observed (Unedited making s) where
  snapshot id _ := unedited_snapshot id making s
  looked _ _ hlooked h :=
    ⟨⟨h.transactions, h.claims⟩, h.registry, h.store.trans hlooked.grows,
      fun hmaking => hlooked.files.trans (h.files hmaking)⟩

theorem openToGrowth_unedited {making : Bool} (hmaking : making = true) (s : Service) :
    OpenToGrowth (Unedited making s) :=
  fun _ _ hgrows h => ⟨⟨h.transactions, h.claims⟩, h.registry, h.store.trans hgrows,
    fun hnone => absurd hmaking (hnone ▸ Bool.false_ne_true)⟩

/-- A unit without a transaction keeps its changes to itself. -/
theorem withstood_unedited (hu : u.transaction = none) (making : Bool) (s : Service) :
    u.Withstood (Unedited making s) where
  toObserved := u.observed_unedited making s
  stage id change hid := by
    rw [hu] at hid
    cases hid

variable {good : Service → Prop}

theorem failsSafely_push (change : Staged) : FailsSafely good (u.push change) := by
  simp only [push]
  split
  · exact failsSafely_pure _
  · exact failsSafely_map (failsSafely_stage _ change good) _

theorem Observed.failsSafely_stage (h : u.Observed good) (scope : Scope) (name : String)
    (m : Mutation) : FailsSafely good (u.stage scope name m) :=
  failsSafely_bind (h.prepare scope name m) fun change => failsSafely_push change

theorem Observed.failsSafely_editSites (h : u.Observed good)
    (edit : Sites → Except ConfigError (Site × Sites)) :
    FailsSafely good (do
      let sites ← u.sites
      let (site, sites) ← Service.ofExcept (edit sites)
      pure (site, ← u.putSites sites) : ServiceM (Site × WorkUnit)) :=
  failsSafely_bind h.sites fun _ => failsSafely_bind (preserves_ofExcept _) fun _ =>
    failsSafely_map (h.failsSafely_stage _ _ _) _

theorem Observed.failsSafely_createSite (h : u.Observed good) (hgood : OpenToGrowth good)
    (new : NewSite) : FailsSafely good (u.createSite new) := by
  simp only [WorkUnit.createSite]
  refine failsSafely_bind h.sites fun sites => ?_
  refine failsSafely_bind (preserves_ofExcept _) fun sites => ?_
  refine failsSafely_bind (h.prepare _ _ _) fun change => ?_
  refine failsSafely_bind (preserves_createDirs hgood _) fun _ => ?_
  exact failsSafely_map (failsSafely_push change) _

/-- A call of a unit that fails, its commit apart, breaks nothing that looking does not break. -/
theorem Observed.failsSafely_run (h : u.Observed good) {call : UnitCall}
    (hcall : call.isCommit = false) (hgood : call.makesDirs = true → OpenToGrowth good) :
    FailsSafely good (call.run u) := by
  cases call with
  | commit => cases hcall
  | getSection scope name =>
    exact failsSafely_map (failsSafely_of_preserves (h.getSection scope name)) _
  | sites => exact failsSafely_map (failsSafely_of_preserves h.sites) _
  | getSite id => exact failsSafely_map (failsSafely_of_preserves (h.getSite id)) _
  | stage scope name m => exact failsSafely_map (h.failsSafely_stage scope name m) _
  | revert scope name =>
    refine failsSafely_map (failsSafely_bind (h.getSection scope name) fun current => ?_) _
    split
    · exact failsSafely_map (h.failsSafely_stage scope name .revert) _
    · exact failsSafely_pure _
  | createSite new => exact failsSafely_map (h.failsSafely_createSite (hgood rfl) new) _
  | updateSite id update => exact failsSafely_map (h.failsSafely_editSites (·.update id update)) _
  | deleteSite id => exact failsSafely_map (h.failsSafely_editSites (·.remove id)) _

theorem commit_eq_error {e : ConfigError} {s s' : Service} (h : u.commit s = (.error e, s')) :
    u.transaction = none ∧ u.pending.isEmpty = false ∧
      applySet u.pending none s = (.error e, s') := by
  simp only [commit] at h
  split at h
  · cases h
  · rename_i hwrites
    rw [Bool.or_eq_true, not_or, Bool.not_eq_true, Option.isSome_eq_false_iff,
      Option.isNone_iff_eq_none] at hwrites
    rcases bind_eq_error h with hfails | ⟨⟨⟩, mid, -, hrest⟩
    · exact ⟨hwrites.1, Bool.not_eq_true _ ▸ hwrites.2, hfails⟩
    · cases hrest

theorem gives_push (change : Staged) :
    Gives (fun u' => u'.transaction = u.transaction) (u.push change) := by
  simp only [push]
  split
  · exact gives_pure rfl
  · exact gives_bind (gives_any _) fun _ _ => gives_pure rfl

theorem gives_stage (scope : Scope) (name : String) (m : Mutation) :
    Gives (fun u' => u'.transaction = u.transaction) (u.stage scope name m) :=
  gives_bind (gives_any _) fun change _ => gives_push change

theorem gives_editSites (edit : Sites → Except ConfigError (Site × Sites)) :
    Gives (fun edited => edited.2.transaction = u.transaction) (do
      let sites ← u.sites
      let (site, sites) ← Service.ofExcept (edit sites)
      pure (site, ← u.putSites sites) : ServiceM (Site × WorkUnit)) :=
  gives_bind (gives_any _) fun _ _ => gives_bind (gives_any _) fun _ _ =>
    gives_bind (gives_stage _ _ _) fun _ hu' => gives_pure hu'

theorem gives_revert (scope : Scope) (name : String) :
    Gives (fun reverted => reverted.2.transaction = u.transaction) (u.revert scope name) := by
  refine gives_bind (gives_any _) fun current _ => ?_
  split
  · exact gives_bind (gives_stage scope name .revert) fun _ hu' => gives_pure hu'
  · exact gives_pure rfl

theorem gives_commit : Gives (fun u' => u'.transaction = u.transaction) u.commit := by
  simp only [commit]
  split
  · exact gives_pure rfl
  · exact gives_bind (gives_any _) fun _ _ => gives_pure rfl

theorem gives_createSite (new : NewSite) :
    Gives (fun created => created.2.transaction = u.transaction) (u.createSite new) := by
  simp only [createSite]
  refine gives_bind (gives_any _) fun sites _ => gives_bind (gives_any _) fun sites _ => ?_
  refine gives_bind (gives_any _) fun change _ => gives_bind (gives_any _) fun _ _ => ?_
  exact gives_bind (gives_push change) fun _ hu' => gives_pure hu'

theorem transaction_of_run (call : UnitCall) :
    Gives (fun done => done.2.transaction = u.transaction) (call.run u) := by
  cases call with
  | getSection _ _ => exact gives_bind (gives_any _) fun _ _ => gives_pure rfl
  | sites => exact gives_bind (gives_any _) fun _ _ => gives_pure rfl
  | getSite _ => exact gives_bind (gives_any _) fun _ _ => gives_pure rfl
  | stage scope name m => exact gives_bind (gives_stage scope name m) fun _ hu' => gives_pure hu'
  | revert scope name => exact gives_bind (gives_revert scope name) fun _ hu' => gives_pure hu'
  | commit => exact gives_bind gives_commit fun _ hu' => gives_pure hu'
  | createSite new => exact gives_bind (gives_createSite new) fun _ hu' => gives_pure hu'
  | updateSite id update =>
    exact gives_bind (gives_editSites (·.update id update)) fun _ hu' => gives_pure hu'
  | deleteSite id => exact gives_bind (gives_editSites (·.remove id)) fun _ hu' => gives_pure hu'

end WorkUnit

namespace Service

variable {set : StagedSet} {owner : Option String} {s s' : Service} {e : ConfigError}

/-- A set that cannot be written leaves transactions and claims as they were, and each path at
which none of its files has a lock or a temporary text. -/
theorem applySet_eq_error (h : applySet set owner s = (.error e, s'))
    (hr : Journal.RollbackSound s.registry set.entries s.store) :
    s.Unmoved s' ∧ ∀ path, Journal.Clear s.store.root (set.entries.map (·.file)) path →
      s'.store.tree.get? path = s.store.tree.get? path := by
  obtain ⟨htransactions, hclaims⟩ := transactions_applySet h
  refine ⟨⟨fun id => by rw [find?_of_transactions htransactions], hclaims⟩, fun path hc => ?_⟩
  rcases applySet_cases set owner s with ⟨e', hrefused⟩ | hcommit
  · rw [hrefused] at h
    cases h
    rfl
  · rw [hcommit, onStore_apply] at h
    rcases hwritten : Journal.commit s.registry set.entries s.store with ⟨e' | u, store⟩
    all_goals
      rw [hwritten] at h
      cases h
    exact Journal.commit_error_at s.registry set.entries s.store store e hwritten hr hc

end Service

end LayeredConfig
