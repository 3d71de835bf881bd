import LayeredConfig.Proofs.Http.Edits
import LayeredConfig.Proofs.Service.Failing
import LayeredConfig.Proofs.Service.Showing

/-!
# Requests that fail

A request for an edit that is not answered with a success has been refused as it was read, or by the
call of its unit, or the changes of the unit could not be written. Nothing has come of it then. But
a section that is changed is read once more to be shown, and that can fail when the change has been
made: the change to the section of the registered sites may leave no registry, and without one no
section can be read.
-/

set_option autoImplicit false

namespace LayeredConfig

open Run

namespace Http

def Request.writing? (r : Request) (s : Service) : Option (StagedSet × Service) :=
  r.edit?.bind fun x =>
    match x s with
    | (.error _, _) => none
    | (.ok (u, edit), s₀) => match edit.run u s₀ with
      | (.error _, _) => none
      | (.ok (_, u₁), s₁) =>
        if u₁.transaction.isSome || u₁.pending.isEmpty then none else some (u₁.pending, s₁)

/-- A request has changed no transaction and no claim. Each path has what it had, unless it is the
one of a lock or a temporary text of a file to be written; but a `POST` may have made directories
where nothing was. -/
structure Request.ChangesNothing (r : Request) (s s' : Service) : Prop extends s.Unmoved s' where
  files : ∀ path, (∀ set s₁, r.writing? s = some (set, s₁) →
      Journal.Clear s.store.root (set.entries.map (·.file)) path) →
    s'.store.tree.get? path = s.store.tree.get? path ∨
      r.method = "POST" ∧ s.store.tree.get? path = none ∧
        s'.store.tree.get? path = some .directory

variable {r : Request} {x : ApiM (WorkUnit × UnitCall)} {u u₁ : WorkUnit} {edit : UnitCall}
  {answer : UnitAnswer} {e : ConfigError} {s s' s₁ : Service}

theorem Request.ChangesNothing.refl (r : Request) (s : Service) : r.ChangesNothing s s where
  toUnmoved := .refl s
  files _ _ := .inl rfl

/-- What a call has not committed is seen in the store by the directories of a new site at most. -/
theorem kept_or_made (hasked : Asked r.method (u, edit)) (h : s.Unedited edit.makesDirs s')
    (path : Names) : s'.store.tree.get? path = s.store.tree.get? path ∨
      r.method = "POST" ∧ s.store.tree.get? path = none ∧
        s'.store.tree.get? path = some .directory :=
  (h.get? path).imp_right fun ⟨hmakes, hmade⟩ => ⟨hasked.makes hmakes, hmade⟩

theorem changesNothing_of_run (hasked : Asked r.method (u, edit))
    (h : edit.run u s = (.error e, s')) : r.ChangesNothing s s' := by
  have hunedited := (u.observed_unedited edit.makesDirs s).failsSafely_run hasked.edits
    (fun hmakes => WorkUnit.openToGrowth_unedited hmakes s) s e s' (.refl _ s) h
  exact ⟨hunedited.toUnmoved, fun path _ => kept_or_made hasked hunedited path⟩

theorem unedited_of_run (hu : u.transaction = none) (hasked : Asked r.method (u, edit))
    (h : edit.run u s = (.ok (answer, u₁), s₁)) : s.Unedited edit.makesDirs s₁ := by
  have hkept := edit.preserves_of_withstood (WorkUnit.withstood_unedited hu edit.makesDirs s)
    (fun hmakes => WorkUnit.openToGrowth_unedited hmakes s)
    (fun hcommit => absurd hasked.edits (hcommit ▸ Bool.false_ne_true.symm)) s (.refl _ s)
  rwa [h] at hkept

/-- The changes of the unit cannot be written. -/
theorem changesNothing_of_commit (hasked : Asked r.method (u, edit)) (hedit : r.edit? = some x)
    (hx : x s = (.ok (u, edit), s)) (hrun : edit.run u s = (.ok (answer, u₁), s₁))
    (h : u₁.commit s₁ = (.error e, s'))
    (hrollback : ∀ set s₁, r.writing? s = some (set, s₁) →
      Journal.RollbackSound s₁.registry set.entries s₁.store) : r.ChangesNothing s s' := by
  obtain ⟨hnone, hchanges, happly⟩ := WorkUnit.commit_eq_error h
  have hwriting : r.writing? s = some (u₁.pending, s₁) := by
    simp only [Request.writing?]
    rw [hedit, Option.bind_some, hx]
    dsimp only
    rw [hrun]
    dsimp only
    rw [hnone, hchanges]
    rfl
  have hu : u.transaction = none :=
    (WorkUnit.transaction_of_run edit s _ s₁ hrun).symm.trans hnone
  have hunedited := unedited_of_run hu hasked hrun
  obtain ⟨hunmoved, hfiles⟩ := Service.applySet_eq_error happly (hrollback _ _ hwriting)
  refine ⟨hunedited.toUnmoved.trans hunmoved, fun path hclear => ?_⟩
  rw [hfiles path (hunedited.store.root ▸ hclear _ _ hwriting)]
  exact kept_or_made hasked hunedited path

/-- Only a section that was changed can be told of in vain. -/
theorem stage_of_report {a : UnitAnswer} (h : report u edit a s = (.error e, s')) :
    ∃ scope name m, edit = .stage scope name m ∧ u.getSection scope name s = (.error e, s') := by
  simp only [report] at h
  split at h
  · rename_i scope name m
    refine ⟨scope, name, m, rfl, ?_⟩
    rcases bind_eq_error h with hfails | ⟨v, mid, -, hpure⟩
    · exact hfails
    · cases hpure
  all_goals cases h

end Http

open Http

/-- A request for an edit that is not answered with a success has changed nothing, as long as what
it has written can be given back; or else it has changed a section and committed that, and then the
section cannot be read. Where reading does not fail by itself and what is seen through the change is
found after its commit, that change has put something in the place of the registered sites that is
no registry. -/
theorem failed_edits_change_nothing (freshId : String) (r : Request)
    (x : ApiM (WorkUnit × UnitCall)) (s s' : Service) (a : Answer) (hedit : r.edit? = some x)
    (h : answer freshId r s = (a, s')) (hfails : ¬ a.IsSuccess)
    (hrollback : ∀ set s₁, r.writing? s = some (set, s₁) →
      Journal.RollbackSound s₁.registry set.entries s₁.store) :
    r.ChangesNothing s s' ∨
      ∃ u scope name m u₁ s₁ u₂ s₂ e, x s = (.ok (u, .stage scope name m), s) ∧
        u.stage scope name m s = (.ok u₁, s₁) ∧ u₁.commit s₁ = (.ok u₂, s₂) ∧
        u₂.getSection scope name s₂ = (.error e, s') ∧ a = (ApiError.ofConfig e).answer ∧
        (s.store.Unfailing .read → u₁.pending.Rereadable scope s₁.store → m.BreaksSites name) := by
  rcases answer_of_edit freshId hedit s with ⟨refusal, -, hrefused⟩ |
    ⟨u, edit, hx, hasked, hanswer⟩
  · obtain ⟨-, rfl⟩ := Prod.mk.inj (h.symm.trans hrefused)
    exact .inl (.refl r s')
  · rw [hanswer] at h
    rcases hdone : carryOut u edit s with ⟨e | done, s₃⟩
    all_goals
      rw [hdone] at h
      obtain ⟨rfl, rfl⟩ := Prod.mk.inj h
    · rcases bind_eq_error hdone with hrun | ⟨⟨answer, u₁⟩, s₁, hrun, hdone⟩
      · exact .inl (changesNothing_of_run hasked hrun)
      · rcases bind_eq_error hdone with hcommit | ⟨u₂, s₂, hcommit, hreport⟩
        · exact .inl (changesNothing_of_commit hasked hedit hx hrun hcommit hrollback)
        · obtain ⟨scope, name, m, rfl, hread⟩ := stage_of_report hreport
          obtain ⟨u₁', s₁', hstage, hpure⟩ := bind_eq_ok hrun
          cases hpure
          refine .inr ⟨u, scope, name, m, u₁, s₁, u₂, s₂, e, hx, hstage, hcommit, hread, rfl,
            fun hr hreads => ?_⟩
          rcases WorkUnit.shown_of_committed hasked.new hr hstage hcommit hreads with
            ⟨v, hv⟩ | hbreaks
          · rw [hread] at hv
            cases hv
          · exact hbreaks
    · -- whatever is told in the end is a success
      obtain ⟨⟨answer, u₁⟩, s₁, -, hdone⟩ := bind_eq_ok hdone
      obtain ⟨u₂, s₂, -, hreport⟩ := bind_eq_ok hdone
      exact absurd (isSuccess_of_report hreport) hfails

def crowdedDisk : Store := { listedDisk with faults := [⟨.write, 1, .io⟩] }

def dropListings : Request := ⟨"DELETE", "/api/sections/directory_browse", none, none, ""⟩

theorem failed_edits_change_nothing_crowded :
    (answer "" dropListings (.new crowdedDisk .builtin 900 0)).1.status = 500 ∧
      (dropListings.writing? (.new crowdedDisk .builtin 900 0)).isSome = true ∧
      dropListings.ChangesNothing (.new crowdedDisk .builtin 900 0)
        (answer "" dropListings (.new crowdedDisk .builtin 900 0)).2 := by
  refine ⟨by decide +kernel, by decide +kernel, ?_⟩
  obtain ⟨x, hedit⟩ := Option.isSome_iff_exists.mp
    (by decide +kernel : dropListings.edit?.isSome = true)
  have hfails : ¬ (answer "" dropListings (.new crowdedDisk .builtin 900 0)).1.IsSuccess := by
    decide +kernel
  have hsound : ∀ writing ∈ dropListings.writing? (.new crowdedDisk .builtin 900 0),
      Journal.RollbackSound writing.2.registry writing.1.entries writing.2.store := by
    decide +kernel
  -- it is no section that is changed
  have hother : (dropListings.edit?.any fun x =>
      (x (.new crowdedDisk .builtin 900 0)).1.toOption.any (·.2 matches .stage ..)) = false := by
    decide +kernel
  generalize Service.new crowdedDisk .builtin 900 0 = s at hfails hsound hother ⊢
  rcases failed_edits_change_nothing "" dropListings x s _ _ hedit (Prod.eta _).symm hfails
    (fun set s₁ h => hsound (set, s₁) h) with
    hnothing | ⟨u, scope, name, m, u₁, s₁, u₂, s₂, e, hx, -⟩
  · exact hnothing
  · rw [hedit, Option.any_some, hx] at hother
    cases hother

def breakSites (transaction : Option String) : Request :=
  ⟨"PATCH", "/api/sections/sites", transaction, some "application/json",
    "\x7b\"value\": \x7b\"entries\": 5\x7d\x7d"⟩

/-- The change is made and committed, or staged in a transaction, and then it cannot be shown. No
call fails by itself, and what was written is what was seen through the change. -/
theorem failed_edits_change_sites :
    let s := Operation.run [.create "open"] (.new listedDisk .builtin 900 0)
    let alone := answer "" (breakSites none) s
    let bound := answer "" (breakSites (some "open")) s
    ¬ alone.1.IsSuccess ∧ ¬ bound.1.IsSuccess ∧ s.store.faults = [] ∧
      (∀ writing ∈ (breakSites none).writing? s, writing.1.Rereadable .global writing.2.store ∧
        Journal.RollbackSound writing.2.registry writing.1.entries writing.2.store) ∧
      alone.2.store.tree.get? ["srv", "host.toml"] ≠ s.store.tree.get? ["srv", "host.toml"] ∧
      (bound.2.find? "open").map (·.staged) ≠ (s.find? "open").map (·.staged) ∧
      bound.2.claims ≠ s.claims := by
  decide +kernel

end LayeredConfig
