import LayeredConfig.Proofs.Service.Operations
import LayeredConfig.Proofs.Store.Growth

/-!
# What units of work can break

A unit changes the service in a few ways: it looks at the staged set of its transaction and stages
changes there, it reads the store and makes directories in it, and by itself it writes its own
changes. A property that withstands these steps holds after every call of the unit.
-/

set_option autoImplicit false

namespace LayeredConfig

open Run

namespace Service

variable {good : Service → Prop}

theorem preserves_ofExcept {α : Type} (x : Except ConfigError α) :
    Preserves good (ofExcept x) := fun _ h => h

def BlindToStore (good : Service → Prop) : Prop :=
  ∀ s store, good s → good { s with store := store }

def OpenToGrowth (good : Service → Prop) : Prop :=
  ∀ s store, s.store.Grows store → good s → good { s with store := store }

theorem BlindToStore.openToGrowth (hgood : BlindToStore good) : OpenToGrowth good :=
  fun s store _ => hgood s store

theorem OpenToGrowth.looked (hgood : OpenToGrowth good) (s : Service) (store : Store)
    (h : s.store.Looked store) : good s → good { s with store := store } :=
  hgood s store h.grows

theorem preserves_onStore (hgood : BlindToStore good) {α : Type} (x : ConfigM α) :
    Preserves good (onStore x) := fun s h => hgood s (x s.store).2 h

theorem preserves_applySet (hgood : BlindToStore good) (set : StagedSet) (owner : Option String) :
    Preserves good (applySet set owner) := by
  simp only [applySet]
  refine preserves_bind preserves_get fun _ => preserves_bind (preserves_ofExcept _) fun _ => ?_
  exact preserves_onStore hgood _

end Service

namespace WorkUnit

open Service

structure Observed (u : WorkUnit) (good : Service → Prop) : Prop where
  snapshot : ∀ id, u.transaction = some id → Preserves good (Service.snapshot id)
  looked : ∀ s store, s.store.Looked store → good s → good { s with store := store }

structure Withstood (u : WorkUnit) (good : Service → Prop) : Prop extends u.Observed good where
  stage : ∀ id change, u.transaction = some id → Preserves good (Service.stage id change)

theorem Withstood.of_blind {good : Service → Prop} (hgood : BlindToStore good)
    (hsnap : ∀ id, Preserves good (Service.snapshot id))
    (hstage : ∀ id change, Preserves good (Service.stage id change)) (u : WorkUnit) :
    u.Withstood good where
  snapshot id _ := hsnap id
  stage id change _ := hstage id change
  looked s store _ := hgood s store

variable {u : WorkUnit} {good : Service → Prop}

theorem Observed.onStore (h : u.Observed good) {α : Type} {x : ConfigM α}
    (hx : ∀ store, Preserves (Store.Looked store) x) : Preserves good (onStore x) :=
  fun s hs => h.looked s _ (hx s.store s.store (.refl _)) hs

theorem Observed.overlay (h : u.Observed good) : Preserves good u.overlay := by
  simp only [WorkUnit.overlay]
  split
  · rename_i id hu
    exact preserves_bind (h.snapshot id hu) fun _ => preserves_pure _
  · exact preserves_pure _

theorem Observed.getSection (h : u.Observed good) (scope : Scope) (name : String) :
    Preserves good (u.getSection scope name) :=
  preserves_bind h.overlay fun _ => preserves_bind preserves_get fun _ =>
    h.onStore fun store => Access.preserves_getSection (Store.looked_load store) _ _ _ _

theorem Observed.prepare (h : u.Observed good) (scope : Scope) (name : String) (m : Mutation) :
    Preserves good (u.prepare scope name m) := by
  refine preserves_bind h.overlay fun _ => preserves_bind preserves_get fun _ => ?_
  refine preserves_bind (h.onStore fun store =>
    Access.preserves_checkWrite (Store.looked_load store) _ _ _ _ _) fun _ => ?_
  exact preserves_bind preserves_get fun _ =>
    preserves_bind (preserves_ofExcept _) fun _ => preserves_pure _

theorem Withstood.push (h : u.Withstood good) (change : Staged) :
    Preserves good (u.push change) := by
  simp only [WorkUnit.push]
  split
  · exact preserves_pure _
  · rename_i id hu
    exact preserves_bind (h.stage id change hu) fun _ => preserves_pure _

theorem Withstood.stageCall (h : u.Withstood good) (scope : Scope) (name : String) (m : Mutation) :
    Preserves good (u.stage scope name m) :=
  preserves_bind (h.prepare scope name m) fun change => h.push change

theorem Withstood.revert (h : u.Withstood good) (scope : Scope) (name : String) :
    Preserves good (u.revert scope name) := by
  simp only [WorkUnit.revert]
  refine preserves_bind (h.getSection scope name) fun current => ?_
  split
  · exact preserves_bind (h.stageCall _ _ _) fun _ => preserves_pure _
  · exact preserves_pure _

theorem preserves_commit
    (hwrite : u.transaction = none → Preserves good (applySet u.pending none)) :
    Preserves good u.commit := by
  simp only [WorkUnit.commit]
  split
  · exact preserves_pure _
  · rename_i hwrites
    rw [Bool.or_eq_true, not_or, Bool.not_eq_true, Option.isSome_eq_false_iff,
      Option.isNone_iff_eq_none] at hwrites
    exact preserves_bind (hwrite hwrites.1) fun _ => preserves_pure _

theorem Observed.sites (h : u.Observed good) : Preserves good u.sites :=
  preserves_bind h.overlay fun _ =>
    h.onStore fun store => Access.preserves_sites (Store.looked_load store) _

theorem Observed.getSite (h : u.Observed good) (id : Int) : Preserves good (u.getSite id) := by
  simp only [WorkUnit.getSite]
  refine preserves_bind h.sites fun sites => ?_
  split
  · exact preserves_pure _
  · exact preserves_throw _

theorem preserves_createDirs (hgood : OpenToGrowth good) (dirs : List String) :
    Preserves good (createDirs dirs) := by
  induction dirs with
  | nil => exact preserves_pure _
  | cons dir dirs ih =>
    refine preserves_bind (fun s hs => hgood s _ ?_ hs) fun _ => ih
    exact Access.preserves_onSection _ (Store.preserves_createDir s.store dir) s.store (.refl _)

theorem Withstood.createSite (h : u.Withstood good) (hgood : OpenToGrowth good) (new : NewSite) :
    Preserves good (u.createSite new) := by
  simp only [WorkUnit.createSite]
  refine preserves_bind h.sites fun sites => ?_
  refine preserves_bind (preserves_ofExcept _) fun sites => ?_
  refine preserves_bind (h.prepare _ _ _) fun change => ?_
  refine preserves_bind (preserves_createDirs hgood _) fun _ => ?_
  exact preserves_bind (h.push change) fun _ => preserves_pure _

/-- Both ways to edit the registered sites end with storing them. -/
theorem Withstood.editSites (h : u.Withstood good)
    (edit : Sites → Except ConfigError (Site × Sites)) :
    Preserves good (do
      let sites ← u.sites
      let (site, sites) ← Service.ofExcept (edit sites)
      pure (site, ← u.putSites sites)) := by
  refine preserves_bind h.sites fun sites => ?_
  refine preserves_bind (preserves_ofExcept _) fun edited => ?_
  exact preserves_bind (h.stageCall _ _ _) fun _ => preserves_pure _

end WorkUnit

namespace UnitCall

open Service

def makesDirs : UnitCall → Bool
  | .createSite _ => true
  | _ => false

/-- Every call of a unit keeps what its steps keep, if making directories for a new site and the
commit do. -/
theorem preserves_of_withstood {u : WorkUnit} {good : Service → Prop} (h : u.Withstood good)
    (call : UnitCall) (hgrown : call.makesDirs = true → OpenToGrowth good)
    (hcommit : call = .commit → Preserves good u.commit) :
    Preserves good (call.run u) := by
  cases call with
  | getSection scope name =>
    exact preserves_bind (h.getSection scope name) fun _ => preserves_pure _
  | sites => exact preserves_bind h.sites fun _ => preserves_pure _
  | getSite id => exact preserves_bind (h.getSite id) fun _ => preserves_pure _
  | stage scope name m => exact preserves_bind (h.stageCall scope name m) fun _ => preserves_pure _
  | revert scope name => exact preserves_bind (h.revert scope name) fun _ => preserves_pure _
  | commit => exact preserves_bind (hcommit rfl) fun _ => preserves_pure _
  | createSite new => exact preserves_bind (h.createSite (hgrown rfl) new) fun _ => preserves_pure _
  | updateSite id update =>
    exact preserves_bind (h.editSites (·.update id update)) fun _ => preserves_pure _
  | deleteSite id => exact preserves_bind (h.editSites (·.remove id)) fun _ => preserves_pure _

/-- What looking at a staged set and staging a change keep, if it does not look at the store. -/
theorem preserves_run {good : Service → Prop} (hgood : BlindToStore good)
    (hsnap : ∀ id, Preserves good (snapshot id))
    (hstage : ∀ id change, Preserves good (Service.stage id change)) (u : WorkUnit)
    (call : UnitCall) : Preserves good (call.run u) :=
  call.preserves_of_withstood (.of_blind hgood hsnap hstage u) (fun _ => hgood.openToGrowth)
    fun _ => u.preserves_commit fun _ => preserves_applySet hgood _ _

end UnitCall

end LayeredConfig
