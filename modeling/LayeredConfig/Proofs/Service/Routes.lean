import LayeredConfig.Proofs.Service.ClaimedSections
import LayeredConfig.Proofs.Service.Staging

/-!
# Edits by a unit alone and within a transaction

A unit alone keeps its edits to itself until it commits, and the units of a transaction share them
there and claim what they edit. Both routes check an edit against the same files under the same
staged changes, so they accept the same edits, answer alike and write the same set in the end.
-/

set_option autoImplicit false

namespace LayeredConfig

open Run

namespace Access

theorem sites_empty : sites (some .empty) = sites none := rfl

theorem checkWrite_empty (registry : Registry) :
    checkWrite registry (some .empty) = checkWrite registry none := rfl

theorem view_empty (name : String) (default : Value) (scope : Scope)
    (chain : List (LevelRef × LevelDocument)) :
    view name default scope (some .empty) chain = view name default scope none chain := by
  have hdirty : ((some StagedSet.empty).any fun set =>
      chain.any fun l => set.contains l.1.file name) = false :=
    List.any_eq_false.mpr fun l _ h => by cases h
  simp only [view]
  rw [hdirty]
  rfl

theorem getSection_empty (registry : Registry) :
    getSection registry (some .empty) = getSection registry none := by
  funext scope name
  simp only [getSection, view_empty]
  rfl

end Access

namespace Claims

theorem claim_of_check {c : Claims} {change : Staged} {id : String}
    (h : c.check change (some id) = .ok ()) : ∃ c', c.claim change id = .ok c' ∧
      ∀ file name, c'.holder? file name =
        if change.file = file ∧ change.name = name then some id else c.holder? file name := by
  simp only [check] at h
  simp only [claim]
  rcases hholder : c.holder? change.file change.name with _ | owner
  · refine ⟨_, rfl, fun file name => ?_⟩
    let new : Claim := ⟨change.file, change.name, id⟩
    have hfound : (c.entries ++ [new]).find? (fun e => e.file == file && e.name == name) =
        (c.entries.find? fun e => e.file == file && e.name == name).or
          (if change.file = file ∧ change.name = name then some new else none) := by
      rw [List.find?_append, List.find?_singleton]
      simp only [Bool.and_eq_true, beq_iff_eq]
      rfl
    simp only [holder?] at hholder ⊢
    rw [hfound]
    split
    · rename_i hkey
      obtain ⟨rfl, rfl⟩ := hkey
      rw [Option.map_eq_none_iff.mp hholder]
      rfl
    · rw [Option.or_none]
  · rw [hholder] at h
    dsimp only at h ⊢
    split at h
    · rename_i howner
      obtain rfl := Option.some.inj howner
      refine ⟨c, if_pos rfl, fun file name => ?_⟩
      split
      · rename_i hkey
        obtain ⟨rfl, rfl⟩ := hkey
        exact hholder
      · rfl
    · cases h

theorem free_of_check {c : Claims} {change : Staged} (h : c.check change none = .ok ()) :
    c.holder? change.file change.name = none := by
  simp only [check] at h
  rcases hholder : c.holder? change.file change.name with _ | owner
  · rfl
  · rw [hholder] at h
    cases h

end Claims

namespace WorkUnit

/-- A unit of the first service by itself has the edits that a transaction of the second one has
staged and claimed. The services have the same files and the same claims otherwise. -/
structure Shadowed (id : String) (u : WorkUnit) (s t : Service) : Prop where
  alone : u.transaction = none
  store : t.store = s.store
  registry : t.registry = s.registry
  staged : ∃ shadow, t.find? id = some shadow ∧ shadow.state = .pending ∧ shadow.staged = u.pending
  claimed : ∀ file name, u.pending.contains file name = true →
    s.claims.holder? file name = none ∧ t.claims.holder? file name = some id
  unclaimed : ∀ file name, u.pending.contains file name = false →
    t.claims.holder? file name = s.claims.holder? file name
  others : ∀ file name, s.claims.holder? file name ≠ some id

variable {id : String} {u v : WorkUnit} {s t : Service}

theorem Shadowed.onStore (h : Shadowed id u s t) (store : Store) :
    Shadowed id u { s with store := store } { t with store := store } :=
  ⟨h.alone, rfl, h.registry, h.staged, h.claimed, h.unclaimed, h.others⟩

theorem Shadowed.touch (h : Shadowed id u s t) {shadow : Transaction}
    (hf : t.find? id = some shadow) (now : Nat) :
    Shadowed id u s (t.put { shadow with lastActivity := now }) where
  alone := h.alone
  store := h.store
  registry := h.registry
  staged := by
    obtain ⟨found, hfound, hp, hstaged⟩ := h.staged
    obtain rfl := Option.some.inj (hf.symm.trans hfound)
    exact ⟨_, Service.find?_put hf rfl, hp, hstaged⟩
  claimed := h.claimed
  unclaimed := h.unclaimed
  others := h.others

theorem Shadowed.check_eq (h : Shadowed id u s t) (change : Staged) :
    t.claims.check change (some id) = s.claims.check change none := by
  simp only [Claims.check]
  rcases hc : u.pending.contains change.file change.name with _ | _
  · rw [h.unclaimed _ _ hc]
    rcases hholder : s.claims.holder? change.file change.name with _ | owner
    · rfl
    · have hother : ¬ some owner = some id := fun heq =>
        h.others change.file change.name (hholder.trans heq)
      dsimp only
      rw [if_neg hother, if_neg (Option.some_ne_none owner)]
  · obtain ⟨hfree, hheld⟩ := h.claimed _ _ hc
    rw [hfree, hheld]
    exact if_pos rfl

def SeesAlike (a b : Option StagedSet) : Prop := b = a ∨ a = none ∧ b = some .empty

variable (hv : v.transaction = some id)

include hv

theorem coupled_overlay : Coupled (Shadowed id u) (Shadowed id u)
    (fun a b s t => SeesAlike a b ∧ Shadowed id u s t) u.overlay v.overlay := by
  intro s t h
  obtain ⟨shadow, hf, hp, hstaged⟩ := h.staged
  simp only [overlay]
  rw [h.alone, hv]
  dsimp only
  rw [bind_apply]
  simp only [Service.snapshot]
  rw [bind_apply, Service.pendingTransaction_of_find? hf hp]
  refine ⟨?_, h.touch hf t.now⟩
  by_cases hempty : u.pending.isEmpty = true
  · rw [if_pos hempty, hstaged.trans (StagedSet.eq_empty hempty)]
    exact .inr ⟨rfl, rfl⟩
  · rw [if_neg hempty, hstaged]
    exact .inl rfl

omit hv

theorem coupled_onStore {α : Type} (x : ConfigM α) : Coupled (Shadowed id u) (Shadowed id u)
    (fun a b s t => a = b ∧ Shadowed id u s t) (Service.onStore x) (Service.onStore x) := by
  intro s t h
  rw [Service.onStore_apply, Service.onStore_apply, h.store]
  rcases hx : x s.store with ⟨e | a, store⟩
  · exact ⟨rfl, h.onStore store⟩
  · exact ⟨rfl, h.onStore store⟩

theorem coupled_reading {α : Type} (x y : Registry → ConfigM α) (hxy : y = x) (s t : Service) :
    Coupled (Shadowed id u) (fun s' t' => s = s' ∧ t = t' ∧ Shadowed id u s' t')
      (fun a b s t => a = b ∧ Shadowed id u s t)
      (Service.onStore (x s.registry)) (Service.onStore (y t.registry)) := by
  rintro s' t' ⟨rfl, rfl, h⟩
  rw [hxy, h.registry]
  exact coupled_onStore _ s t h

theorem coupled_ofExcept {α : Type} (x : Except ConfigError α) :
    Coupled (Shadowed id u) (Shadowed id u) (fun a b s t => a = b ∧ Shadowed id u s t)
      (Service.ofExcept x) (Service.ofExcept x) := by
  intro s t h
  rcases x with e | a
  · exact ⟨rfl, h⟩
  · exact ⟨rfl, h⟩

def Kept {α : Type} (id : String) (a : α × WorkUnit) (b : α × WorkUnit) (s t : Service) : Prop :=
  b.1 = a.1 ∧ Shadowed id a.2 s t

include hv

theorem coupled_getSection (scope : Scope) (name : String) :
    Coupled (Shadowed id u) (Shadowed id u) (fun a b s t => a = b ∧ Shadowed id u s t)
      (u.getSection scope name) (v.getSection scope name) := by
  refine coupled_bind (coupled_overlay hv) fun a b => coupled_of_fact fun hsees => ?_
  refine coupled_bind coupled_get fun s t =>
    coupled_reading (Access.getSection · a scope name) (Access.getSection · b scope name) ?_ s t
  funext registry
  rcases hsees with rfl | ⟨rfl, rfl⟩
  · rfl
  · rw [Access.getSection_empty]

theorem coupled_sites : Coupled (Shadowed id u) (Shadowed id u)
    (fun a b s t => a = b ∧ Shadowed id u s t) u.sites v.sites := by
  refine coupled_bind (coupled_overlay hv) fun a b => coupled_of_fact fun hsees => ?_
  have hsame : Access.sites b = Access.sites a := by
    rcases hsees with rfl | ⟨rfl, rfl⟩
    · rfl
    · exact Access.sites_empty
  rw [hsame]
  exact coupled_onStore _

theorem coupled_getSite (site : Int) : Coupled (Shadowed id u) (Shadowed id u)
    (fun a b s t => a = b ∧ Shadowed id u s t) (u.getSite site) (v.getSite site) := by
  refine coupled_bind (coupled_sites hv) fun a b => coupled_of_fact ?_
  rintro rfl
  split
  · exact coupled_pure fun _ _ h => ⟨rfl, h⟩
  · exact coupled_throw _ fun _ _ h => h

theorem coupled_prepare (scope : Scope) (name : String) (m : Mutation) :
    Coupled (Shadowed id u) (Shadowed id u)
      (fun a b s t => a = b ∧ s.claims.check a none = .ok () ∧ Shadowed id u s t)
      (u.prepare scope name m) (v.prepare scope name m) := by
  refine coupled_bind (coupled_overlay hv) fun a b => coupled_of_fact fun hsees => ?_
  refine coupled_bind coupled_get fun s t => ?_
  refine coupled_bind (coupled_reading (Access.checkWrite · a scope name m)
    (Access.checkWrite · b scope name m) ?_ s t) fun target target' => coupled_of_fact ?_
  · funext registry
    rcases hsees with rfl | ⟨rfl, rfl⟩
    · rfl
    · rw [Access.checkWrite_empty]
  · rintro rfl
    intro s t h
    have hcheck := h.check_eq (.of scope target name m)
    rw [get_bind, get_bind, hv, hcheck, h.alone]
    rcases hfree : s.claims.check (.of scope target name m) none with e | ⟨⟨⟩⟩
    · exact ⟨rfl, h⟩
    · exact ⟨rfl, hfree, h⟩

theorem coupled_push (change : Staged) :
    Coupled (Shadowed id u) (fun s t => s.claims.check change none = .ok () ∧ Shadowed id u s t)
      (fun u' _ s t => Shadowed id u' s t) (u.push change) (v.push change) := by
  intro s t ⟨hfree, h⟩
  obtain ⟨shadow, hf, hp, hstaged⟩ := h.staged
  obtain ⟨claims, hclaim, hheld⟩ := Claims.claim_of_check ((h.check_eq change).trans hfree)
  have hnone := Claims.free_of_check hfree
  simp only [push]
  rw [h.alone, hv]
  dsimp only
  rw [bind_apply]
  simp only [Service.stage]
  rw [bind_apply, Service.pendingTransaction_of_find? hf hp]
  dsimp only
  rw [get_bind, hclaim]
  let after : Transaction :=
    { shadow with staged := shadow.staged.stage change, lastActivity := t.now }
  have hput : (({ t with claims := claims } : Service).put after).find? id = some after :=
    Service.find?_put (t := shadow) hf rfl
  refine ⟨rfl, h.store, h.registry, ⟨after, hput, hp, congrArg (·.stage change) hstaged⟩,
    fun file name hcontains => ?_, fun file name hcontains => ?_, h.others⟩
  · change s.claims.holder? file name = none ∧ claims.holder? file name = some id
    rw [hheld]
    split
    · rename_i hkey
      obtain ⟨rfl, rfl⟩ := hkey
      exact ⟨hnone, rfl⟩
    · rename_i hkey
      exact h.claimed _ _ (((StagedSet.contains_stage _ _ _ _).1 hcontains).resolve_right hkey)
  · change claims.holder? file name = s.claims.holder? file name
    have hout : ¬ (u.pending.contains file name = true ∨ change.file = file ∧ change.name = name) :=
      fun hin => by
        rw [(StagedSet.contains_stage _ _ _ _).2 hin] at hcontains
        cases hcontains
    rw [hheld, if_neg fun hkey => hout (.inr hkey)]
    exact h.unclaimed _ _ (Bool.eq_false_iff.mpr fun hin => hout (.inl hin))

theorem coupled_stage (scope : Scope) (name : String) (m : Mutation) :
    Coupled (Shadowed id u) (Shadowed id u) (fun u' _ s t => Shadowed id u' s t)
      (u.stage scope name m) (v.stage scope name m) := by
  refine coupled_bind (coupled_prepare hv scope name m) fun a b => coupled_of_fact ?_
  rintro rfl
  exact coupled_push hv a

theorem coupled_revert (scope : Scope) (name : String) :
    Coupled (Shadowed id u) (Shadowed id u) (Kept id) (u.revert scope name)
      (v.revert scope name) := by
  refine coupled_bind (coupled_getSection hv scope name) fun a b => coupled_of_fact ?_
  rintro rfl
  split
  · exact coupled_bind (coupled_stage hv scope name .revert) fun u' v' =>
      coupled_pure fun _ _ h => ⟨rfl, h⟩
  · exact coupled_pure fun _ _ h => ⟨rfl, h⟩

/-- Both ways to edit the registered sites end with staging them. -/
theorem coupled_editSites (edit : Sites → Except ConfigError (Site × Sites)) :
    Coupled (Shadowed id u) (Shadowed id u) (Kept id)
      (do
        let sites ← u.sites
        let (site, sites) ← Service.ofExcept (edit sites)
        pure (site, ← u.putSites sites))
      (do
        let sites ← v.sites
        let (site, sites) ← Service.ofExcept (edit sites)
        pure (site, ← v.putSites sites)) := by
  refine coupled_bind (coupled_sites hv) fun a b => coupled_of_fact ?_
  rintro rfl
  refine coupled_bind (coupled_ofExcept (edit a)) fun c d => coupled_of_fact ?_
  rintro rfl
  exact coupled_bind (coupled_stage hv _ _ _) fun u' v' => coupled_pure fun _ _ h => ⟨rfl, h⟩

omit hv in
theorem coupled_createDirs (change : Staged) (dirs : List String) :
    Coupled (Shadowed id u) (fun s t => s.claims.check change none = .ok () ∧ Shadowed id u s t)
      (fun _ _ s t => s.claims.check change none = .ok () ∧ Shadowed id u s t)
      (createDirs dirs) (createDirs dirs) := by
  induction dirs with
  | nil => exact coupled_pure fun _ _ h => h
  | cons dir dirs ih =>
    refine coupled_bind ?_ fun _ _ => ih
    intro s t ⟨hfree, h⟩
    rw [Service.onStore_apply, Service.onStore_apply, h.store]
    rcases Access.onSection dir (Store.createDir dir) s.store with ⟨e | done, store⟩
    · exact ⟨rfl, h.onStore store⟩
    · exact ⟨hfree, h.onStore store⟩

theorem coupled_createSite (new : NewSite) :
    Coupled (Shadowed id u) (Shadowed id u) (Kept id) (u.createSite new) (v.createSite new) := by
  refine coupled_bind (coupled_sites hv) fun a b => coupled_of_fact ?_
  rintro rfl
  refine coupled_bind (coupled_ofExcept _) fun c d => coupled_of_fact ?_
  rintro rfl
  refine coupled_bind (coupled_prepare hv _ _ _) fun change change' => coupled_of_fact ?_
  rintro rfl
  refine coupled_bind (coupled_createDirs change _) fun _ _ => ?_
  exact coupled_bind (coupled_push hv change) fun u' v' => coupled_pure fun _ _ h => ⟨rfl, h⟩

end WorkUnit

namespace UnitCall

open WorkUnit

variable {id : String} {u v : WorkUnit}

/-- Every call but the commit ends alike on both sides. -/
theorem coupled_run (hv : v.transaction = some id) {call : UnitCall}
    (hcall : call.isCommit = false) :
    Coupled (Shadowed id u) (Shadowed id u) (Kept id) (call.run u) (call.run v) := by
  cases call with
  | getSection scope name =>
    refine coupled_bind (coupled_getSection hv scope name) fun a b => coupled_of_fact ?_
    rintro rfl
    exact coupled_pure fun _ _ h => ⟨rfl, h⟩
  | sites =>
    refine coupled_bind (coupled_sites hv) fun a b => coupled_of_fact ?_
    rintro rfl
    exact coupled_pure fun _ _ h => ⟨rfl, h⟩
  | getSite site =>
    refine coupled_bind (coupled_getSite hv site) fun a b => coupled_of_fact ?_
    rintro rfl
    exact coupled_pure fun _ _ h => ⟨rfl, h⟩
  | stage scope name m =>
    exact coupled_bind (coupled_stage hv scope name m) fun _ _ => coupled_pure fun _ _ h => ⟨rfl, h⟩
  | revert scope name =>
    exact coupled_bind (coupled_revert hv scope name) fun a b =>
      coupled_pure fun _ _ h => ⟨congrArg UnitAnswer.reverted h.1, h.2⟩
  | commit => cases hcall
  | createSite new =>
    exact coupled_bind (coupled_createSite hv new) fun a b =>
      coupled_pure fun _ _ h => ⟨congrArg UnitAnswer.site h.1, h.2⟩
  | updateSite site update =>
    exact coupled_bind (coupled_editSites hv (·.update site update)) fun a b =>
      coupled_pure fun _ _ h => ⟨congrArg UnitAnswer.site h.1, h.2⟩
  | deleteSite site =>
    exact coupled_bind (coupled_editSites hv (·.remove site)) fun a b =>
      coupled_pure fun _ _ h => ⟨congrArg UnitAnswer.site h.1, h.2⟩

def inTurn : List UnitCall → WorkUnit → Service →
    List (Except ConfigError UnitAnswer) × WorkUnit × Service
  | [], u, s => ([], u, s)
  | call :: calls, u, s =>
    match call.run u s with
    | (.ok (answer, u), s) => ((inTurn calls u s).1.cons (.ok answer), (inTurn calls u s).2)
    | (.error e, s) => ((inTurn calls u s).1.cons (.error e), (inTurn calls u s).2)

def amongUnits : List (WorkUnit × UnitCall) → Service →
    List (Except ConfigError UnitAnswer) × Service
  | [], s => ([], s)
  | (v, call) :: calls, s =>
    let (answer, s) := call.run v s
    ((amongUnits calls s).1.cons (answer.map (·.1)), (amongUnits calls s).2)

theorem shadowed_run {calls : List (WorkUnit × UnitCall)}
    (hcalls : ∀ c ∈ calls, c.1.transaction = some id ∧ c.2.isCommit = false) {s t : Service}
    (h : Shadowed id u s t) :
    (inTurn (calls.map (·.2)) u s).1 = (amongUnits calls t).1 ∧
      Shadowed id (inTurn (calls.map (·.2)) u s).2.1 (inTurn (calls.map (·.2)) u s).2.2
        (amongUnits calls t).2 := by
  induction calls generalizing u s t with
  | nil => exact ⟨rfl, h⟩
  | cons c calls ih =>
    obtain ⟨v, call⟩ := c
    obtain ⟨⟨hv, hcall⟩, hcalls⟩ := List.forall_mem_cons.mp hcalls
    have hstep := coupled_run hv hcall s t h
    simp only [List.map_cons, inTurn, amongUnits]
    rcases hs : call.run u s with ⟨e | ⟨answer, u'⟩, s'⟩ <;>
      rcases ht : call.run v t with ⟨e' | ⟨answer', v'⟩, t'⟩ <;> rw [hs, ht] at hstep
    · obtain ⟨rfl, h'⟩ := hstep
      obtain ⟨hanswers, hrest⟩ := ih hcalls h'
      exact ⟨congrArg (List.cons _) hanswers, hrest⟩
    · exact hstep.elim
    · exact hstep.elim
    · obtain ⟨hanswer, h'⟩ := hstep
      obtain rfl : answer' = answer := hanswer
      obtain ⟨hanswers, hrest⟩ := ih hcalls h'
      exact ⟨congrArg (List.cons _) hanswers, hrest⟩

end UnitCall

namespace WorkUnit

variable {id : String} {u : WorkUnit} {s t : Service}

/-- A new transaction has what a new unit has. -/
theorem shadowed_create (hid : s.find? id = none) (howner : ∀ c ∈ s.claims.entries, c.owner ≠ id) :
    Shadowed id (.new none) s (Service.create id s).2 where
  alone := rfl
  store := rfl
  registry := rfl
  staged := by
    refine ⟨⟨id, .pending, s.now, .empty⟩, ?_, rfl, rfl⟩
    change (s.transactions ++ [_]).find? _ = _
    rw [List.find?_append, show s.transactions.find? _ = none from hid]
    simp
  claimed _ _ h := by cases h
  unclaimed _ _ _ := rfl
  others file name h := howner _ (Claims.mem_of_holder? _ _ _ _ h) rfl

/-- What the unit writes when it commits, the commit of the transaction writes. -/
theorem Shadowed.commit (h : Shadowed id u s t) :
    (u.commit s).1.map (fun _ => ()) = (Service.commit id t).1.map (fun _ => ()) ∧
      (u.commit s).2.store = (Service.commit id t).2.store := by
  obtain ⟨shadow, hf, hp, hstaged⟩ := h.staged
  have hmine : ∀ e ∈ u.pending.entries, s.claims.check e none = .ok () ∧
      t.claims.check e (some id) = .ok () := by
    intro e he
    have hcontains := (u.pending.contains_iff e.file e.name).2 ⟨e, he, rfl, rfl⟩
    have hcheck : s.claims.check e none = .ok () := by
      simp only [Claims.check]
      rw [(h.claimed _ _ hcontains).1]
    exact ⟨hcheck, (h.check_eq e).trans hcheck⟩
  have hset : Service.applySet shadow.staged (some id) t =
      Service.onStore (Journal.commit t.registry u.pending.entries) t := by
    rw [hstaged]
    exact Service.applySet_of_checked fun e he => (hmine e he).2
  simp only [WorkUnit.commit, Service.commit]
  rw [bind_apply, Service.pendingTransaction_of_find? hf hp]
  dsimp only
  rw [bind_apply, hset, Service.onStore_apply, h.store, h.registry]
  split
  · rename_i hnothing
    rw [h.alone, Option.isSome_none, Bool.false_or] at hnothing
    have hempty : u.pending.entries = [] := List.isEmpty_iff.mp hnothing
    rw [hempty]
    exact ⟨rfl, rfl⟩
  · rw [bind_apply, Service.applySet_of_checked fun e he => (hmine e he).1, Service.onStore_apply]
    rcases Journal.commit s.registry u.pending.entries s.store with ⟨e | done, store⟩
    · exact ⟨rfl, rfl⟩
    · exact ⟨rfl, rfl⟩

end WorkUnit

/-- Calls of a unit alone that it then commits, and the same calls of units that are bound to a new
transaction that is then committed, have the same answers and errors. The commits both succeed or
fail with the same error, and they leave the same store. -/
theorem routes_agree (s : Service) (id : String) (calls : List (WorkUnit × UnitCall))
    (hid : s.find? id = none) (howner : ∀ c ∈ s.claims.entries, c.owner ≠ id)
    (hcalls : ∀ c ∈ calls, c.1.transaction = some id ∧ c.2.isCommit = false) :
    let alone := UnitCall.inTurn (calls.map (·.2)) (.new none) s
    let shared := UnitCall.amongUnits calls (Service.create id s).2
    let written := alone.2.1.commit alone.2.2
    let committed := Service.commit id shared.2
    alone.1 = shared.1 ∧
      written.1.map (fun _ => ()) = committed.1.map (fun _ => ()) ∧
      written.2.store = committed.2.store := by
  intro alone shared written committed
  obtain ⟨hanswers, hshadowed⟩ :=
    UnitCall.shadowed_run hcalls (WorkUnit.shadowed_create hid howner)
  exact ⟨hanswers, hshadowed.commit⟩

def shopCalls : List (WorkUnit × UnitCall) :=
  [(.new (some "shop"), .createSite ⟨none, "shop", "shop", true, []⟩),
    (.new (some "shop"), .stage (.site 1 "/") "directory_browse"
      (.replace (.obj [("enabled", .bool true)]))),
    (.new (some "shop"), .stage .global "unknown" .revert)]

theorem routes_agree_shopCalls :
    let s := Service.new listedDisk .builtin 900 0
    let alone := UnitCall.inTurn (shopCalls.map (·.2)) (.new none) s
    let shared := UnitCall.amongUnits shopCalls (Service.create "shop" s).2
    (alone.2.1.commit alone.2.2).2.store = (Service.commit "shop" shared.2).2.store ∧
      (alone.2.1.commit alone.2.2).1.isOk = true := by
  dsimp only
  exact ⟨(routes_agree (.new listedDisk .builtin 900 0) "shop" shopCalls (by decide) (by decide)
    (by decide)).2.2, by decide +kernel⟩

end LayeredConfig
