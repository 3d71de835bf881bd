import LayeredConfig.Proofs.Commit.Atomicity
import LayeredConfig.Proofs.Commit.Restoring
import LayeredConfig.Proofs.Service.Isolation
import LayeredConfig.Proofs.Service.Transitions

/-!
# A transaction ends once, and is written once at most

Where every id is new when it is created, a transaction that has ended stays as it is until it is
forgotten, and so its staged set is written by one commit at most: the one that makes it committed.
A commit that fails gives the files back and leaves the transaction pending, and what is asked of a
transaction that is not pending changes nothing at all.
-/

set_option autoImplicit false

namespace LayeredConfig

open Run Journal

namespace Operation

open Service

def names? : Operation → Option String
  | .stage id _ | .snapshot id | .commit id | .abort id => some id
  | .create _ | .sweep | .onUnit .. | .wait _ | .disturb _ => none

def applied (id : String) : List Operation → Service → Nat
  | [], _ => 0
  | op :: ops, s => (op.hasCommitted id s).toNat + applied id ops (op.apply s)

theorem applied_append (id : String) (before after : List Operation) (s : Service) :
    applied id (before ++ after) s = applied id before s + applied id after (run before s) := by
  induction before generalizing s with
  | nil => exact (Nat.zero_add _).symm
  | cons op before ih =>
    simp only [List.cons_append, applied, run]
    rw [ih, Nat.add_assoc]

structure NewIds (ops : List Operation) (s : Service) : Prop where
  mirrored : s.Mirrored
  distinct : (ops.filterMap created?).Nodup
  unknown : ∀ id ∈ ops.filterMap created?, s.find? id = none

namespace NewIds

variable {op : Operation} {ops : List Operation} {s : Service} {id : String}

theorem fresh (h : NewIds (op :: ops) s) : op.Fresh s := by
  cases op with
  | create id => exact h.unknown id List.mem_cons_self
  | stage _ _ | snapshot _ | commit _ | abort _ | sweep | onUnit _ _ | wait _ | disturb _ =>
    exact trivial

theorem follows (h : NewIds (op :: ops) s) (id : String) :
    op.Follows s id (s.find? id) ((op.apply s).find? id) :=
  op.follows_apply s h.mirrored h.fresh id

theorem created_ne (h : NewIds (op :: ops) s) (hid : id ∈ ops.filterMap created?) :
    op.created? ≠ some id := by
  intro hop
  have hdistinct := h.distinct
  rw [List.filterMap_cons_some hop] at hdistinct
  exact (List.nodup_cons.mp hdistinct).1 hid

theorem step (h : NewIds (op :: ops) s) : NewIds ops (op.apply s) where
  mirrored := op.mirrored_apply s h.mirrored h.fresh
  distinct := h.distinct.sublist ((List.sublist_cons_self op ops).filterMap created?)
  unknown id hid := by
    have hop := h.created_ne hid
    have hfollows := h.follows id
    rw [h.unknown id (((List.sublist_cons_self op ops).filterMap created?).subset hid)] at hfollows
    generalize (op.apply s).find? id = after at hfollows
    cases hfollows with
    | unknown => rfl
    | created hcreate => exact (hop (by rw [hcreate]; rfl)).elim

theorem left {after : List Operation} (h : NewIds (ops ++ after) s) : NewIds ops s := by
  have hsublist := (List.sublist_append_left ops after).filterMap created?
  exact ⟨h.mirrored, h.distinct.sublist hsublist, fun id hid => h.unknown id (hsublist.subset hid)⟩

theorem after {before : List Operation} (h : NewIds (before ++ ops) s) :
    NewIds ops (run before s) := by
  induction before generalizing s with
  | nil => exact h
  | cons op before ih => exact ih h.step

/-- A transaction that has ended is never committed again, and stays until it is forgotten. -/
theorem ended (h : NewIds ops s) (hid : id ∉ ops.filterMap created?) {t : Transaction}
    (ht : t.state ≠ .pending) (hs : s.find? id = some t ∨ s.find? id = none) :
    applied id ops s = 0 ∧
      ((run ops s).find? id = some t ∨ (run ops s).find? id = none) := by
  induction ops generalizing s with
  | nil => exact ⟨rfl, hs⟩
  | cons op ops ih =>
    have hsublist := (List.sublist_cons_self op ops).filterMap created?
    have hop : op.created? ≠ some id := fun hop =>
      hid (List.mem_filterMap.mpr ⟨op, List.mem_cons_self, hop⟩)
    have hcommitted : op.hasCommitted id s = false := by
      rw [Bool.eq_false_iff]
      intro hcommitted
      obtain ⟨u, -, hf, hp, -⟩ := hasCommitted_spec hcommitted
      rcases hs with hs | hs <;> rw [hf] at hs <;> cases hs
      exact ht hp
    have hafter : (op.apply s).find? id = some t ∨ (op.apply s).find? id = none := by
      have hfollows := h.follows id
      generalize (op.apply s).find? id = after at hfollows
      rcases hs with hs | hs <;> rw [hs] at hfollows
      · cases hfollows with
        | used _ _ hp | committed _ _ hp | aborted _ _ hp => exact (ht hp).elim
        | ended => exact .inl rfl
        | forgotten => exact .inr rfl
      · cases hfollows with
        | unknown => exact .inr rfl
        | created hcreate => exact (hop (by rw [hcreate]; rfl)).elim
    obtain ⟨hnone, hlast⟩ := ih h.step (fun hmem => hid (hsublist.subset hmem)) hafter
    refine ⟨?_, hlast⟩
    simp only [applied]
    rw [hcommitted, hnone]
    rfl

end NewIds

def Counted (n : Nat) : Option Transaction → Prop
  | none => n ≤ 1
  | some t => n = if t.state = .committed then 1 else 0

theorem Counted.le_one {n : Nat} {found : Option Transaction} (h : Counted n found) : n ≤ 1 := by
  rcases found with _ | t
  · exact h
  · simp only [Counted] at h
    split at h <;> omega

variable {op : Operation} {ops : List Operation} {s : Service} {id : String} {n : Nat}

theorem counted_apply (hfollows : op.Follows s id (s.find? id) ((op.apply s).find? id))
    (hn : op = .create id → n = 0) (h : Counted n (s.find? id)) :
    Counted (n + (op.hasCommitted id s).toNat) ((op.apply s).find? id) := by
  rcases hop : op.hasCommitted id s with _ | _
  · change Counted n _
    generalize s.find? id = before at hfollows h
    generalize (op.apply s).find? id = after at hfollows
    cases hfollows with
    | unknown => exact h
    | created hcreate =>
      rw [hn hcreate]
      rfl
    | used t t' hp hp' =>
      simp only [Counted] at h ⊢
      rw [h, hp, hp']
    | committed t t' _ _ _ hcommitted =>
      rw [hop] at hcommitted
      cases hcommitted
    | aborted t t' hp hp' =>
      simp only [Counted] at h ⊢
      rw [h, hp, hp']
      rfl
    | ended => exact h
    | forgotten => exact h.le_one
  · -- a pending transaction has not been committed so far
    obtain ⟨t, t', hf, hp, hf', hp', -⟩ := hasCommitted_spec hop
    rw [hf] at h
    rw [hf']
    simp only [Counted] at h ⊢
    rw [h, hp, hp']
    rfl

theorem counted_run (hids : NewIds ops s) (hn : id ∈ ops.filterMap created? → n = 0)
    (h : Counted n (s.find? id)) : Counted (n + applied id ops s) ((run ops s).find? id) := by
  induction ops generalizing s n with
  | nil => exact h
  | cons op ops ih =>
    have hcreated : op = .create id → n = 0 := fun hop =>
      hn (List.mem_filterMap.mpr ⟨op, List.mem_cons_self, by rw [hop]; rfl⟩)
    have hstep := counted_apply (hids.follows id) hcreated h
    simp only [applied, run]
    rw [← Nat.add_assoc]
    refine ih hids.step (fun hid => ?_) hstep
    -- what is created later is unknown so far, so nothing of it has been committed
    have hsublist := (List.sublist_cons_self op ops).filterMap created?
    rw [hn (hsublist.subset hid), Nat.zero_add, Bool.toNat_eq_zero, Bool.eq_false_iff]
    intro hcommitted
    obtain ⟨t, -, hf, -⟩ := hasCommitted_spec hcommitted
    rw [hids.unknown id (hsublist.subset hid)] at hf
    cases hf

theorem NewIds.counted (h : NewIds ops s) (hs : s.find? id = none) :
    Counted (applied id ops s) ((run ops s).find? id) := by
  have hstart : Counted 0 (s.find? id) := by
    rw [hs]
    exact Nat.zero_le 1
  have hrun := counted_run h (fun _ => rfl) hstart
  rwa [Nat.zero_add] at hrun

/-- The state of a transaction says how often it is committed, and an ended one stays. -/
theorem NewIds.count_of_find? {before after : List Operation} (h : NewIds (before ++ after) s)
    (hs : s.find? id = none) {t : Transaction} (hf : (run before s).find? id = some t) :
    (t.state = .pending → applied id before s = 0) ∧
      (t.state = .committed → applied id (before ++ after) s = 1) ∧
      (t.state = .aborted → applied id (before ++ after) s = 0) ∧
      (t.state ≠ .pending → (run (before ++ after) s).find? id = some t ∨
        (run (before ++ after) s).find? id = none) := by
  have hcount := h.left.counted hs
  rw [hf] at hcount
  simp only [Counted] at hcount
  have hknown : id ∉ after.filterMap created? := by
    intro hid
    rw [h.after.unknown id hid] at hf
    cases hf
  have hended := fun ht : t.state ≠ .pending => h.after.ended hknown ht (.inl hf)
  rw [run_append, applied_append, hcount]
  refine ⟨fun hp => ?_, fun hp => ?_, fun hp => ?_, fun ht => (hended ht).2⟩
  · rw [hp]
    rfl
  · rw [(hended (by rw [hp]; decide)).1, hp]
    rfl
  · rw [(hended (by rw [hp]; decide)).1, hp]
    rfl

structure Lawful (op : Operation) (s : Service) : Prop where
  follows : ∀ id, op.Follows s id (s.find? id) ((op.apply s).find? id)
  commits : ∀ id, op.hasCommitted id s = true →
    ∃ t, (op.apply s).find? id = some t ∧ t.state = .committed
  /-- No file changes but by a commit, unless somebody outside changes it. -/
  silent : op.commits? s = none → (∀ store, op ≠ .disturb store) → ∀ path content,
    (op.apply s).store.tree.get? path = some (.file content) ↔
      s.store.tree.get? path = some (.file content)
  /-- A commit writes a set, and that of a transaction is written in its own commit only. -/
  writes : ∀ set owner, op.commits? s = some (set, owner) →
    (op.apply s).store = (applySet set owner s).2.store ∧
      ∀ id, owner = some id → op = .commit id ∧
        ∃ t, s.find? id = some t ∧ t.state = .pending ∧ t.staged = set
  /-- A commit that fails leaves every path as it was where it has no lock and no temporary
  text. -/
  restores : ∀ set owner, op.commits? s = some (set, owner) → op.succeeds s = false →
    RollbackSound s.registry set.entries s.store → ∀ path,
      Clear s.store.root (set.entries.map (·.file)) path →
        (op.apply s).store.tree.get? path = s.store.tree.get? path
  kept : ∀ id, op = .commit id → op.succeeds s = false →
    (op.apply s).transactions = s.transactions ∧ (op.apply s).claims = s.claims
  refused : ∀ id, op.names? = some id → ¬ s.IsPending id →
    op.succeeds s = false ∧ op.apply s = s

/-- A unit makes directories at most, as long as it does not write its changes. -/
theorem grows_onUnit (u : WorkUnit) (call : UnitCall) (s : Service)
    (h : (Operation.onUnit u call).commits? s = none) :
    s.store.Grows (call.run u s).2.store := by
  have hgood : OpenToGrowth fun s' => s.store.Grows s'.store :=
    fun _ _ hgrows hs => hs.trans hgrows
  have hwithstood : u.Withstood fun s' => s.store.Grows s'.store :=
    { snapshot := fun other _ s' hs =>
        hs.trans (aside_snapshot other s' s' (.refl other s')).store
      stage := fun other change _ s' hs =>
        hs.trans (aside_stage other change s' s' (.refl other s')).store
      looked := hgood.looked }
  refine call.preserves_of_withstood hwithstood (fun _ => hgood) (fun hcall => ?_) s (.refl _)
  subst hcall
  simp only [commits?] at h
  split at h
  · rename_i hnothing
    simp only [WorkUnit.commit]
    rw [if_pos hnothing]
    exact preserves_pure _
  · cases h

theorem grows_of_silent (op : Operation) (s : Service) (h : op.commits? s = none)
    (hours : ∀ store, op ≠ .disturb store) : s.store.Grows (op.apply s).store := by
  cases op with
  | create _ => exact .refl _
  | stage id change => exact (aside_stage id change s s (.refl id s)).store
  | snapshot id => exact (aside_snapshot id s s (.refl id s)).store
  | commit id =>
    have hpending : ¬ s.IsPending id := by
      rintro ⟨t, hf, hp⟩
      simp only [commits?] at h
      rw [hf, Option.bind_some, if_pos hp] at h
      cases h
    obtain ⟨e, he⟩ := commit_refused hpending
    simp only [apply]
    rw [he]
    exact .refl _
  | abort id => exact (aside_abort id s s (.refl id s)).store
  | sweep => exact .refl _
  | onUnit u call => exact grows_onUnit u call s h
  | wait _ => exact .refl _
  | disturb store => exact (hours store rfl).elim

theorem succeeds_of_commits? (op : Operation) (s : Service) (set : StagedSet)
    (owner : Option String) (h : op.commits? s = some (set, owner)) :
    op.succeeds s = (applySet set owner s).1.isOk := by
  rcases commits?_cases h with ⟨id, t, rfl, rfl, hf, hp, rfl⟩ | ⟨u, rfl, rfl, rfl, hwrites⟩
  · simp only [succeeds]
    rcases commit_of_pending hf hp with ⟨e, s₁, ha, hc⟩ | ⟨s₁, ha, hc⟩
    all_goals
      rw [ha, hc]
      rfl
  · simp only [succeeds, UnitCall.run, WorkUnit.commit]
    rw [if_neg hwrites, bind_apply, bind_apply]
    rcases applySet u.pending none s with ⟨e | done, s'⟩
    · rfl
    · rfl

theorem restored_of_commits? (op : Operation) (s : Service) (set : StagedSet)
    (owner : Option String) (h : op.commits? s = some (set, owner)) (hfails : op.succeeds s = false)
    (hr : RollbackSound s.registry set.entries s.store) (path : Names)
    (hc : Clear s.store.root (set.entries.map (·.file)) path) :
    (op.apply s).store.tree.get? path = s.store.tree.get? path := by
  rw [op.store_of_commits? s set owner h]
  rw [op.succeeds_of_commits? s set owner h] at hfails
  rcases applySet_checked set owner s with ⟨e, he⟩ | ⟨-, hcommit⟩
  · rw [he]
  · rw [hcommit, Service.onStore_apply] at hfails ⊢
    rcases hwritten : Journal.commit s.registry set.entries s.store with ⟨e | u, store⟩
    · exact commit_error_at s.registry set.entries s.store store e hwritten hr hc
    · rw [hwritten] at hfails
      cases hfails

theorem kept_of_failed (id : String) (s : Service) (h : (Operation.commit id).succeeds s = false) :
    ((Operation.commit id).apply s).transactions = s.transactions ∧
      ((Operation.commit id).apply s).claims = s.claims := by
  simp only [apply]
  simp only [succeeds] at h
  by_cases hpending : s.IsPending id
  · obtain ⟨t, hf, hp⟩ := hpending
    rcases commit_of_pending hf hp with ⟨e, s₁, ha, hc⟩ | ⟨s₁, ha, hc⟩
    · rw [hc]
      exact transactions_applySet ha
    · rw [hc] at h
      cases h
  · obtain ⟨e, he⟩ := commit_refused hpending
    rw [he]
    exact ⟨rfl, rfl⟩

theorem fails_of_refused {α : Type} {x : ServiceM α} {s : Service}
    (h : ∃ e, x s = (.error e, s)) : (x s).1.isOk = false ∧ (x s).2 = s := by
  obtain ⟨e, he⟩ := h
  rw [he]
  exact ⟨rfl, rfl⟩

theorem refused_of_names? (op : Operation) (s : Service) (id : String) (h : op.names? = some id)
    (hpending : ¬ s.IsPending id) : op.succeeds s = false ∧ op.apply s = s := by
  cases op with
  | stage other change =>
    obtain rfl := Option.some.inj h
    exact fails_of_refused (refused_of_not_isPending hpending _)
  | snapshot other =>
    obtain rfl := Option.some.inj h
    exact fails_of_refused (refused_of_not_isPending hpending _)
  | commit other =>
    obtain rfl := Option.some.inj h
    exact fails_of_refused (commit_refused hpending)
  | abort other =>
    obtain rfl := Option.some.inj h
    exact fails_of_refused (abort_refused hpending)
  | create _ | sweep | onUnit _ _ | wait _ | disturb _ => cases h

theorem NewIds.lawful (h : NewIds (op :: ops) s) : op.Lawful s where
  follows := h.follows
  commits id hop := by
    obtain ⟨-, t', -, -, hf', hp', -⟩ := hasCommitted_spec hop
    exact ⟨t', hf', hp'⟩
  silent hnone hours := (op.grows_of_silent s hnone hours).tree.file_iff
  writes set owner hop := by
    refine ⟨op.store_of_commits? s set owner hop, fun id howner => ?_⟩
    rcases commits?_cases hop with ⟨other, t, hcommit, rfl, hf, hp, hset⟩ | ⟨u, -, rfl, -⟩
    · obtain rfl := Option.some.inj howner
      exact ⟨hcommit, t, hf, hp, hset⟩
    · cases howner
  restores := op.restored_of_commits? s
  kept id hop hfails := by
    subst hop
    exact kept_of_failed id s hfails
  refused := op.refused_of_names? s

end Operation

/-- In a run that creates no id twice, each operation is lawful, and no transaction is committed
twice: one that is pending has not been committed so far, one that is committed has been committed
once in the whole run, and one that is aborted never. Once it has ended, it stays as it is until it
is forgotten. -/
theorem transactions_end_once (store : Store) (registry : Registry) (idleSeconds now : Nat)
    (ops : List Operation) (hids : (ops.filterMap Operation.created?).Nodup) :
    let started := Service.new store registry idleSeconds now
    (∀ before op after, ops = before ++ op :: after →
      op.Lawful (Operation.run before started)) ∧
    (∀ id, Operation.applied id ops started ≤ 1) ∧
    ∀ before after, ops = before ++ after → ∀ id t,
      (Operation.run before started).find? id = some t →
        (t.state = .pending → Operation.applied id before started = 0) ∧
        (t.state = .committed → Operation.applied id ops started = 1) ∧
        (t.state = .aborted → Operation.applied id ops started = 0) ∧
        (t.state ≠ .pending → (Operation.run ops started).find? id = some t ∨
          (Operation.run ops started).find? id = none) := by
  intro started
  have hnew : Operation.NewIds ops started :=
    ⟨Service.mirrored_new store registry idleSeconds now, hids, fun _ _ => rfl⟩
  refine ⟨?_, fun id => (hnew.counted rfl).le_one, ?_⟩
  · rintro before op after rfl
    exact hnew.after.lawful
  · rintro before after rfl id t hf
    exact hnew.count_of_find? rfl hf

def twoStaged : List Operation := .create "edits" :: twoFiles.entries.map (.stage "edits")

def retried : List Operation :=
  [.commit "edits", .abort "edits", .wait (901 * Service.nanosPerSecond), .sweep]

theorem transactions_end_once_fullDisk :
    let started := Service.new fullDisk .builtin 900 0
    let ops := twoStaged ++ .commit "edits" :: retried
    let s := Operation.run twoStaged started
    (ops.filterMap Operation.created?).Nodup ∧
      (Operation.commit "edits").succeeds s = false ∧
      ((Operation.commit "edits").apply s).store.tree.get? ["srv", "host.toml"] =
        s.store.tree.get? ["srv", "host.toml"] ∧
      Operation.applied "edits" ops started = 1 := by
  intro started ops s
  have hids : (ops.filterMap Operation.created?).Nodup := by decide
  have hfails : (Operation.commit "edits").succeeds s = false := by decide +kernel
  have hset : (Operation.commit "edits").commits? s = some (twoFiles, some "edits") := by
    decide +kernel
  have hsound : RollbackSound s.registry twoFiles.entries s.store := by decide +kernel
  have hclear : Clear s.store.root (twoFiles.entries.map (·.file)) ["srv", "host.toml"] := by
    decide +kernel
  let t : Transaction := ⟨"edits", .committed, 0, twoFiles⟩
  have hcommitted : (Operation.run (twoStaged ++ [.commit "edits", .commit "edits"]) started).find?
      "edits" = some t := by decide +kernel
  have hsplit : ops = (twoStaged ++ [.commit "edits", .commit "edits"]) ++ retried.drop 1 := rfl
  have h := transactions_end_once fullDisk .builtin 900 0 ops hids
  have hlawful : (Operation.commit "edits").Lawful s := h.1 twoStaged _ retried rfl
  have hended := h.2.2 _ _ hsplit "edits" t hcommitted
  refine ⟨hids, hfails, ?_, hended.2.1 rfl⟩
  exact hlawful.restores twoFiles (some "edits") hset hfails hsound ["srv", "host.toml"] hclear

end LayeredConfig
