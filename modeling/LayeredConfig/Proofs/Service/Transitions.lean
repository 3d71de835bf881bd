import LayeredConfig.Proofs.Service.ClaimedSections

/-!
# What one operation makes of a transaction

A transaction is pending from its creation until it is committed, aborted or found idle by a
sweep. `Follows` lists what an operation may make of the transaction of an id. Everything but a
commit, an abort and a sweep carries the pending transactions on and leaves the others alone; a
commit that cannot write its set leaves all of them alone.
-/

set_option autoImplicit false

namespace LayeredConfig

open Run

def Transaction.Stays (t t' : Transaction) : Prop :=
  t' = t ∨ t.state = .pending ∧ t'.state = .pending

namespace Service

variable {s s' : Service} {id : String} {t t' : Transaction}

theorem find?_of_transactions (h : s'.transactions = s.transactions) (id : String) :
    s'.find? id = s.find? id := by
  simp only [find?]
  rw [h]

def Carried (s s' : Service) : Prop :=
  ∀ id, Option.Rel Transaction.Stays (s.find? id) (s'.find? id)

theorem Carried.of_transactions (h : s'.transactions = s.transactions) : Carried s s' := by
  intro id
  rw [find?_of_transactions h]
  rcases s.find? id with _ | t
  · exact Option.Rel.none
  · exact Option.Rel.some (.inl rfl)

theorem Carried.put (h : Carried s s') (hf : s'.find? id = some t) (hp : t.state = .pending)
    (t' : Transaction) (hid : t'.id = t.id) (hp' : t'.state = .pending) (claims : Claims) :
    Carried s ({ s' with claims := claims }.put t') := by
  intro other
  have hother := h other
  by_cases heq : t'.id = other
  · obtain rfl : id = other := by rw [← heq, hid, id_of_find? hf]
    have hput : ({ s' with claims := claims }.put t').find? id = some t' := find?_put hf hid
    rw [hput]
    rw [hf] at hother
    revert hother
    generalize s.find? id = first
    rintro ⟨rfl | ⟨hfirst, -⟩⟩
    · exact Option.Rel.some (.inr ⟨hp, hp'⟩)
    · exact Option.Rel.some (.inr ⟨hfirst, hp'⟩)
  · rw [find?_put_of_ne heq]
    exact hother

theorem carried_snapshot (id : String) (s : Service) : Preserves (Carried s) (snapshot id) :=
  preserves_pending id _ fun t s' h hf hp =>
    h.put hf hp { t with lastActivity := s'.now } rfl hp s'.claims

theorem carried_stage (id : String) (change : Staged) (s : Service) :
    Preserves (Carried s) (stage id change) := by
  refine preserves_pending id _ fun t s' h hf hp => ?_
  rw [get_bind, bind_apply]
  rcases s'.claims.claim change id with e | claims
  · exact h
  · exact h.put hf hp { t with staged := t.staged.stage change, lastActivity := s'.now } rfl hp
      claims

theorem carried_blindToStore (s : Service) : BlindToStore (Carried s) := fun _ _ h => h

theorem find?_finish (hf : s.find? id = some t) (state : TransactionState) (staged : StagedSet)
    (other : String) :
    (finish t state staged s).2.find? other =
      if id = other then some { t with state := state, staged := staged, lastActivity := s.now }
      else s.find? other := by
  have hid := id_of_find? hf
  change (s.put { t with state := state, staged := staged, lastActivity := s.now }).find? other = _
  split
  · rename_i heq
    rw [← heq]
    exact find?_put hf rfl
  · rename_i hne
    exact find?_put_of_ne fun heq => hne (hid.symm.trans heq)

def swept? (s : Service) (t : Transaction) : Option Transaction :=
  if !s.isIdle t then some t
  else if t.state = .pending then
    some { t with state := .aborted, staged := .empty, lastActivity := s.now }
  else none

theorem find?_sweepList (s : Service) (ts : List Transaction) (hids : (ts.map (·.id)).Nodup)
    (id : String) :
    (s.sweepList ts).find? (·.id == id) = (ts.find? (·.id == id)).bind s.swept? := by
  induction ts with
  | nil => rfl
  | cons t rest ih =>
    obtain ⟨hfresh, hrest⟩ := List.nodup_cons.mp hids
    have ih := ih hrest
    by_cases hid : t.id = id
    · have hgone : (s.sweepList rest).find? (·.id == id) = none := by
        rw [List.find?_eq_none]
        intro u hu huid
        have hmem := (ids_sweepList s rest).subset (List.mem_map_of_mem hu)
        rw [eq_of_beq huid, ← hid] at hmem
        exact hfresh hmem
      have hhead : ∀ u : Transaction, u.id = id → (u.id == id) = true := fun _ => beq_iff_eq.mpr
      rw [List.find?_cons, hhead t hid]
      simp only [sweepList, swept?, Option.bind_some]
      split
      · rw [List.find?_cons, hhead t hid]
      · split
        · rw [List.find?_cons, hhead _ hid]
        · exact hgone
    · have hskip : ∀ u : Transaction, u.id = t.id → (u.id == id) = false := by
        intro u hu
        rw [hu]
        exact beq_eq_false_iff_ne.mpr hid
      rw [List.find?_cons, hskip t rfl, ← ih]
      simp only [sweepList]
      split
      · rw [List.find?_cons, hskip t rfl]
      · split
        · rw [List.find?_cons, hskip _ rfl]
        · rfl

theorem find?_sweep (h : s.Mirrored) (id : String) :
    s.sweep.1.find? id = (s.find? id).bind s.swept? :=
  find?_sweepList s s.transactions h.ids id

theorem find?_create (id other : String) (s : Service) :
    (create id s).2.find? other = (s.find? other).or
      (if id = other then some ⟨id, .pending, s.now, .empty⟩ else none) := by
  change (s.transactions ++ [(⟨id, .pending, s.now, .empty⟩ : Transaction)]).find? _ = _
  rw [List.find?_append, List.find?_singleton]
  simp only [beq_iff_eq]
  rfl

end Service

namespace Operation

open Service

def succeeds : Operation → Service → Bool
  | .stage id change, s => (Service.stage id change s).1.isOk
  | .snapshot id, s => (Service.snapshot id s).1.isOk
  | .commit id, s => (Service.commit id s).1.isOk
  | .abort id, s => (Service.abort id s).1.isOk
  | .onUnit u call, s => (call.run u s).1.isOk
  | .create _, _ | .sweep, _ | .wait _, _ | .disturb _, _ => true

def created? : Operation → Option String
  | .create id => some id
  | .stage .. | .snapshot _ | .commit _ | .abort _ | .sweep | .onUnit .. | .wait _ | .disturb _ =>
    none

def hasCommitted (id : String) : Operation → Service → Bool
  | .commit other, s => other == id && (Operation.commit other).succeeds s
  | .create _, _ | .stage .., _ | .snapshot _, _ | .abort _, _ | .sweep, _ | .onUnit .., _
  | .wait _, _ | .disturb _, _ => false

inductive Follows (op : Operation) (s : Service) (id : String) :
    Option Transaction → Option Transaction → Prop
  | unknown (h : op.created? ≠ some id) : Follows op s id none none
  | created (h : op = .create id) :
    Follows op s id none (some ⟨id, .pending, s.now, .empty⟩)
  | used (t t' : Transaction) (h : t.state = .pending) (h' : t'.state = .pending) :
    Follows op s id (some t) (some t')
  | committed (t t' : Transaction) (h : t.state = .pending) (h' : t'.state = .committed)
    (hstaged : t'.staged = t.staged) (hop : op.hasCommitted id s = true) :
    Follows op s id (some t) (some t')
  | aborted (t t' : Transaction) (h : t.state = .pending) (h' : t'.state = .aborted)
    (hstaged : t'.staged = .empty) (hop : op = .abort id ∨ op = .sweep) :
    Follows op s id (some t) (some t')
  | ended (t : Transaction) (h : t.state ≠ .pending) : Follows op s id (some t) (some t)
  | forgotten (t : Transaction) (h : t.state ≠ .pending) (hop : op = .sweep) :
    Follows op s id (some t) none

variable {op : Operation} {s : Service} {id : String}

theorem follows_of_rel {before after : Option Transaction} (hop : op.created? ≠ some id)
    (h : Option.Rel Transaction.Stays before after) : op.Follows s id before after := by
  rcases h with ⟨rfl | ⟨hp, hp'⟩⟩ | _
  · rename_i t
    by_cases hp : t.state = .pending
    · exact .used t t hp hp
    · exact .ended t hp
  · exact .used _ _ hp hp'
  · exact .unknown hop

theorem follows_of_eq {before after : Option Transaction} (hop : op.created? ≠ some id)
    (h : after = before) : op.Follows s id before after := by
  rw [h]
  apply follows_of_rel hop
  rcases before with _ | t
  · exact Option.Rel.none
  · exact Option.Rel.some (.inl rfl)

theorem follows_commit (other : String) (s : Service) (id : String) :
    (Operation.commit other).Follows s id (s.find? id)
      (((Operation.commit other).apply s).find? id) := by
  have hop : (Operation.commit other).created? ≠ some id := nofun
  simp only [apply]
  by_cases hpending : s.IsPending other
  · obtain ⟨t, hf, hp⟩ := hpending
    rcases commit_of_pending hf hp with ⟨e, s₁, ha, hc⟩ | ⟨s₁, ha, hc⟩
    all_goals have hsame := find?_of_transactions (transactions_applySet ha).1
    · rw [hc]
      exact follows_of_eq hop (hsame id)
    · have hcommitted : (Operation.commit other).hasCommitted other s = true := by
        simp only [hasCommitted, succeeds]
        rw [hc, beq_self_eq_true]
        rfl
      rw [hc, find?_finish ((hsame other).trans hf)]
      split
      · rename_i heq
        subst heq
        rw [hf]
        exact .committed t _ hp rfl rfl hcommitted
      · exact follows_of_eq hop (hsame id)
  · obtain ⟨e, he⟩ := commit_refused hpending
    rw [he]
    exact follows_of_eq hop rfl

theorem follows_abort (other : String) (s : Service) (id : String) :
    (Operation.abort other).Follows s id (s.find? id)
      (((Operation.abort other).apply s).find? id) := by
  have hop : (Operation.abort other).created? ≠ some id := nofun
  simp only [apply]
  by_cases hpending : s.IsPending other
  · obtain ⟨t, hf, hp⟩ := hpending
    rw [abort_of_pending hf hp, find?_finish hf]
    split
    · rename_i heq
      subst heq
      rw [hf]
      exact .aborted t _ hp rfl rfl (.inl rfl)
    · exact follows_of_eq hop rfl
  · obtain ⟨e, he⟩ := abort_refused hpending
    rw [he]
    exact follows_of_eq hop rfl

theorem follows_sweep (s : Service) (h : s.Mirrored) (id : String) :
    Operation.sweep.Follows s id (s.find? id) ((Operation.sweep.apply s).find? id) := by
  have hop : Operation.sweep.created? ≠ some id := fun h => by cases h
  simp only [apply]
  rw [find?_sweep h]
  rcases s.find? id with _ | t
  · exact .unknown hop
  · simp only [Option.bind_some, swept?]
    split
    · exact follows_of_eq hop rfl
    · split
      · exact .aborted t _ ‹_› rfl rfl (.inr rfl)
      · exact .forgotten t ‹_› rfl

theorem follows_create (other : String) (s : Service) (hf : s.find? other = none) (id : String) :
    (Operation.create other).Follows s id (s.find? id)
      (((Operation.create other).apply s).find? id) := by
  simp only [apply]
  rw [find?_create]
  by_cases heq : other = id
  · subst heq
    rw [hf, if_pos rfl]
    exact .created rfl
  · rw [if_neg heq, Option.or_none]
    refine follows_of_eq (fun hop => heq ?_) rfl
    exact Option.some.inj hop

theorem follows_apply (op : Operation) (s : Service) (h : s.Mirrored) (hf : op.Fresh s)
    (id : String) : op.Follows s id (s.find? id) ((op.apply s).find? id) := by
  have hsame : Carried s s := .of_transactions rfl
  cases op with
  | create other => exact follows_create other s hf id
  | stage other change => exact follows_of_rel nofun (carried_stage other change s s hsame id)
  | snapshot other => exact follows_of_rel nofun (carried_snapshot other s s hsame id)
  | commit other => exact follows_commit other s id
  | abort other => exact follows_abort other s id
  | sweep => exact follows_sweep s h id
  | onUnit u call =>
    exact follows_of_rel nofun (call.preserves_run (carried_blindToStore s)
      (fun other => carried_snapshot other s) (fun other change => carried_stage other change s)
      u s hsame id)
  | wait n => exact follows_of_eq nofun rfl
  | disturb store => exact follows_of_eq nofun rfl

/-- A transaction that is committed was pending before. -/
theorem hasCommitted_spec (h : op.hasCommitted id s = true) :
    ∃ t t', s.find? id = some t ∧ t.state = .pending ∧ (op.apply s).find? id = some t' ∧
      t'.state = .committed ∧ op = .commit id := by
  cases op with
  | commit other =>
    simp only [hasCommitted, succeeds] at h
    rw [Bool.and_eq_true, beq_iff_eq] at h
    obtain ⟨rfl, hok⟩ := h
    have hpending : s.IsPending other := by
      by_contra hpending
      obtain ⟨e, he⟩ := commit_refused hpending
      rw [he] at hok
      cases hok
    obtain ⟨t, hf, hp⟩ := hpending
    rcases commit_of_pending hf hp with ⟨e, s₁, -, hc⟩ | ⟨s₁, ha, hc⟩
    · rw [hc] at hok
      cases hok
    · have hf₁ := (find?_of_transactions (transactions_applySet ha).1 other).trans hf
      have hfound := find?_finish hf₁ .committed t.staged other
      rw [if_pos rfl, ← hc] at hfound
      exact ⟨t, _, hf, hp, hfound, rfl, rfl⟩
  | create _ | stage _ _ | snapshot _ | abort _ | sweep | onUnit _ _ | wait _ | disturb _ => cases h

end Operation

end LayeredConfig
