import Mathlib.Data.List.Nodup
import LayeredConfig.Proofs.Service.UnitSteps

/-!
# Claims mirror the pending transactions

The table of claims and the staged sets are kept apart, and every operation has to change
them together: a section of a file is claimed exactly while a pending transaction has staged
a change to it. `Mirrored` is the invariant; each operation keeps it, so every run does.
-/

set_option autoImplicit false

namespace LayeredConfig

open Run

namespace StagedSet

theorem contains_iff (set : StagedSet) (file name : String) :
    set.contains file name = true ↔ ∃ s ∈ set.entries, s.file = file ∧ s.name = name := by
  simp [contains, get?, List.find?_isSome, Staged.hasKey]

theorem exists_stageIn (later : Staged) (entries : List Staged) (file name : String) :
    (∃ s ∈ stageIn later entries, s.file = file ∧ s.name = name) ↔
      (∃ s ∈ entries, s.file = file ∧ s.name = name) ∨ later.file = file ∧ later.name = name := by
  induction entries with
  | nil => simp [stageIn]
  | cons s rest ih =>
    simp only [stageIn]
    split
    · rename_i hk
      obtain ⟨hf, hn⟩ : s.file = later.file ∧ s.name = later.name := by
        simpa [Staged.hasKey] using hk
      simp only [List.mem_cons, exists_eq_or_imp, Staged.absorb, hf, hn]
      rw [or_right_comm, or_self]
    · simp only [List.mem_cons, exists_eq_or_imp, ih, or_assoc]

theorem contains_stage (set : StagedSet) (change : Staged) (file name : String) :
    (set.stage change).contains file name = true ↔
      set.contains file name = true ∨ change.file = file ∧ change.name = name := by
  rw [contains_iff, contains_iff]
  exact exists_stageIn change set.entries file name

@[simp] theorem contains_empty (file name : String) : empty.contains file name = false := rfl

end StagedSet

namespace Claims

def Distinct (c : Claims) : Prop := (c.entries.map fun e => (e.file, e.name)).Nodup

theorem mem_of_holder? (c : Claims) (file name owner : String)
    (h : c.holder? file name = some owner) : ⟨file, name, owner⟩ ∈ c.entries := by
  obtain ⟨e, he, ho⟩ := Option.map_eq_some_iff.mp h
  have hm := List.mem_of_find?_eq_some he
  have hk := List.find?_some he
  simp only [Bool.and_eq_true, beq_iff_eq] at hk
  obtain ⟨rfl, rfl⟩ := hk
  rwa [← ho]

theorem holder?_eq_some_iff (c : Claims) (h : c.Distinct) (file name owner : String) :
    c.holder? file name = some owner ↔ ⟨file, name, owner⟩ ∈ c.entries := by
  refine ⟨c.mem_of_holder? file name owner, fun hm => ?_⟩
  rcases ho : c.holder? file name with _ | other
  · have hn := List.find?_eq_none.mp (Option.map_eq_none_iff.mp ho) _ hm
    simp at hn
  · have hm' := c.mem_of_holder? file name other ho
    rw [(Claim.mk.inj (List.inj_on_of_nodup_map h hm hm' rfl)).2.2]

/-- What is claimed after a claim that was granted. -/
theorem claim_eq_ok (c c' : Claims) (hd : c.Distinct) (s : Staged) (owner : String)
    (h : c.claim s owner = .ok c') :
    c'.Distinct ∧ ∀ x, x ∈ c'.entries ↔ x ∈ c.entries ∨ x = ⟨s.file, s.name, owner⟩ := by
  simp only [claim] at h
  split at h
  · rename_i hnone
    cases h
    refine ⟨?_, fun x => by simp⟩
    simp only [Distinct]
    rw [List.map_append, List.map_singleton, List.nodup_append]
    refine ⟨hd, List.nodup_singleton _, fun a ha b hb hab => ?_⟩
    obtain rfl := List.mem_singleton.mp hb
    obtain ⟨e, he, rfl⟩ := List.mem_map.mp ha
    have hn := List.find?_eq_none.mp (Option.map_eq_none_iff.mp hnone) e he
    simp [(Prod.mk.inj hab).1, (Prod.mk.inj hab).2] at hn
  · rename_i other ho
    split at h
    · rename_i hown
      cases h
      refine ⟨hd, fun x => ⟨.inl, fun hx => ?_⟩⟩
      rcases hx with hx | rfl
      · exact hx
      · rw [← hown]
        exact c.mem_of_holder? _ _ _ ho
    · cases h

theorem mem_release (c : Claims) (owner : String) (x : Claim) :
    x ∈ (c.release owner).entries ↔ x ∈ c.entries ∧ x.owner ≠ owner := by
  simp [release]

theorem distinct_release (c : Claims) (owner : String) (h : c.Distinct) :
    (c.release owner).Distinct :=
  h.sublist (List.filter_sublist.map _)

end Claims

namespace Service

structure Mirrored (s : Service) : Prop where
  ids : (s.transactions.map (·.id)).Nodup
  distinct : s.claims.Distinct
  claimed : ∀ c : Claim, c ∈ s.claims.entries ↔ ∃ t ∈ s.transactions,
    t.id = c.owner ∧ t.state = .pending ∧ t.staged.contains c.file c.name = true

def ledger (s : Service) : List Transaction × Claims := (s.transactions, s.claims)

theorem Mirrored.of_ledger (s s' : Service) (h : s'.ledger = s.ledger) (hs : s.Mirrored) :
    s'.Mirrored := by
  obtain ⟨ht, hc⟩ := Prod.mk.inj h
  refine ⟨?_, ?_, ?_⟩
  · rw [ht]; exact hs.ids
  · rw [hc]; exact hs.distinct
  · rw [ht, hc]; exact hs.claimed

theorem Mirrored.eq_of_id {s : Service} (h : s.Mirrored) (t u : Transaction)
    (ht : t ∈ s.transactions) (hu : u ∈ s.transactions) (hid : t.id = u.id) : t = u :=
  List.inj_on_of_nodup_map h.ids ht hu hid

/-- No section is staged in two pending transactions. -/
theorem Mirrored.eq_of_contains {s : Service} (h : s.Mirrored) {t u : Transaction}
    (ht : t ∈ s.transactions) (hu : u ∈ s.transactions) (htp : t.state = .pending)
    (hup : u.state = .pending) {file name : String} (htk : t.staged.contains file name = true)
    (huk : u.staged.contains file name = true) : t = u := by
  have hct : ⟨file, name, t.id⟩ ∈ s.claims.entries := (h.claimed _).2 ⟨t, ht, rfl, htp, htk⟩
  have hcu : ⟨file, name, u.id⟩ ∈ s.claims.entries := (h.claimed _).2 ⟨u, hu, rfl, hup, huk⟩
  have hid := (Claim.mk.inj (List.inj_on_of_nodup_map h.distinct hct hcu rfl)).2.2
  exact h.eq_of_id t u ht hu hid

theorem id_of_find? {s : Service} {id : String} {t : Transaction} (h : s.find? id = some t) :
    t.id = id := by simpa using List.find?_some h

theorem Mirrored.find?_eq_some {s : Service} (h : s.Mirrored) (id : String) (t : Transaction) :
    s.find? id = some t ↔ t ∈ s.transactions ∧ t.id = id := by
  constructor
  · intro hf
    exact ⟨List.mem_of_find?_eq_some hf, id_of_find? hf⟩
  · rintro ⟨hm, rfl⟩
    rcases hf : s.find? t.id with _ | u
    · have := List.find?_eq_none.mp hf t hm
      simp at this
    · rw [h.eq_of_id u t (List.mem_of_find?_eq_some hf) hm (id_of_find? hf)]

theorem mem_put (s : Service) (t x : Transaction) :
    x ∈ (s.put t).transactions ↔
      x ∈ s.transactions ∧ x.id ≠ t.id ∨ x = t ∧ ∃ old ∈ s.transactions, old.id = t.id := by
  simp only [put]
  simp only [List.mem_map]
  constructor
  · rintro ⟨old, ho, hx⟩
    split at hx
    · rename_i hid
      exact .inr ⟨hx.symm, old, ho, hid⟩
    · rename_i hid
      subst hx
      exact .inl ⟨ho, hid⟩
  · rintro (⟨hx, hid⟩ | ⟨rfl, old, ho, hid⟩)
    · exact ⟨x, hx, if_neg hid⟩
    · exact ⟨old, ho, if_pos hid⟩

@[simp] theorem ids_put (s : Service) (t : Transaction) :
    (s.put t).transactions.map (·.id) = s.transactions.map (·.id) := by
  simp only [put]
  rw [List.map_map]
  apply List.map_congr_left
  intro old _
  simp only [Function.comp_apply]
  split
  · rename_i hid
    exact hid.symm
  · rfl

theorem find?_put {s : Service} {id : String} {t t' : Transaction} (h : s.find? id = some t)
    (hid : t'.id = t.id) : (s.put t').find? id = some t' := by
  simp only [find?, put] at h ⊢
  generalize s.transactions = transactions at h ⊢
  induction transactions with
  | nil => cases h
  | cons old rest ih =>
    rw [List.map_cons]
    by_cases hold : old.id = id
    · rw [List.find?_cons, beq_iff_eq.mpr hold] at h
      cases h
      have hid' : t'.id = id := hid.trans hold
      rw [if_pos hid.symm, List.find?_cons, beq_iff_eq.mpr hid']
    · rw [List.find?_cons, beq_eq_false_iff_ne.mpr hold] at h
      have ht : t.id = id := by simpa using List.find?_some h
      have hne : old.id ≠ t'.id := by rwa [hid, ht]
      rw [if_neg hne, List.find?_cons, beq_eq_false_iff_ne.mpr hold]
      exact ih h

theorem find?_put_of_ne {s : Service} {id : String} {t : Transaction} (hne : t.id ≠ id) :
    (s.put t).find? id = s.find? id := by
  simp only [find?, put]
  induction s.transactions with
  | nil => rfl
  | cons old rest ih =>
    rw [List.map_cons, List.find?_cons, List.find?_cons, ih]
    by_cases hold : old.id = t.id
    · rw [if_pos hold, beq_eq_false_iff_ne.mpr hne, hold, beq_eq_false_iff_ne.mpr hne]
    · rw [if_neg hold]

theorem pendingTransaction_apply (id : String) (s : Service) :
    pendingTransaction id s = (match s.find? id with
      | none => .error (.notFound (.transaction id))
      | some t => if t.state = .pending then .ok t else .error (.transactionState t.id t.state),
        s) := by
  simp only [pendingTransaction, getTransaction]
  rw [bind_apply, get_bind]
  rcases s.find? id with _ | t
  · rfl
  · dsimp only
    rw [pure_apply]
    dsimp only
    by_cases hp : t.state = .pending
    · rw [if_pos hp, if_pos hp]
      rfl
    · rw [if_neg hp, if_neg hp]
      rfl

theorem pendingTransaction_of_find? {s : Service} {id : String} {t : Transaction}
    (hf : s.find? id = some t) (hp : t.state = .pending) :
    pendingTransaction id s = (.ok t, s) := by
  rw [pendingTransaction_apply, hf]
  dsimp only
  rw [if_pos hp]

theorem pendingTransaction_eq_ok {s s' : Service} {id : String} {t : Transaction}
    (h : pendingTransaction id s = (.ok t, s')) :
    s.find? id = some t ∧ t.state = .pending ∧ s' = s := by
  rw [pendingTransaction_apply] at h
  obtain ⟨hanswer, rfl⟩ := Prod.mk.inj h
  rcases hf : s.find? id with _ | u
  · rw [hf] at hanswer
    cases hanswer
  · rw [hf] at hanswer
    dsimp only at hanswer
    split at hanswer
    · rename_i hp
      cases hanswer
      exact ⟨rfl, hp, rfl⟩
    · cases hanswer

theorem pendingTransaction_cases (id : String) (s : Service) :
    (∃ e, pendingTransaction id s = (.error e, s)) ∨
      ∃ t, s.find? id = some t ∧ t.state = .pending ∧ pendingTransaction id s = (.ok t, s) := by
  rcases hanswer : pendingTransaction id s with ⟨e | t, s'⟩
  · have hsame := congrArg Prod.snd hanswer
    rw [pendingTransaction_apply] at hsame
    exact .inl ⟨e, congrArg (Prod.mk _) hsame.symm⟩
  · obtain ⟨hf, hp, rfl⟩ := pendingTransaction_eq_ok hanswer
    exact .inr ⟨t, hf, hp, rfl⟩

/-- What begins with a pending transaction has to be looked at for such transactions only. -/
theorem preserves_pending {α : Type} {good : Service → Prop} (id : String)
    (f : Transaction → ServiceM α)
    (hf : ∀ t s, good s → s.find? id = some t → t.state = .pending → good (f t s).2) :
    Preserves good (pendingTransaction id >>= f) := by
  intro s h
  rw [bind_apply]
  rcases pendingTransaction_cases id s with ⟨e, he⟩ | ⟨t, hfound, hp, he⟩
  · rw [he]
    exact h
  · rw [he]
    exact hf t s h hfound hp

/-- Replacing a pending transaction by a pending one, with the claims that it has then. -/
theorem Mirrored.replaced {s : Service} (h : s.Mirrored) (t t' : Transaction)
    (ht : t ∈ s.transactions) (hid : t'.id = t.id) (hp : t'.state = .pending) (claims : Claims)
    (hd : claims.Distinct)
    (hc : ∀ x, x ∈ claims.entries ↔ x ∈ s.claims.entries ∧ x.owner ≠ t.id ∨
      x.owner = t.id ∧ t'.staged.contains x.file x.name = true) :
    Mirrored ({ s with claims := claims }.put t') := by
  refine ⟨?_, hd, fun x => ?_⟩
  · rw [ids_put]; exact h.ids
  · change x ∈ claims.entries ↔ _
    simp only [mem_put, hc, h.claimed]
    constructor
    · rintro (⟨⟨u, hu, ho, hup, hk⟩, hne⟩ | ⟨ho, hk⟩)
      · exact ⟨u, .inl ⟨hu, by rw [hid, ho]; exact hne⟩, ho, hup, hk⟩
      · exact ⟨t', .inr ⟨rfl, t, ht, hid.symm⟩, hid.trans ho.symm, hp, hk⟩
    · rintro ⟨u, ⟨hu, hne⟩ | ⟨rfl, -⟩, ho, hup, hk⟩
      · exact .inl ⟨⟨u, hu, ho, hup, hk⟩, by rw [← ho, ← hid]; exact hne⟩
      · exact .inr ⟨ho.symm.trans hid, hk⟩

/-- A transaction that is no longer pending has no claims. -/
theorem Mirrored.finished {s : Service} (h : s.Mirrored) (t' : Transaction)
    (hp : t'.state ≠ .pending) :
    Mirrored { s.put t' with claims := s.claims.release t'.id } := by
  refine ⟨?_, s.claims.distinct_release _ h.distinct, fun x => ?_⟩
  · exact (ids_put s t').symm ▸ h.ids
  · change x ∈ (s.claims.release t'.id).entries ↔ ∃ u ∈ (s.put t').transactions, _
    simp only [Claims.mem_release, mem_put, h.claimed]
    constructor
    · rintro ⟨⟨u, hu, ho, hup, hk⟩, hne⟩
      exact ⟨u, .inl ⟨hu, by rw [ho]; exact hne⟩, ho, hup, hk⟩
    · rintro ⟨u, ⟨hu, hne⟩ | ⟨rfl, -⟩, ho, hup, hk⟩
      · exact ⟨⟨u, hu, ho, hup, hk⟩, by rw [← ho]; exact hne⟩
      · exact absurd hup hp

theorem Mirrored.claimed_by {s : Service} (h : s.Mirrored) (t : Transaction)
    (ht : t ∈ s.transactions) (hp : t.state = .pending) (x : Claim) (ho : x.owner = t.id) :
    x ∈ s.claims.entries ↔ t.staged.contains x.file x.name = true := by
  rw [h.claimed]
  constructor
  · rintro ⟨u, hu, huo, -, hk⟩
    rwa [h.eq_of_id t u ht hu (ho.symm.trans huo.symm)]
  · exact fun hk => ⟨t, ht, ho.symm, hp, hk⟩

theorem mirrored_new (store : Store) (registry : Registry) (idleSeconds now : Nat) :
    Mirrored (.new store registry idleSeconds now) where
  ids := List.nodup_nil
  distinct := List.nodup_nil
  claimed c := by simp [new, Claims.empty]

theorem mirrored_create (id : String) (s : Service) (h : s.Mirrored) (hf : s.find? id = none) :
    Mirrored (create id s).2 := by
  refine ⟨?_, h.distinct, fun x => ?_⟩
  · change ((s.transactions ++ [(⟨id, .pending, s.now, .empty⟩ : Transaction)]).map (·.id)).Nodup
    rw [List.map_append, List.map_singleton, List.nodup_append]
    refine ⟨h.ids, List.nodup_singleton _, fun a ha b hb hab => ?_⟩
    obtain rfl := List.mem_singleton.mp hb
    obtain ⟨t, ht, rfl⟩ := List.mem_map.mp ha
    have hn := List.find?_eq_none.mp hf t ht
    simp [hab] at hn
  · change x ∈ s.claims.entries ↔ ∃ t ∈ s.transactions ++ [⟨id, .pending, s.now, .empty⟩], _
    rw [h.claimed]
    simp [or_and_right, exists_or]

theorem preserves_snapshot (id : String) : Preserves Mirrored (snapshot id) := by
  apply preserves_pending
  intro t s h hf hp
  have ht := List.mem_of_find?_eq_some hf
  refine h.replaced t { t with lastActivity := s.now } ht rfl hp s.claims h.distinct fun x => ?_
  by_cases ho : x.owner = t.id
  · simp [ho, h.claimed_by t ht hp x ho]
  · simp [ho]

theorem preserves_stage (id : String) (change : Staged) : Preserves Mirrored (stage id change) := by
  apply preserves_pending
  intro t s h hf hp
  obtain ⟨ht, hid⟩ := (h.find?_eq_some id t).1 hf
  rw [get_bind, bind_apply]
  rcases hc : s.claims.claim change id with e | claims
  · exact h
  · obtain ⟨hd, hmem⟩ := s.claims.claim_eq_ok claims h.distinct change id hc
    refine h.replaced t { t with staged := t.staged.stage change, lastActivity := s.now } ht rfl
      hp claims hd fun x => ?_
    rw [hmem, StagedSet.contains_stage]
    by_cases ho : x.owner = t.id
    · rw [h.claimed_by t ht hp x ho]
      obtain ⟨file, name, owner⟩ := x
      simp only [hid, Claim.mk.injEq, ne_eq]
      grind
    · have : x ≠ ⟨change.file, change.name, id⟩ := fun hx => ho (by rw [hx, hid])
      simp [ho, this]

theorem keeps_applySet (set : StagedSet) (owner : Option String) :
    Keeps ledger (applySet set owner) := by
  simp only [applySet]
  exact keeps_bind keeps_get fun _ => keeps_bind (fun _ => rfl) fun _ _ => rfl

theorem preserves_commit (id : String) : Preserves Mirrored (commit id) := by
  apply preserves_pending
  intro t s h _ _
  rw [bind_apply]
  have hk := keeps_applySet t.staged (some id) s
  rcases ha : applySet t.staged (some id) s with ⟨e | u, s'⟩
  all_goals rw [ha] at hk
  · exact h.of_ledger _ _ hk
  · exact (h.of_ledger _ _ hk).finished { t with state := .committed, lastActivity := s'.now }
      (by simp)

theorem preserves_abort (id : String) : Preserves Mirrored (abort id) := by
  apply preserves_pending
  intro t s h _ _
  exact h.finished { t with state := .aborted, staged := .empty, lastActivity := s.now } (by simp)

theorem mem_foldl_release (expired : List Transaction) (c : Claims) (x : Claim) :
    x ∈ (expired.foldl (fun claims t => claims.release t.id) c).entries ↔
      x ∈ c.entries ∧ ∀ t ∈ expired, x.owner ≠ t.id := by
  induction expired generalizing c with
  | nil => simp
  | cons t rest ih =>
    rw [List.foldl_cons, ih, Claims.mem_release, List.forall_mem_cons, and_assoc]

theorem distinct_foldl_release (expired : List Transaction) (c : Claims) (h : c.Distinct) :
    (expired.foldl (fun claims t => claims.release t.id) c).Distinct := by
  induction expired generalizing c with
  | nil => exact h
  | cons t rest ih => exact ih _ (c.distinct_release t.id h)

theorem ids_sweepList (s : Service) (ts : List Transaction) :
    ((s.sweepList ts).map (·.id)).Sublist (ts.map (·.id)) := by
  induction ts with
  | nil => exact List.Sublist.refl _
  | cons t rest ih =>
    simp only [sweepList]
    split
    · exact ih.cons_cons t.id
    · split
      · exact ih.cons_cons t.id
      · exact ih.cons t.id

theorem mem_sweepList_pending (s : Service) (ts : List Transaction) (t : Transaction) :
    (t ∈ s.sweepList ts ∧ t.state = .pending) ↔
      t ∈ ts ∧ s.isIdle t = false ∧ t.state = .pending := by
  induction ts with
  | nil => simp [sweepList]
  | cons u rest ih =>
    simp only [sweepList]
    split
    · rename_i hu
      simp only [List.mem_cons, or_and_right, ih]
      refine or_congr_left ⟨?_, fun h => ⟨h.1, h.2.2⟩⟩
      rintro ⟨rfl, hp⟩
      exact ⟨rfl, by simpa using hu, hp⟩
    · rename_i hu
      have hidle : ¬ (t = u ∧ s.isIdle t = false ∧ t.state = .pending) := by
        rintro ⟨rfl, hi, -⟩
        simp [hi] at hu
      split
      · simp only [List.mem_cons, or_and_right, ih, hidle, false_or]
        refine or_iff_right ?_
        rintro ⟨rfl, hp⟩
        cases hp
      · simp only [List.mem_cons, or_and_right, ih, hidle, false_or]

theorem mirrored_sweep (s : Service) (h : s.Mirrored) : Mirrored s.sweep.1 := by
  refine ⟨h.ids.sublist (ids_sweepList s s.transactions), ?_, fun x => ?_⟩
  · exact distinct_foldl_release s.expired s.claims h.distinct
  · change x ∈ (s.expired.foldl _ s.claims).entries ↔ ∃ t ∈ s.sweepList s.transactions, _
    rw [mem_foldl_release, h.claimed]
    constructor
    · rintro ⟨⟨t, ht, ho, hp, hk⟩, hexp⟩
      have hi : s.isIdle t = false := by
        by_contra hi
        exact hexp t (by simp [expired, ht, hp, hi]) ho.symm
      have := (mem_sweepList_pending s s.transactions t).2 ⟨ht, hi, hp⟩
      exact ⟨t, this.1, ho, hp, hk⟩
    · rintro ⟨t, ht, ho, hp, hk⟩
      obtain ⟨ht, hi, -⟩ := (mem_sweepList_pending s s.transactions t).1 ⟨ht, hp⟩
      refine ⟨⟨t, ht, ho, hp, hk⟩, fun u hu hxu => ?_⟩
      simp only [expired, List.mem_filter, Bool.and_eq_true, beq_iff_eq] at hu
      rw [h.eq_of_id t u ht hu.1 (ho.trans hxu), hu.2.1] at hi
      cases hi

theorem mirrored_blindToStore : BlindToStore Mirrored := fun s _ h => h.of_ledger s _ rfl

end Service

namespace Operation

theorem mirrored_apply (op : Operation) (s : Service) (h : s.Mirrored) (hf : op.Fresh s) :
    (op.apply s).Mirrored := by
  cases op with
  | create id => exact Service.mirrored_create id s h hf
  | stage id change => exact Service.preserves_stage id change s h
  | snapshot id => exact Service.preserves_snapshot id s h
  | commit id => exact Service.preserves_commit id s h
  | abort id => exact Service.preserves_abort id s h
  | sweep => exact Service.mirrored_sweep s h
  | onUnit u call =>
    exact call.preserves_run Service.mirrored_blindToStore Service.preserves_snapshot
      Service.preserves_stage u s h
  | wait n => exact h.of_ledger s _ rfl
  | disturb store => exact h.of_ledger s _ rfl

theorem mirrored_run (ops : List Operation) (s : Service) (h : s.Mirrored)
    (hf : FreshRun ops s) : (run ops s).Mirrored := by
  induction ops generalizing s with
  | nil => exact h
  | cons op ops ih => exact ih _ (op.mirrored_apply s h hf.1) hf.2

end Operation

/-- In every state that a service reaches, a section of a file is claimed by a transaction just
when that one is known and pending and has staged a change to the section. So no section is
staged in two pending transactions, and no claim outlives its transaction. -/
theorem claims_mirror_pending (store : Store) (registry : Registry) (idleSeconds now : Nat)
    (ops : List Operation) (hf : Operation.FreshRun ops (.new store registry idleSeconds now)) :
    let s := Operation.run ops (.new store registry idleSeconds now)
    (∀ file name owner, s.claims.holder? file name = some owner ↔
      ∃ t, s.find? owner = some t ∧ t.state = .pending ∧ t.staged.contains file name = true) ∧
    (∀ t ∈ s.transactions, ∀ u ∈ s.transactions, t.state = .pending → u.state = .pending →
      ∀ file name, t.staged.contains file name = true → u.staged.contains file name = true →
        t = u) ∧
    ∀ c ∈ s.claims.entries, ∃ t, s.find? c.owner = some t ∧ t.state = .pending := by
  intro s
  have h : s.Mirrored :=
    Operation.mirrored_run ops _ (Service.mirrored_new store registry idleSeconds now) hf
  refine ⟨fun file name owner => ?_, ?_, ?_⟩
  · rw [Claims.holder?_eq_some_iff _ h.distinct, h.claimed]
    constructor
    · rintro ⟨t, ht, ho, hp, hk⟩
      exact ⟨t, (h.find?_eq_some owner t).2 ⟨ht, ho⟩, hp, hk⟩
    · rintro ⟨t, hf, hp, hk⟩
      obtain ⟨ht, ho⟩ := (h.find?_eq_some owner t).1 hf
      exact ⟨t, ht, ho, hp, hk⟩
  · intro t ht u hu htp hup file name htk huk
    exact h.eq_of_contains ht hu htp hup htk huk
  · intro c hc
    obtain ⟨t, ht, ho, hp, -⟩ := (h.claimed c).1 hc
    exact ⟨t, (h.find?_eq_some c.owner t).2 ⟨ht, ho⟩, hp⟩

def takeover : List Operation :=
  let edit : Mutation := .replace (.obj [("enabled", .bool true)])
  [.create "first", .onUnit (.new (some "first")) (.stage .global "directory_browse" edit),
    .create "second", .onUnit (.new (some "second")) (.stage .global "directory_browse" edit),
    .wait (901 * Service.nanosPerSecond), .snapshot "second", .sweep,
    .onUnit (.new (some "second")) (.stage .global "directory_browse" edit)]

theorem claims_mirror_pending_takeover :
    Operation.FreshRun takeover (.new ⟨[], .empty, []⟩ .builtin 900 0) ∧
      ∃ t, (Operation.run takeover (.new ⟨[], .empty, []⟩ .builtin 900 0)).find? "second" = some t ∧
        t.state = .pending ∧ t.staged.contains "host.toml" "directory_browse" = true := by
  have hf : Operation.FreshRun takeover (.new ⟨[], .empty, []⟩ .builtin 900 0) := by
    decide +kernel
  have h : (Operation.run takeover (.new ⟨[], .empty, []⟩ .builtin 900 0)).claims.holder?
      "host.toml" "directory_browse" = some "second" := by decide +kernel
  exact ⟨hf, ((claims_mirror_pending ⟨[], .empty, []⟩ .builtin 900 0 takeover hf).1 _ _ _).1 h⟩

end LayeredConfig
