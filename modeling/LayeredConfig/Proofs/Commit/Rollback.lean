import LayeredConfig.Proofs.Commit.UnderWay
import LayeredConfig.Proofs.Store.Reading
import LayeredConfig.Service

/-!
# A commit that fails changes nothing

Every step of a commit keeps `UnderWay`, whether it succeeds or fails, and giving the
journal back ends it. A commit may fail at a claim, at a check, at a lock, at a file that cannot be
read, rendered or written; in each case the tree shows what it showed before.
-/

set_option autoImplicit false

namespace LayeredConfig.Journal

open Run

def RestoreSucceeds (entry : JournalEntry) (s : Store) : Prop :=
  match entry.before with
  | some text => (Store.write entry.lease text s).1 = .ok ()
  | none => (Store.remove entry.lease s).1 = .ok ()

def RollbackSucceeds : List JournalEntry → Store → Prop
  | [], _ => True
  | entry :: rest, s => RestoreSucceeds entry s ∧
      RollbackSucceeds rest (after (Store.release entry.lease) (restore entry s))

instance (entry : JournalEntry) (s : Store) : Decidable (RestoreSucceeds entry s) := by
  unfold RestoreSucceeds
  split <;> infer_instance

instance decidableRollbackSucceeds :
    ∀ (journal : List JournalEntry) (s : Store), Decidable (RollbackSucceeds journal s)
  | [], _ => isTrue trivial
  | entry :: rest, s =>
    have := decidableRollbackSucceeds rest (after (Store.release entry.lease) (restore entry s))
    inferInstanceAs (Decidable (_ ∧ _))

variable {s₀ : Store} {files : List String} {p : Progress}

theorem onStore_apply {α : Type} (x : ConfigM α) (p : Progress) :
    onStore x p = ((x p.store).1, { p with store := (x p.store).2 }) := rfl

/-- A lease is refused, which leaves the view of the tree as it was, or it is an old one of the
commit, or a new one that joins the journal. -/
theorem lease_outcome (sectionPath file : String) (p : Progress) :
    (∃ e s', lease sectionPath file p = (.error e, { p with store := s' }) ∧
        s'.root = p.store.root ∧ ∀ path, s'.tree.get? path = p.store.tree.get? path) ∨
      (∃ entry ∈ p.journal, lease sectionPath file p = (.ok entry.lease, p) ∧
        entry.lease.file = file) ∨
      ∃ entry q s', lease sectionPath file p = (.ok entry.lease, ⟨s', entry :: p.journal⟩) ∧
        entry.lease.file = file ∧ s'.root = p.store.root ∧
        TakenFrom p.store.root p.store.tree entry q ∧
        (∀ path, s'.tree.get? path =
          if entry.lease.lock = path then some (.file (.text "")) else p.store.tree.get? path) ∧
        ∀ e ∈ p.journal, e.lease.file ≠ file := by
  simp only [lease]
  rw [get_bind]
  rcases hj : p.journal.find? (·.lease.file == file) with _ | entry
  · rw [hj]
    dsimp only
    rw [bind_apply, onStore_apply, Access.onSection_apply]
    rcases takeLease_cases file p.store with
      ⟨e, s', ht, hr, hv⟩ | ⟨entry, q, s', ht, hn, hr, htaken, hv⟩
    · rw [ht]
      exact .inl ⟨_, s', rfl, hr, hv⟩
    · rw [ht]
      refine .inr (.inr ⟨entry, q, s', rfl, hn, hr, htaken, hv, fun e he heq => ?_⟩)
      exact List.find?_eq_none.mp hj e he (by rw [heq]; exact beq_self_eq_true file)
  · rw [hj]
    have hm := List.mem_of_find?_eq_some hj
    have hn : entry.lease.file = file := by simpa using List.find?_some hj
    exact .inr (.inl ⟨entry, hm, rfl, hn⟩)

theorem mem_journal_of_lease {sectionPath file : String} {p p' : Progress} {l : Lease}
    (h : lease sectionPath file p = (.ok l, p')) : ∃ entry ∈ p'.journal, entry.lease = l := by
  rcases lease_outcome sectionPath file p with
    ⟨e, s', hl, -⟩ | ⟨entry, he, hl, -⟩ | ⟨entry, q, s', hl, -⟩
  · rw [hl] at h
    cases h
  · rw [hl] at h
    cases h
    exact ⟨entry, he, rfl⟩
  · rw [hl] at h
    cases h
    exact ⟨entry, List.mem_cons_self, rfl⟩

structure Steady (files : List String) (good : Progress → Prop) : Prop where
  reading : ∀ p s, s.files = p.store.files → good p → good { p with store := s }
  leasing : ∀ p sectionPath, ∀ file ∈ files, good p → good (lease sectionPath file p).2
  writing : ∀ p, ∀ entry ∈ p.journal, ∀ text, good p →
    good { p with store := (Store.write entry.lease text p.store).2 }

namespace Steady

variable {good : Progress → Prop}

theorem applyEntry (h : Steady files good) (registry : Registry) {s : Staged}
    (hf : s.file ∈ files) : Preserves good (applyEntry registry s) := by
  intro p hp
  simp only [Journal.applyEntry]
  rw [bind_apply, onStore_apply]
  rcases hc : Access.checkWrite registry none s.scope s.name s.mutation p.store with
    ⟨e | target, s₁⟩
  all_goals have h₁ := h.reading p s₁ ((Access.keeps_checkWrite _ _ _ _ _).of_eq hc) hp
  · exact h₁
  dsimp only
  by_cases ht : target.file = s.file
  swap
  · rw [if_pos ht]
    exact h₁
  rw [if_neg (not_not_intro ht), bind_apply, ht]
  have h₂ := h.leasing _ s.sectionPath s.file hf h₁
  rcases hl : lease s.sectionPath s.file { p with store := s₁ } with ⟨e | l, p₂⟩
  all_goals rw [hl] at h₂
  · exact h₂
  obtain ⟨entry, he, rfl⟩ := mem_journal_of_lease hl
  dsimp only
  rw [bind_apply, onStore_apply]
  rcases hd : Access.load none s.file p₂.store with ⟨e | d, s₃⟩
  all_goals have h₃ := h.reading p₂ s₃ ((Access.keeps_load none s.file).of_eq hd) h₂
  · exact h₃
  dsimp only
  rcases (s.mutation.apply s.name d).render with fault | text
  · exact h₃
  · have h₄ := h.writing { p₂ with store := s₃ } entry he text h₃
    dsimp only
    rw [onStore_apply, Access.onSection_apply]
    dsimp only at h₄ ⊢
    rcases hw : Store.write entry.lease text s₃ with ⟨e | u, s₄⟩
    all_goals rw [hw] at h₄; exact h₄

theorem applyEntries (h : Steady files good) (registry : Registry) (entries : List Staged)
    (hf : ∀ s ∈ entries, s.file ∈ files) : Preserves good (applyEntries registry entries) := by
  induction entries with
  | nil => exact preserves_pure _
  | cons s rest ih =>
    obtain ⟨hs, hrest⟩ := List.forall_mem_cons.mp hf
    exact preserves_bind (h.applyEntry registry hs) fun _ => ih hrest

end Steady

namespace UnderWay

theorem of_files (h : UnderWay s₀ files p) (s : Store) (hs : s.files = p.store.files) :
    UnderWay s₀ files { p with store := s } := by
  obtain ⟨hr, ht⟩ := Store.files_eq _ _ hs
  exact h.of_view s hr fun path => by rw [ht]

theorem lease_cases (h : UnderWay s₀ files p) (ha : Apart s₀.root s₀.tree files)
    (sectionPath file : String) (hf : file ∈ files) :
    (∃ e p', lease sectionPath file p = (.error e, p') ∧ UnderWay s₀ files p') ∨
      ∃ entry q p', lease sectionPath file p = (.ok entry.lease, p') ∧ entry ∈ p'.journal ∧
        entry.lease.file = file ∧ Place.ofPath? s₀.root file = some q ∧ UnderWay s₀ files p' ∧
        ∀ path, p'.store.tree.get? path =
          if entry.lease.lock = path then some (.file (.text "")) else p.store.tree.get? path := by
  rcases lease_outcome sectionPath file p with
    ⟨e, s', hl, hr, hv⟩ | ⟨entry, he, hl, hn⟩ | ⟨entry, q, s', hl, hn, hr, htaken, hv, -⟩
  · exact .inl ⟨e, _, hl, h.of_view s' hr hv⟩
  · obtain ⟨q, hq⟩ := (h.taken entry he).2
    refine .inr ⟨entry, q, p, hl, he, hn, hn ▸ hq.place, h, fun path => ?_⟩
    split
    · rename_i hlock
      rw [← hlock, h.locked entry he]
    · rfl
  · rw [h.root] at htaken
    have hfile : entry.lease.file ∈ files := by rw [hn]; exact hf
    exact .inr ⟨entry, q, _, hl, List.mem_cons_self, hn, hn ▸ htaken.place,
      h.leased ha entry hfile q htaken s' hr hv, hv⟩

theorem write_cases (h : UnderWay s₀ files p) (ha : Apart s₀.root s₀.tree files)
    (entry : JournalEntry) (he : entry ∈ p.journal) (text : String) :
    (∃ e s', Store.write entry.lease text p.store = (.error e, s') ∧ s'.root = p.store.root ∧
        ∀ path, s'.tree.get? path = p.store.tree.get? path) ∨
      ∃ q s', Place.ofPath? s₀.root entry.lease.file = some q ∧
        Store.write entry.lease text p.store = (.ok (), s') ∧ s'.root = p.store.root ∧
        ∀ path, s'.tree.get? path =
          if q.names = path then some (.file (.text text)) else p.store.tree.get? path := by
  have hfree : ∀ q, Place.ofPath? p.store.root entry.lease.file = some q →
      ∀ c, p.store.tree.get? (q.sibling ".tmp").names ≠ some (.file c) ∧
        q.names ≠ (q.sibling ".tmp").names := by
    intro q hq c
    rw [h.root] at hq
    have hf := (h.taken entry he).1
    rw [h.temporary_frame ha _ hf q hq]
    exact ⟨ha.temporary _ hf q hq c, (ha.siblings _ hf _ hf q q hq hq).1⟩
  rcases Store.write_cases entry.lease text p.store hfree with hfail | ⟨q, s', hq, hw, hr, -, hv⟩
  · exact .inl hfail
  · rw [h.root] at hq
    exact .inr ⟨q, s', hq, hw, hr, hv⟩

/-- A commit stays under way from step to step. -/
theorem steady (ha : Apart s₀.root s₀.tree files) : Steady files (UnderWay s₀ files) where
  reading _ s hs h := h.of_files s hs
  leasing p sectionPath file hf h := by
    rcases h.lease_cases ha sectionPath file hf with ⟨e, p', hl, h'⟩ | ⟨entry, q, p', hl, -, -, -, h', -⟩
    all_goals rw [hl]; exact h'
  writing p entry he text h := by
    rcases h.write_cases ha entry he text with ⟨e, s', hw, hr, hv⟩ | ⟨q, s', hq, hw, hr, hv⟩
    · rw [hw]
      exact h.of_view s' hr hv
    · rw [hw]
      exact h.changed ha entry he q hq s' _ (by simp) hr hv

/-- The set keeps the state of the commit, also where one of its entries is refused. -/
theorem applyEntries_keeps (registry : Registry) (entries : List Staged) (p : Progress)
    (h : UnderWay s₀ files p) (ha : Apart s₀.root s₀.tree files)
    (hf : ∀ s ∈ entries, s.file ∈ files) :
    UnderWay s₀ files (applyEntries registry entries p).2 :=
  (steady ha).applyEntries registry entries hf p h

theorem restore_view (h : UnderWay s₀ files p) (ha : Apart s₀.root s₀.tree files)
    (entry : JournalEntry) (he : entry ∈ p.journal) (hs : RestoreSucceeds entry p.store)
    (q : Place) (hq : TakenFrom s₀.root s₀.tree entry q) :
    (restore entry p.store).root = p.store.root ∧
      ∀ path, (restore entry p.store).tree.get? path =
        if q.names = path then s₀.tree.get? q.names else p.store.tree.get? path := by
  simp only [RestoreSucceeds] at hs
  simp only [restore, after]
  rcases hb : entry.before with _ | text
  · rw [hb] at hs
    dsimp only at hs ⊢
    rcases Store.remove_cases entry.lease p.store with ⟨e, s', hw, -⟩ | ⟨r, s', hr, hw, hroot, ht⟩
    · rw [hw] at hs; cases hs
    · rw [h.root, hq.place] at hr
      obtain rfl := Option.some.inj hr
      have hbefore : s₀.tree.get? q.names = none := by rw [hq.before, hb]; rfl
      rw [hw]
      refine ⟨hroot, fun path => ?_⟩
      dsimp only
      rcases ht with ⟨ht, hnone⟩ | ⟨-, -, ht⟩
      · rw [ht]
        split
        · rename_i hn
          rw [← hn, hbefore]
          exact hnone ((FileTree.walk_congr _ _ _ _ h.sameDirectories).1 hq.walked)
        · rfl
      · rw [ht, FileTree.get?_erase _ _ _ hq.named, hbefore]
  · rw [hb] at hs
    dsimp only at hs ⊢
    rcases h.write_cases ha entry he text with ⟨e, s', hw, -⟩ | ⟨r, s', hr, hw, hroot, hv⟩
    · rw [hw] at hs; cases hs
    · obtain rfl := Option.some.inj (hr.symm.trans hq.place)
      rw [hw]
      refine ⟨hroot, fun path => ?_⟩
      dsimp only
      rw [hv, hq.before, hb]
      rfl

theorem release_view (h : UnderWay s₀ files p) (entry : JournalEntry) (he : entry ∈ p.journal) :
    (after (Store.release entry.lease) p.store).root = p.store.root ∧
      ∀ path, (after (Store.release entry.lease) p.store).tree.get? path =
        if entry.lease.lock = path then none else p.store.tree.get? path := by
  obtain ⟨q, hq⟩ := (h.taken entry he).2
  have hne : entry.lease.lock ≠ [] := by rw [hq.lock]; exact q.sibling_ne_nil ".lock"
  have hwalk : p.store.tree.walk [] entry.lease.lock.dropLast = .ok () := by
    rw [hq.lock, q.sibling_dropLast]
    exact (FileTree.walk_congr _ _ _ _ h.sameDirectories).1 hq.walked
  have hentry : p.store.tree.entry entry.lease.lock = .ok (.file (.text "")) :=
    FileTree.entry_of_get? _ s₀.tree _ _ (by rw [hq.free]; simp) (h.locked entry he)
  simp only [after]
  rw [Store.release_apply entry.lease p.store _ hwalk hentry]
  exact ⟨rfl, fun path => FileTree.get?_erase _ _ _ hne⟩

end UnderWay

/-- Giving the whole journal back restores the view of the tree. -/
theorem rollback_view (journal : List JournalEntry) (s : Store)
    (h : UnderWay s₀ files ⟨s, journal⟩) (ha : Apart s₀.root s₀.tree files)
    (hs : RollbackSucceeds journal s) (path : Names) :
    (rollback journal s).tree.get? path = s₀.tree.get? path := by
  induction journal generalizing s with
  | nil =>
    apply h.frame path
    rintro ⟨e, he, -⟩
    cases he
  | cons entry rest ih =>
    obtain ⟨q, hq⟩ := (h.taken entry List.mem_cons_self).2
    obtain ⟨hroot, hview⟩ := h.restore_view ha entry List.mem_cons_self hs.1 q hq
    have h₁ : UnderWay s₀ files ⟨restore entry s, entry :: rest⟩ :=
      h.changed ha entry List.mem_cons_self q hq.place (restore entry s) _
        (h.before_ne_directory entry List.mem_cons_self q hq.place) hroot hview
    obtain ⟨hroot₂, hview₂⟩ := h₁.release_view entry List.mem_cons_self
    refine ih _ (h.returned entry rest s _ ha q hq.place (hroot₂.trans hroot) fun path => ?_) hs.2
    rw [hview₂]
    split
    · rfl
    · exact hview path

def RollbackSound (registry : Registry) (entries : List Staged) (s : Store) : Prop :=
  ∀ e p, applyEntries registry entries ⟨s, []⟩ = (.error e, p) → RollbackSucceeds p.journal p.store

theorem rollbackSound_iff (registry : Registry) (entries : List Staged) (s : Store) :
    ((applyEntries registry entries ⟨s, []⟩).1.isOk ∨
      RollbackSucceeds (applyEntries registry entries ⟨s, []⟩).2.journal
        (applyEntries registry entries ⟨s, []⟩).2.store) ↔ RollbackSound registry entries s := by
  simp only [RollbackSound]
  rcases applyEntries registry entries ⟨s, []⟩ with ⟨e | u, p⟩
  · constructor
    · rintro (hf | h) e' p' he
      · cases hf
      · cases he
        exact h
    · exact fun h => .inr (h e p rfl)
  · exact ⟨fun _ e' p' he => (by cases he), fun _ => .inl rfl⟩

instance (registry : Registry) (entries : List Staged) (s : Store) :
    Decidable (RollbackSound registry entries s) :=
  decidable_of_iff _ (rollbackSound_iff registry entries s)

theorem commit_error_view (registry : Registry) (entries : List Staged) (s s' : Store)
    (e : ConfigError) (h : commit registry entries s = (.error e, s'))
    (ha : Apart s.root s.tree (entries.map (·.file)))
    (hr : RollbackSound registry entries s) (path : Names) :
    s'.tree.get? path = s.tree.get? path := by
  have hkeep := (UnderWay.start s (entries.map (·.file))).applyEntries_keeps registry entries
    ⟨s, []⟩ ha fun t ht => List.mem_map_of_mem ht
  simp only [commit] at h
  rcases hp : applyEntries registry entries ⟨s, []⟩ with ⟨e' | u, p⟩
  · rw [hp] at h hkeep
    cases h
    exact rollback_view p.journal p.store hkeep ha (hr e p hp) path
  · rw [hp] at h
    cases h

end LayeredConfig.Journal
