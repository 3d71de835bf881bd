import LayeredConfig.Proofs.Commit.Bystanders

/-!
# What a failed commit gives back at one path

The journal notes what a file held when it was first leased, and one file may be leased under
several names. Read from the newest note to the oldest, the journal says what a path will show once
everything is put back; no step of a commit changes that, whatever it writes, and putting a note
back uses it up. So a path at which no file of the commit has its lock or its temporary text shows
after a failed commit what it showed before.
-/

set_option autoImplicit false

namespace LayeredConfig.Journal

open Run

def putBack (root path : Names) (entry : JournalEntry) (node : Option Node) : Option Node :=
  match Place.ofPath? root entry.lease.file with
  | some q => if q.names = path then textNode entry.before else node
  | none => node

def recalled (root path : Names) : List JournalEntry → Option Node → Option Node
  | [], node => node
  | entry :: rest, node => recalled root path rest (putBack root path entry node)

theorem putBack_of_place {root path : Names} {entry : JournalEntry} {q : Place}
    (hq : Place.ofPath? root entry.lease.file = some q) (node : Option Node) :
    putBack root path entry node = if q.names = path then textNode entry.before else node := by
  simp only [putBack]
  rw [hq]

/-- Where a note is put back, it does not matter what was there. -/
theorem recalled_congr {root path : Names} {journal : List JournalEntry} {entry : JournalEntry}
    {q : Place} (he : entry ∈ journal) (hq : Place.ofPath? root entry.lease.file = some q)
    (hpath : q.names = path) (node node' : Option Node) :
    recalled root path journal node = recalled root path journal node' := by
  induction journal generalizing node node' with
  | nil => cases he
  | cons first rest ih =>
    rcases List.mem_cons.mp he with rfl | he
    · simp only [recalled]
      rw [putBack_of_place hq, putBack_of_place hq, if_pos hpath, if_pos hpath]
    · exact ih he _ _

structure Recalls (s₀ : Store) (files : List String) (path : Names) (p : Progress) : Prop where
  root : p.store.root = s₀.root
  directories : FileTree.SameDirectories s₀.tree p.store.tree
  taken : ∀ e ∈ p.journal, e.lease.file ∈ files ∧ ∃ q,
    Place.ofPath? s₀.root e.lease.file = some q ∧ e.lease.lock = (q.sibling ".lock").names ∧
      s₀.tree.walk [] q.names.dropLast = .ok ()
  shown : recalled s₀.root path p.journal (p.store.tree.get? path) = s₀.tree.get? path

namespace Recalls

variable {s₀ : Store} {files : List String} {path : Names} {p : Progress}

theorem start (s₀ : Store) (files : List String) (path : Names) :
    Recalls s₀ files path ⟨s₀, []⟩ where
  root := rfl
  directories := .refl _
  taken := by simp
  shown := rfl

theorem of_view (h : Recalls s₀ files path p) (s : Store) (hr : s.root = p.store.root)
    (hd : FileTree.SameDirectories p.store.tree s.tree)
    (hv : s.tree.get? path = p.store.tree.get? path) :
    Recalls s₀ files path { p with store := s } where
  root := hr.trans h.root
  directories := h.directories.trans hd
  taken := h.taken
  shown := by
    change recalled s₀.root path p.journal (s.tree.get? path) = _
    rw [hv]
    exact h.shown

theorem leased (h : Recalls s₀ files path p) (hc : Clear s₀.root files path)
    {entry : JournalEntry} {q : Place} (hf : entry.lease.file ∈ files)
    (ht : TakenFrom s₀.root p.store.tree entry q) (s : Store) (hr : s.root = p.store.root)
    (hv : ∀ path, s.tree.get? path =
      if entry.lease.lock = path then some (.file (.text "")) else p.store.tree.get? path) :
    Recalls s₀ files path ⟨s, entry :: p.journal⟩ where
  root := hr.trans h.root
  directories := by
    refine h.directories.trans fun other => ?_
    rw [hv]
    split
    · rename_i hlock
      rw [← hlock, FileTree.entry_eq_notFound _ _ ht.free]
      simp
    · exact Iff.rfl
  taken e he := by
    rcases List.mem_cons.mp he with rfl | he
    · exact ⟨hf, q, ht.place, ht.lock, (FileTree.walk_congr _ _ _ _ h.directories).2 ht.walked⟩
    · exact h.taken e he
  shown := by
    have hlock : entry.lease.lock ≠ path := by
      rw [ht.lock]
      exact hc.lock _ hf q ht.place
    change recalled s₀.root path (entry :: p.journal) (s.tree.get? path) = _
    rw [hv, if_neg hlock, ← h.shown]
    simp only [recalled]
    congr 1
    rw [putBack_of_place ht.place]
    split
    · rename_i hpath
      rw [← hpath]
      exact ht.before.symm
    · rfl

theorem write_cases (h : Recalls s₀ files path p) (hc : Clear s₀.root files path)
    {entry : JournalEntry} (he : entry ∈ p.journal) (text : String) :
    ∃ answer s', Store.write entry.lease text p.store = (answer, s') ∧ s'.root = p.store.root ∧
      FileTree.SameDirectories p.store.tree s'.tree ∧
      ((∃ e, answer = .error e) ∧ s'.tree.get? path = p.store.tree.get? path ∨
        ∃ q, Place.ofPath? s₀.root entry.lease.file = some q ∧ s'.tree.get? path =
          if q.names = path then some (.file (.text text)) else p.store.tree.get? path) := by
  have hdirectories := Store.write_directories entry.lease text p.store
  have htemporary : ∀ q, Place.ofPath? p.store.root entry.lease.file = some q →
      (q.sibling ".tmp").names ≠ path := by
    rw [h.root]
    exact hc.temporary _ (h.taken entry he).1
  rcases Store.write_at entry.lease text p.store path htemporary with
    ⟨e, s', hw, hr, hv⟩ | ⟨q, s', hq, hw, hr, -, hv⟩
  all_goals rw [hw] at hdirectories
  · exact ⟨_, s', hw, hr, hdirectories, .inl ⟨⟨e, rfl⟩, hv⟩⟩
  · rw [h.root] at hq
    exact ⟨_, s', hw, hr, hdirectories, .inr ⟨q, hq, hv⟩⟩

/-- What is written to a leased file, the journal takes back. -/
theorem written (h : Recalls s₀ files path p) (hc : Clear s₀.root files path)
    {entry : JournalEntry} (he : entry ∈ p.journal) (text : String) :
    Recalls s₀ files path { p with store := (Store.write entry.lease text p.store).2 } := by
  obtain ⟨answer, s', hw, hr, hd, ⟨-, hv⟩ | ⟨q, hq, hv⟩⟩ := h.write_cases hc he text
  all_goals rw [hw]
  · exact h.of_view s' hr hd hv
  · by_cases hpath : q.names = path
    · refine ⟨hr.trans h.root, h.directories.trans hd, h.taken, ?_⟩
      exact (recalled_congr he hq hpath _ _).trans h.shown
    · rw [if_neg hpath] at hv
      exact h.of_view s' hr hd hv

theorem steady (hc : Clear s₀.root files path) : Steady files (Recalls s₀ files path) where
  reading p s hs h := by
    obtain ⟨hr, ht⟩ := Store.files_eq _ _ hs
    refine h.of_view s hr ?_ ?_
    all_goals rw [ht]
    exact .refl _
  leasing p sectionPath file hf h := by
    rcases lease_outcome sectionPath file p with
      ⟨e, s', hl, hr, hv⟩ | ⟨entry, he, hl, -⟩ | ⟨entry, q, s', hl, hn, hr, ht, hv, -⟩
    all_goals rw [hl]
    · exact h.of_view s' hr (fun other => by rw [hv]) (hv path)
    · exact h
    · rw [h.root] at ht
      exact h.leased hc (hn ▸ hf) ht s' hr hv
  writing p entry he text h := h.written hc he text

theorem restored (h : Recalls s₀ files path p) (hc : Clear s₀.root files path)
    {entry : JournalEntry} (he : entry ∈ p.journal) (hs : RestoreSucceeds entry p.store) :
    (restore entry p.store).root = p.store.root ∧
      FileTree.SameDirectories p.store.tree (restore entry p.store).tree ∧
      (restore entry p.store).tree.get? path =
        putBack s₀.root path entry (p.store.tree.get? path) := by
  obtain ⟨hf, q, hq, -, hwalked⟩ := h.taken entry he
  rw [putBack_of_place hq]
  simp only [RestoreSucceeds] at hs
  simp only [restore, after]
  rcases hb : entry.before with _ | text
  all_goals
    rw [hb] at hs
    dsimp only at hs ⊢
  · rcases Store.remove_cases entry.lease p.store with ⟨e, s', hw, -⟩ | ⟨r, s', hr, hw, hroot, ht⟩
    · rw [hw] at hs
      cases hs
    · rw [h.root, hq] at hr
      obtain rfl := Option.some.inj hr
      rw [hw]
      refine ⟨hroot, ?_⟩
      dsimp only
      rcases ht with ⟨ht, hnone⟩ | ⟨-, hd, ht⟩
      · rw [ht]
        refine ⟨.refl _, ?_⟩
        split
        · rename_i hpath
          rw [← hpath]
          exact hnone ((FileTree.walk_congr _ _ _ _ h.directories).1 hwalked)
        · rfl
      · have hne : q.names ≠ [] := fun hn => hd (by rw [hn]; rfl)
        rw [ht]
        exact ⟨FileTree.sameDirectories_erase hd, FileTree.get?_erase _ _ _ hne⟩
  · obtain ⟨answer, s', hw, hr, hd, ⟨⟨e, rfl⟩, -⟩ | ⟨r, hq', hv⟩⟩ := h.write_cases hc he text
    · rw [hw] at hs
      cases hs
    · obtain rfl := Option.some.inj (hq.symm.trans hq')
      rw [hw]
      exact ⟨hr, hd, hv⟩

/-- An entry that is put back and given up is no longer needed. -/
theorem returned {entry : JournalEntry} {rest : List JournalEntry} {s : Store}
    (h : Recalls s₀ files path ⟨s, entry :: rest⟩) (hc : Clear s₀.root files path)
    (hs : RestoreSucceeds entry s) :
    Recalls s₀ files path ⟨after (Store.release entry.lease) (restore entry s), rest⟩ := by
  obtain ⟨hroot, hdirectories, hview⟩ := h.restored hc List.mem_cons_self hs
  obtain ⟨hf, q, hq, hlock, -⟩ := h.taken entry List.mem_cons_self
  have h₁ : Recalls s₀ files path ⟨restore entry s, rest⟩ := by
    refine ⟨hroot.trans h.root, h.directories.trans hdirectories,
      fun e he => h.taken e (List.mem_cons_of_mem _ he), ?_⟩
    dsimp only
    rw [hview]
    exact h.shown
  simp only [after]
  obtain ⟨s', hrelease, hroot', htree⟩ := Store.release_tree entry.lease (restore entry s)
  rw [hrelease]
  rcases htree with htree | ⟨hd, htree⟩
  · refine h₁.of_view s' hroot' ?_ ?_
    all_goals rw [htree]
    exact .refl _
  · refine h₁.of_view s' hroot' ?_ ?_
    all_goals rw [htree]
    · exact FileTree.sameDirectories_erase hd
    · rw [hlock, FileTree.get?_erase _ _ _ (q.sibling_ne_nil ".lock"), if_neg (hc.lock _ hf q hq)]

end Recalls

variable {s₀ : Store} {files : List String} {path : Names}

theorem rollback_recalls (journal : List JournalEntry) (s : Store)
    (h : Recalls s₀ files path ⟨s, journal⟩) (hc : Clear s₀.root files path)
    (hs : RollbackSucceeds journal s) :
    (rollback journal s).tree.get? path = s₀.tree.get? path := by
  induction journal generalizing s with
  | nil => exact h.shown
  | cons entry rest ih => exact ih _ (h.returned hc hs.1) hs.2

/-- A commit that fails leaves at a path what was there, whatever names its files have. -/
theorem commit_error_at (registry : Registry) (entries : List Staged) (s s' : Store)
    (e : ConfigError) (h : commit registry entries s = (.error e, s'))
    (hr : RollbackSound registry entries s) (hc : Clear s.root (entries.map (·.file)) path) :
    s'.tree.get? path = s.tree.get? path := by
  have hkeep := (Recalls.steady hc).applyEntries registry entries
    (fun t ht => List.mem_map_of_mem ht) ⟨s, []⟩ (.start s _ path)
  simp only [commit] at h
  rcases hp : applyEntries registry entries ⟨s, []⟩ with ⟨e' | u, p⟩
  all_goals rw [hp] at h
  · rw [hp] at hkeep
    cases h
    exact rollback_recalls p.journal p.store hkeep hc (hr e p hp)
  · cases h

end LayeredConfig.Journal
