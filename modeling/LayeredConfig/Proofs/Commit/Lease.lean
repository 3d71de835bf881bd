import LayeredConfig.Proofs.Store.Calls

/-!
# Leases of a commit

A lease notes what its file held when it was taken. Taking one adds the lock to the tree
and changes nothing else, and a lease that cannot be taken leaves no trace.
-/

set_option autoImplicit false

namespace LayeredConfig.Journal

open Run

structure TakenFrom (root : Names) (t : FileTree) (entry : JournalEntry) (p : Place) : Prop where
  place : Place.ofPath? root entry.lease.file = some p
  lock : entry.lease.lock = (p.sibling ".lock").names
  named : p.names ≠ []
  walked : t.walk [] p.names.dropLast = .ok ()
  free : t.entry entry.lease.lock = .error .notFound
  before : t.get? p.names = entry.before.map fun s => .file (.text s)

theorem createNew_view (t u : FileTree) (path p : Names) (h : path ≠ [])
    (hc : t.createNew path = .ok u) :
    u.get? p = if path = p then some (.file (.text "")) else t.get? p := by
  rw [(FileTree.createNew_eq_ok t u path hc).2.2, FileTree.get?_set _ _ _ _ h]

theorem release_created (lease : Lease) (s : Store) (t : FileTree) (h : lease.lock ≠ [])
    (hc : t.createNew lease.lock = .ok s.tree) :
    ∃ s', Store.release lease s = (.ok (), s') ∧ s'.root = s.root ∧
      ∀ path, s'.tree.get? path = t.get? path := by
  obtain ⟨hw, he, ht⟩ := FileTree.createNew_eq_ok _ _ _ hc
  have hview := fun path => createNew_view t s.tree lease.lock path h hc
  have hwalk : s.tree.walk [] lease.lock.dropLast = .ok () := by
    refine FileTree.walk_of_directories t _ _ _ (fun path hp => ?_) hw
    rw [hview, if_neg, hp]
    intro heq
    rw [← heq, FileTree.entry_eq_notFound _ _ he] at hp
    cases hp
  have hentry : s.tree.entry lease.lock = .ok (.file (.text "")) :=
    FileTree.entry_of_get? _ t _ _ (by rw [he]; simp) (by rw [hview, if_pos rfl])
  refine ⟨_, Store.release_apply lease s _ hwalk hentry, rfl, fun path => ?_⟩
  change (s.tree.erase lease.lock).get? path = _
  rw [ht]
  exact Store.get?_undo _ _ _ _ h (FileTree.entry_eq_notFound _ _ he)

theorem takeLease_cases (file : String) (s : Store) :
    (∃ e s', takeLease file s = (.error e, s') ∧ s'.root = s.root ∧
        ∀ path, s'.tree.get? path = s.tree.get? path) ∨
      ∃ entry p s', takeLease file s = (.ok entry, s') ∧ entry.lease.file = file ∧
        s'.root = s.root ∧ TakenFrom s.root s.tree entry p ∧
        ∀ path, s'.tree.get? path =
          if entry.lease.lock = path then some (.file (.text "")) else s.tree.get? path := by
  simp only [takeLease]
  rw [bind_apply]
  rcases Store.acquire_cases file s with ⟨e, s', h, hs⟩ | ⟨p, s₁, hp, h, hroot, hc⟩
  · rw [h]
    obtain ⟨hroot, htree⟩ := Store.files_eq _ _ hs
    exact .inl ⟨e, s', rfl, hroot, fun path => by rw [htree]⟩
  rw [h]
  have hne := p.sibling_ne_nil ".lock"
  have hview := fun path => createNew_view s.tree s₁.tree _ path hne hc
  obtain ⟨hw, hfree, -⟩ := FileTree.createNew_eq_ok _ _ _ hc
  dsimp only
  rw [tryCatch_apply, bind_apply]
  rcases hr : Store.read file s₁ with ⟨e | before, s₂⟩
  · obtain ⟨hroot₂, htree₂⟩ := Store.files_eq _ _ ((Store.keeps_read file).of_eq hr)
    rw [← htree₂] at hc
    obtain ⟨s₃, hrel, hroot₃, hview₃⟩ :=
      release_created ⟨file, (p.sibling ".lock").names⟩ s₂ s.tree hne hc
    dsimp only
    rw [bind_apply, hrel]
    exact .inl ⟨e, s₃, rfl, hroot₃.trans (hroot₂.trans hroot), hview₃⟩
  · obtain ⟨hroot₂, htree₂⟩ := Store.files_eq _ _ ((Store.keeps_read file).of_eq hr)
    obtain ⟨q, hq, hsome, hnone⟩ := Store.read_eq_ok hr
    rw [hroot, hp] at hq
    obtain rfl := Option.some.inj hq
    rw [p.sibling_dropLast] at hw
    have hwalk : s₁.tree.walk [] p.names.dropLast = .ok () := by
      refine FileTree.walk_of_directories s.tree _ _ _ (fun path hd => ?_) hw
      rw [hview, if_neg, hd]
      intro heq
      rw [← heq, FileTree.entry_eq_notFound _ _ hfree] at hd
      cases hd
    have hbefore : s₁.tree.get? p.names = before.map fun s => .file (.text s) := by
      cases before with
      | none => exact hnone hwalk rfl
      | some text => exact hsome text rfl
    have hnamed : p.names ≠ [] := by
      intro hn
      rw [hn, FileTree.get?_nil] at hbefore
      cases before <;> cases hbefore
    rw [hview, if_neg (p.ne_sibling ".lock" (by decide)).symm] at hbefore
    refine .inr ⟨⟨⟨file, (p.sibling ".lock").names⟩, before⟩, p, s₂, rfl, rfl,
      hroot₂.trans hroot, ⟨hp, rfl, hnamed, hw, hfree, hbefore⟩, fun path => ?_⟩
    rw [htree₂, hview]

end LayeredConfig.Journal
