import LayeredConfig.Proofs.Commit.Lease
import LayeredConfig.Proofs.Commit.Unfailing

/-!
# Calls that nothing stands against

Where no call is scheduled to fail, a lease can be taken of a file that can be opened, whose lock
is free and whose temporary text has room, and a file with such a place can be written.
-/

set_option autoImplicit false

namespace LayeredConfig

open Run

namespace FileTree

theorem createNew_of_free (t : FileTree) (path : Names) (hw : t.walk [] path.dropLast = .ok ())
    (hs : isShort path = true) (hn : t.get? path = none) :
    t.createNew path = .ok (t.set path (.file (.text ""))) := by
  simp only [createNew]
  rw [hw, entry_of_isShort t path hs, hn]
  rfl

theorem writeText_of_free (t : FileTree) (path : Names) (text : String)
    (hw : t.walk [] path.dropLast = .ok ()) (hs : isShort path = true) (hn : t.get? path = none) :
    t.writeText path text = .ok (t.set path (.file (.text text))) := by
  simp only [writeText]
  rw [hw, entry_of_isShort t path hs, hn]
  rfl

theorem lookup_of_file (t : FileTree) (path : Names) (c : Content)
    (hw : t.walk [] path.dropLast = .ok ()) (hs : isShort path = true)
    (hn : t.get? path = some (.file c)) : t.lookup path false = .ok (.file c) := by
  simp only [lookup]
  rw [hw, entry_of_isShort t path hs, hn]
  rfl

theorem rename_of_file (t : FileTree) (source target : Names) (c : Content)
    (hsource : t.lookup source false = .ok (.file c))
    (hw : t.walk [] target.dropLast = .ok ()) (hs : isShort target = true)
    (hn : t.get? target ≠ some .directory) :
    t.rename source target .plain = .ok ((t.erase source).set target (.file c)) := by
  have hentry := entry_of_isShort t target hs
  simp only [rename, bind, Except.bind]
  rw [hsource, hw, hentry]
  rcases ht : t.get? target with _ | (_ | c')
  · rfl
  · exact absurd ht hn
  · rfl

theorem directory_of_walk (t : FileTree) (above names : Names)
    (h : t.walk above names = .ok ()) (path : Names) (hne : path ≠ [])
    (hpath : path <+: names) : t.get? (above ++ path) = some .directory := by
  induction names generalizing above path with
  | nil => exact absurd (List.prefix_nil.mp hpath) hne
  | cons name names ih =>
    rcases path with _ | ⟨first, rest⟩
    · exact absurd rfl hne
    · obtain ⟨rfl, hrest⟩ := List.cons_prefix_cons.mp hpath
      simp only [walk] at h
      split at h
      · cases h
      · cases h
      · rename_i hentry
        by_cases hnil : rest = []
        · rw [hnil]
          exact entry_eq_ok t _ _ hentry
        · rw [List.append_cons]
          exact ih (above ++ [first]) h rest hnil hrest

end FileTree

namespace Place

structure Leasable (t : FileTree) (p : Place) : Prop extends p.Opens t where
  lockSound : (p.sibling ".lock").fault? = none
  lockShort : FileTree.isShort (p.sibling ".lock").names = true
  lockFree : t.get? (p.sibling ".lock").names = none
  temporarySound : (p.sibling ".tmp").fault? = none
  temporaryShort : FileTree.isShort (p.sibling ".tmp").names = true
  temporaryFree : t.get? (p.sibling ".tmp").names = none

instance (t : FileTree) (p : Place) : Decidable (p.Leasable t) :=
  decidable_of_iff (p.Opens t ∧
      ((p.sibling ".lock").fault? = none ∧ FileTree.isShort (p.sibling ".lock").names = true ∧
        t.get? (p.sibling ".lock").names = none) ∧
      (p.sibling ".tmp").fault? = none ∧ FileTree.isShort (p.sibling ".tmp").names = true ∧
        t.get? (p.sibling ".tmp").names = none)
    ⟨fun ⟨ho, ⟨hl, hs, hf⟩, ht, hs', hf'⟩ => ⟨ho, hl, hs, hf, ht, hs', hf'⟩,
      fun ⟨ho, hl, hs, hf, ht, hs', hf'⟩ => ⟨ho, ⟨hl, hs, hf⟩, ht, hs', hf'⟩⟩

theorem Leasable.of_view {t u : FileTree} {p : Place} (h : p.Leasable t)
    (hd : FileTree.SameDirectories t u)
    (hlock : u.get? (p.sibling ".lock").names = t.get? (p.sibling ".lock").names)
    (htemporary : u.get? (p.sibling ".tmp").names = t.get? (p.sibling ".tmp").names) :
    p.Leasable u where
  toOpens := h.toOpens.of_directories hd
  lockSound := h.lockSound
  lockShort := h.lockShort
  lockFree := hlock.trans h.lockFree
  temporarySound := h.temporarySound
  temporaryShort := h.temporaryShort
  temporaryFree := htemporary.trans h.temporaryFree

end Place

namespace Store

variable {file : String} {s : Store} {p : Place}

theorem place_apply (hp : Place.ofPath? s.root file = some p) : place file s = (.ok p, s) := by
  simp only [place]
  rw [get_bind, hp]
  rfl

theorem change_apply (onFault : IoFault → StoreError) (f : FileTree → Except IoFault FileTree)
    {t : FileTree} (hp : p.fault? = none) (hf : f s.tree = .ok t) :
    change onFault p f s = (.ok (), { s with tree := t }) := by
  simp only [change]
  rw [get_bind, hp, hf]
  rfl

theorem acquire_apply (hs : s.Unfailing .acquire) (hp : Place.ofPath? s.root file = some p)
    (hl : p.Leasable s.tree) :
    acquire file s = (.ok ⟨file, (p.sibling ".lock").names⟩,
      { s with tree := s.tree.set (p.sibling ".lock").names (.file (.text "")) }) := by
  have hwalk : s.tree.walk [] (p.sibling ".lock").names.dropLast = .ok () := by
    rw [p.sibling_dropLast]
    exact hl.walked
  have hcreate := FileTree.createNew_of_free s.tree _ hwalk hl.lockShort hl.lockFree
  simp only [acquire]
  rw [bind_apply, tick_apply .acquire file s hs]
  dsimp only
  rw [bind_apply, place_apply hp]
  dsimp only
  rw [bind_apply, change_apply (acquireError file) _ hl.lockSound hcreate]
  rfl

/-- Writing needs no lock. -/
theorem write_apply {lease : Lease} (hs : s.Unfailing .write)
    (hp : Place.ofPath? s.root lease.file = some p) (ho : p.Opens s.tree)
    (hsound : (p.sibling ".tmp").fault? = none)
    (hshort : FileTree.isShort (p.sibling ".tmp").names = true)
    (hfree : s.tree.get? (p.sibling ".tmp").names = none)
    (hn : s.tree.get? p.names ≠ some .directory) (text : String) :
    ∃ s', write lease text s = (.ok (), s') := by
  have hne := p.sibling_ne_nil ".tmp"
  have hwalk : s.tree.walk [] (p.sibling ".tmp").names.dropLast = .ok () := by
    rw [p.sibling_dropLast]
    exact ho.walked
  have hwrite := FileTree.writeText_of_free s.tree _ text hwalk hshort hfree
  have hview := fun path => FileTree.get?_set s.tree (p.sibling ".tmp").names path
    (.file (.text text)) hne
  have hwalks : ∀ names, s.tree.walk [] names = .ok () →
      (s.tree.set (p.sibling ".tmp").names (.file (.text text))).walk [] names = .ok () := by
    intro names h
    refine FileTree.walk_of_directories s.tree _ _ _ (fun path hd => ?_) h
    rw [hview, if_neg, hd]
    intro heq
    rw [← heq, hfree] at hd
    cases hd
  have hlookup := FileTree.lookup_of_file _ _ (.text text) (hwalks _ hwalk) hshort
    (by rw [hview, if_pos rfl])
  have hrename := FileTree.rename_of_file _ _ p.names (.text text) hlookup (hwalks _ ho.walked)
    ho.named (by rw [hview, if_neg (p.ne_sibling ".tmp" (by decide)).symm]; exact hn)
  simp only [write]
  rw [bind_apply, tick_apply .write lease.file s hs]
  dsimp only
  rw [bind_apply, place_apply hp]
  dsimp only
  rw [bind_apply, change_apply (missingOr lease.file) _ hsound hwrite]
  dsimp only
  rw [get_bind]
  dsimp only
  rw [ho.fault, ho.ending, hrename]
  exact ⟨_, rfl⟩

end Store

namespace Journal

variable {file : String} {s : Store} {p : Place}

/-- A lease is taken where the file can be read. -/
theorem takeLease_ok (ha : s.Unfailing .acquire) (hr : s.Unfailing .read)
    (hp : Place.ofPath? s.root file = some p) (hl : p.Leasable s.tree) {d : LevelDocument}
    (hd : Store.documentIn s.root s.tree file = .ok d) :
    ∃ entry s', takeLease file s = (.ok entry, s') := by
  have hacquire := Store.acquire_apply ha hp hl
  have hne := p.sibling_ne_nil ".lock"
  have hview := fun path => FileTree.get?_set s.tree (p.sibling ".lock").names path
    (.file (.text "")) hne
  have hopens : p.Opens (s.tree.set (p.sibling ".lock").names (.file (.text ""))) := by
    refine ⟨hl.fault, hl.ending, ?_, hl.named⟩
    refine FileTree.walk_of_directories s.tree _ _ _ (fun path hdir => ?_) hl.walked
    rw [hview, if_neg, hdir]
    intro heq
    rw [← heq, hl.lockFree] at hdir
    cases hdir
  have hunfailing := Store.preserves_acquire file s hr
  rw [hacquire] at hunfailing
  have hread := Store.read_apply file _ hunfailing
  rw [Store.textIn_of_opens hp hopens, hview,
    if_neg (p.ne_sibling ".lock" (by decide)).symm, ← Store.textIn_of_opens hp hl.toOpens] at hread
  rcases htext : Store.textIn s.root s.tree file with e | before
  · simp only [Store.documentIn] at hd
    rw [htext] at hd
    cases hd
  · rw [htext] at hread
    simp only [takeLease]
    rw [bind_apply, hacquire]
    dsimp only
    rw [tryCatch_apply, bind_apply, hread]
    exact ⟨_, _, rfl⟩

end Journal

end LayeredConfig
