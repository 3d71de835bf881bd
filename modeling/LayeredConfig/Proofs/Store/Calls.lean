import Mathlib.Data.List.Basic
import LayeredConfig.Proofs.Run
import LayeredConfig.Proofs.Store.Tree

/-!
# Calls of the store, seen through the view

What reading, leasing, writing, removing and releasing do to the root and the tree of a
store. A call that fails leaves the view of the tree as it was, provided that no file stands
where a write puts its temporary text.
-/

set_option autoImplicit false

namespace LayeredConfig

open Run

namespace Place

structure Opens (t : FileTree) (p : Place) : Prop where
  fault : p.fault? = none
  ending : p.ending = .plain
  walked : t.walk [] p.names.dropLast = .ok ()
  named : FileTree.isShort p.names = true

instance (t : FileTree) (p : Place) : Decidable (p.Opens t) :=
  decidable_of_iff (p.fault? = none ∧ p.ending = .plain ∧ t.walk [] p.names.dropLast = .ok () ∧
      FileTree.isShort p.names = true)
    ⟨fun ⟨hf, he, hw, hn⟩ => ⟨hf, he, hw, hn⟩, fun ⟨hf, he, hw, hn⟩ => ⟨hf, he, hw, hn⟩⟩

theorem Opens.of_directories {t u : FileTree} {p : Place} (h : p.Opens t)
    (hd : FileTree.SameDirectories t u) : p.Opens u where
  fault := h.fault
  ending := h.ending
  walked := (FileTree.walk_congr _ _ _ _ hd).1 h.walked
  named := h.named

theorem below_of_plain {root : Names} {file : String} {p : Place}
    (h : ofPath? root file = some p) (hp : p.ending = .plain) :
    ∃ names, names ≠ [] ∧ p.names = root ++ names := by
  simp only [ofPath?] at h
  split at h
  · cases h
  · cases h
    refine ⟨_, ?_, rfl⟩
    dsimp only at hp
    have hpieces : FilePath.pieces (relative file) ≠ [] := by
      simp only [FilePath.pieces]
      rw [ne_eq, List.map_eq_nil_iff]
      exact Text.splitOn_ne_nil _ _
    generalize FilePath.pieces (relative file) = pieces at hp hpieces
    intro hnone
    have hall := List.filter_eq_nil_iff.mp hnone
    simp only [endingOf] at hp
    split at hp
    · cases hp
    · rename_i hdot
      split at hp
      · cases hp
      · rename_i hslash
        rcases List.eq_nil_or_concat' pieces with rfl | ⟨init, last, rfl⟩
        · exact hpieces rfl
        · have hlast := hall last (List.mem_append_right _ List.mem_cons_self)
          rw [List.getLast?_concat, beq_iff_eq, Option.some.injEq] at hslash
          have hkept : (init ++ [last]).filter (· != "") = init.filter (· != "") ++ [last] := by
            rw [List.filter_append, List.filter_singleton, bne_iff_ne.mpr hslash]
            rfl
          rw [hkept, List.getLast?_concat, beq_iff_eq, Option.some.injEq] at hdot
          apply hlast
          simp only [isName]
          rw [Bool.and_eq_true]
          exact ⟨bne_iff_ne.mpr hslash, bne_iff_ne.mpr hdot⟩

@[simp] theorem sibling_names (p : Place) (suffix : String) :
    (p.sibling suffix).names = p.names.dropLast ++ [p.names.getLast?.getD "" ++ suffix] := rfl

theorem sibling_ne_nil (p : Place) (suffix : String) : (p.sibling suffix).names ≠ [] := by
  simp

theorem sibling_dropLast (p : Place) (suffix : String) :
    (p.sibling suffix).names.dropLast = p.names.dropLast := by
  simp

theorem ne_sibling (p : Place) (suffix : String) (hs : suffix ≠ "") :
    p.names ≠ (p.sibling suffix).names := by
  intro h
  have hp : p.names ≠ [] := fun hn => p.sibling_ne_nil suffix (h.symm.trans hn)
  have hl := congrArg List.getLast? h
  rw [sibling_names, List.getLast?_concat, List.getLast?_eq_some_getLast hp] at hl
  have hlen := congrArg String.length (Option.some.inj hl)
  rw [Option.getD_some, String.length_append] at hlen
  exact hs (String.length_eq_zero_iff.mp (by omega))

theorem temporary_ne_lock (p q : Place) :
    (p.sibling ".tmp").names ≠ (q.sibling ".lock").names := by
  intro h
  rw [sibling_names, sibling_names] at h
  have hl := (List.append_inj' h rfl).2
  have hn := congrArg (fun s : String => s.toList.getLast?) (List.cons.inj hl).1
  simp [String.toList_append] at hn

end Place

namespace Store

def files (s : Store) : Names × FileTree := (s.root, s.tree)

theorem files_eq (s s' : Store) (h : s'.files = s.files) : s'.root = s.root ∧ s'.tree = s.tree :=
  Prod.mk.inj h

theorem keeps_tick (call : StoreCall) (path : String) : Keeps files (tick call path) := by
  intro s
  simp only [tick]
  rw [get_bind]
  rcases hs : strike call s.faults with ⟨faults, _ | kind⟩ <;> rfl

theorem place_eq_ok {path : String} {s s' : Store} {p : Place}
    (h : place path s = (.ok p, s')) : Place.ofPath? s.root path = some p ∧ s' = s := by
  simp only [place] at h
  rw [get_bind] at h
  rcases hp : Place.ofPath? s.root path with _ | q
  · rw [hp] at h; cases h
  · rw [hp] at h; cases h; exact ⟨rfl, rfl⟩

theorem keeps_place (path : String) : Keeps files (place path) := by
  intro s
  simp only [place]
  rw [get_bind]
  rcases Place.ofPath? s.root path with _ | q <;> rfl

theorem change_cases (onFault : IoFault → StoreError) (p : Place)
    (f : FileTree → Except IoFault FileTree) (s : Store) :
    (∃ e, change onFault p f s = (.error e, s)) ∨
      ∃ tree, f s.tree = .ok tree ∧ change onFault p f s = (.ok (), { s with tree := tree }) := by
  simp only [change]
  rw [get_bind]
  rcases p.fault? with _ | e
  · rcases hf : f s.tree with e | tree
    · exact .inl ⟨onFault e, rfl⟩
    · exact .inr ⟨tree, rfl, rfl⟩
  · exact .inl ⟨onFault e, rfl⟩

theorem keeps_read (file : String) : Keeps files (read file) := by
  simp only [read]
  refine keeps_bind (keeps_tick _ _) fun _ => keeps_bind (keeps_place _) fun p => ?_
  intro s
  rcases p.fault? with _ | e
  · change files ((get >>= _ : StoreM (Option String)) s).2 = _
    rw [get_bind]
    rcases s.tree.readText p.names p.ending.asDirectory with e | text
    · cases e <;> rfl
    · rfl
  · rfl

theorem keeps_load (file : String) : Keeps files (load file) := by
  simp only [load]
  refine keeps_bind (keeps_read file) fun text => ?_
  rcases text with _ | text
  · exact keeps_pure _
  · dsimp only
    rcases LevelDocument.parse text with fault | d
    · exact keeps_throw _
    · exact keeps_pure _

/-- The text that is read is what the view shows, and no text means that nothing is
there, at least where a file could be. -/
theorem read_eq_ok {file : String} {s s' : Store} {text : Option String}
    (h : read file s = (.ok text, s')) :
    ∃ p, Place.ofPath? s.root file = some p ∧
      (∀ t, text = some t → s.tree.get? p.names = some (.file (.text t))) ∧
      (s.tree.walk [] p.names.dropLast = .ok () → text = none → s.tree.get? p.names = none) := by
  simp only [read] at h
  obtain ⟨_, s₁, ht, h₁⟩ := bind_eq_ok h
  obtain ⟨p, s₂, hp, h₂⟩ := bind_eq_ok h₁
  obtain ⟨hroot, htree⟩ := files_eq _ _ ((keeps_tick _ _).of_eq ht)
  obtain ⟨hp, rfl⟩ := place_eq_ok hp
  rw [hroot] at hp
  refine ⟨p, hp, ?_⟩
  rw [← htree]
  rcases hf : p.fault? with _ | e
  · rw [hf] at h₂
    dsimp only at h₂
    rw [get_bind] at h₂
    rcases hr : s₂.tree.readText p.names p.ending.asDirectory with e | found
    · rw [hr] at h₂
      cases e <;> cases h₂
      exact ⟨fun t ht => (by cases ht),
        fun hw _ => FileTree.readText_eq_notFound _ _ _ hw hr⟩
    · rw [hr] at h₂
      cases h₂
      exact ⟨fun t ht => (by cases ht; exact FileTree.readText_eq_ok _ _ _ _ hr),
        fun _ hn => (by cases hn)⟩
  · rw [hf] at h₂; cases h₂

/-- A lease puts an empty lock file where nothing was. -/
theorem acquire_cases (file : String) (s : Store) :
    (∃ e s', acquire file s = (.error e, s') ∧ s'.files = s.files) ∨
      ∃ p s', Place.ofPath? s.root file = some p ∧
        acquire file s = (.ok ⟨file, (p.sibling ".lock").names⟩, s') ∧ s'.root = s.root ∧
        s.tree.createNew (p.sibling ".lock").names = .ok s'.tree := by
  simp only [acquire]
  rw [bind_apply]
  have ht := keeps_tick .acquire file s
  rcases hs : tick .acquire file s with ⟨e | u, s₁⟩
  · rw [hs] at ht; exact .inl ⟨e, s₁, rfl, ht⟩
  · rw [hs] at ht
    obtain ⟨hroot, htree⟩ := files_eq _ _ ht
    dsimp only
    rw [bind_apply]
    rcases hp : place file s₁ with ⟨e | p, s₂⟩
    · have := (keeps_place file).of_eq hp
      exact .inl ⟨e, s₂, rfl, this.trans ht⟩
    · obtain ⟨hp, rfl⟩ := place_eq_ok hp
      dsimp only
      rw [bind_apply]
      rcases change_cases (acquireError file) (p.sibling ".lock")
        (·.createNew (p.sibling ".lock").names) s₂ with ⟨e, he⟩ | ⟨tree, hc, hok⟩
      · rw [he]; exact .inl ⟨e, s₂, rfl, ht⟩
      · rw [hok]
        rw [htree] at hc
        rw [hroot] at hp
        exact .inr ⟨p, _, hp, rfl, hroot, hc⟩

theorem get?_undo (t : FileTree) (path p : Names) (node : Node) (hp : path ≠ [])
    (hn : t.get? path = none) : ((t.set path node).erase path).get? p = t.get? p := by
  rw [FileTree.get?_erase _ _ _ hp, FileTree.get?_set _ _ _ _ hp]
  split
  · rename_i h
    rw [← h, hn]
  · rfl

/-- What becomes of the tree when a file is written. A call that fails has put the temporary text
there and taken it away again, if it came as far as that. -/
theorem write_tree (lease : Lease) (text : String) (s : Store) :
    (∃ e s', write lease text s = (.error e, s') ∧ s'.root = s.root ∧
        (s'.tree = s.tree ∨ ∃ p, Place.ofPath? s.root lease.file = some p ∧
          s.tree.get? (p.sibling ".tmp").names ≠ some .directory ∧
          s'.tree = (s.tree.set (p.sibling ".tmp").names (.file (.text text))).erase
            (p.sibling ".tmp").names)) ∨
      ∃ p s', Place.ofPath? s.root lease.file = some p ∧
        write lease text s = (.ok (), s') ∧ s'.root = s.root ∧ p.Opens s.tree ∧
        s.tree.get? (p.sibling ".tmp").names ≠ some .directory ∧
        (s.tree.set (p.sibling ".tmp").names (.file (.text text))).get? p.names ≠
          some .directory ∧
        s'.tree = ((s.tree.set (p.sibling ".tmp").names (.file (.text text))).erase
          (p.sibling ".tmp").names).set p.names (.file (.text text)) := by
  simp only [write]
  rw [bind_apply]
  have ht := keeps_tick .write lease.file s
  rcases hs : tick .write lease.file s with ⟨e | u, s₁⟩
  · rw [hs] at ht
    obtain ⟨hroot, htree⟩ := files_eq _ _ ht
    exact .inl ⟨e, s₁, rfl, hroot, .inl htree⟩
  rw [hs] at ht
  obtain ⟨hroot, htree⟩ := files_eq _ _ ht
  dsimp only
  rw [bind_apply]
  rcases hp : place lease.file s₁ with ⟨e | p, s₂⟩
  · obtain ⟨hroot₂, htree₂⟩ := files_eq _ _ ((keeps_place _).of_eq hp)
    exact .inl ⟨e, s₂, rfl, hroot₂.trans hroot, .inl (htree₂.trans htree)⟩
  obtain ⟨hp, rfl⟩ := place_eq_ok hp
  rw [hroot] at hp
  have hne := (p.sibling_ne_nil ".tmp")
  dsimp only
  rw [bind_apply]
  rcases change_cases (missingOr lease.file) (p.sibling ".tmp")
    (·.writeText (p.sibling ".tmp").names text) s₂ with ⟨e, he⟩ | ⟨t₁, hw, hok⟩
  · rw [he]
    exact .inl ⟨e, s₂, rfl, hroot, .inl htree⟩
  rw [hok]
  rw [← htree]
  obtain ⟨hwalk, hd, rfl⟩ := FileTree.writeText_eq_ok _ _ _ _ hw
  rw [p.sibling_dropLast] at hwalk
  dsimp only
  rw [get_bind]
  dsimp only
  rcases hf : p.fault? with _ | e
  · rcases hr : (s₂.tree.set (p.sibling ".tmp").names (.file (.text text))).rename
      (p.sibling ".tmp").names p.names p.ending with e | t₂
    · exact .inl ⟨missingOr lease.file e, _, rfl, hroot, .inr ⟨p, hp, hd, rfl⟩⟩
    · obtain ⟨node, hnode, hplain, hshort, hd₂, rfl⟩ := FileTree.rename_eq_ok _ _ _ _ _ hr
      rw [FileTree.get?_set _ _ _ _ hne, if_pos rfl] at hnode
      obtain rfl := Option.some.inj hnode
      exact .inr ⟨p, _, hp, rfl, hroot, ⟨hf, hplain, hwalk, hshort⟩, hd, hd₂, rfl⟩
  · exact .inl ⟨missingOr lease.file e, _, rfl, hroot, .inr ⟨p, hp, hd, rfl⟩⟩

/-- Writing either replaces the file and nothing else, or leaves the view as it was. -/
theorem write_cases (lease : Lease) (text : String) (s : Store)
    (hfree : ∀ p, Place.ofPath? s.root lease.file = some p →
      ∀ c, s.tree.get? (p.sibling ".tmp").names ≠ some (.file c) ∧
        p.names ≠ (p.sibling ".tmp").names) :
    (∃ e s', write lease text s = (.error e, s') ∧ s'.root = s.root ∧
        ∀ path, s'.tree.get? path = s.tree.get? path) ∨
      ∃ p s', Place.ofPath? s.root lease.file = some p ∧
        write lease text s = (.ok (), s') ∧ s'.root = s.root ∧
        s.tree.get? p.names ≠ some .directory ∧
        ∀ path, s'.tree.get? path =
          if p.names = path then some (.file (.text text)) else s.tree.get? path := by
  have hnone : ∀ p, Place.ofPath? s.root lease.file = some p →
      s.tree.get? (p.sibling ".tmp").names ≠ some .directory →
      s.tree.get? (p.sibling ".tmp").names = none := by
    intro p hp hd
    rcases hg : s.tree.get? (p.sibling ".tmp").names with _ | (_ | c)
    · rfl
    · exact absurd hg hd
    · exact absurd hg (hfree p hp c).1
  rcases write_tree lease text s with
    ⟨e, s', hw, hroot, htree | ⟨p, hp, hd, htree⟩⟩ | ⟨p, s', hp, hw, hroot, -, hd, hd₂, htree⟩
  · exact .inl ⟨e, s', hw, hroot, fun path => by rw [htree]⟩
  · refine .inl ⟨e, s', hw, hroot, fun path => ?_⟩
    rw [htree]
    exact get?_undo _ _ _ _ (p.sibling_ne_nil ".tmp") (hnone p hp hd)
  · have hne := p.sibling_ne_nil ".tmp"
    rw [FileTree.get?_set _ _ _ _ hne, if_neg (hfree p hp (.text text)).2.symm] at hd₂
    refine .inr ⟨p, s', hp, hw, hroot, hd₂, fun path => ?_⟩
    have hp₀ : p.names ≠ [] := fun h => hd₂ (by rw [h]; rfl)
    rw [htree, FileTree.get?_set _ _ _ _ hp₀, get?_undo _ _ _ _ hne (hnone p hp hd)]

theorem write_at (lease : Lease) (text : String) (s : Store) (path : Names)
    (htemporary : ∀ p, Place.ofPath? s.root lease.file = some p →
      (p.sibling ".tmp").names ≠ path) :
    (∃ e s', write lease text s = (.error e, s') ∧ s'.root = s.root ∧
        s'.tree.get? path = s.tree.get? path) ∨
      ∃ p s', Place.ofPath? s.root lease.file = some p ∧
        write lease text s = (.ok (), s') ∧ s'.root = s.root ∧ p.Opens s.tree ∧
        s'.tree.get? path =
          if p.names = path then some (.file (.text text)) else s.tree.get? path := by
  have hundo : ∀ p, Place.ofPath? s.root lease.file = some p → ∀ node,
      ((s.tree.set (p.sibling ".tmp").names node).erase (p.sibling ".tmp").names).get? path =
        s.tree.get? path := by
    intro p hp node
    have hne := p.sibling_ne_nil ".tmp"
    rw [FileTree.get?_erase _ _ _ hne, if_neg (htemporary p hp), FileTree.get?_set _ _ _ _ hne,
      if_neg (htemporary p hp)]
  rcases write_tree lease text s with
    ⟨e, s', hw, hroot, htree | ⟨p, hp, -, htree⟩⟩ | ⟨p, s', hp, hw, hroot, hopens, -, hd, htree⟩
  · exact .inl ⟨e, s', hw, hroot, by rw [htree]⟩
  · exact .inl ⟨e, s', hw, hroot, by rw [htree, hundo p hp]⟩
  · have hp₀ : p.names ≠ [] := fun h => hd (by rw [h]; rfl)
    refine .inr ⟨p, s', hp, hw, hroot, hopens, ?_⟩
    rw [htree, FileTree.get?_set _ _ _ _ hp₀, hundo p hp]

/-- Removing either takes the file away and nothing else, or leaves the tree as it was. -/
theorem remove_cases (lease : Lease) (s : Store) :
    (∃ e s', remove lease s = (.error e, s') ∧ s'.files = s.files) ∨
      ∃ p s', Place.ofPath? s.root lease.file = some p ∧
        remove lease s = (.ok (), s') ∧ s'.root = s.root ∧
        (s'.tree = s.tree ∧ (s.tree.walk [] p.names.dropLast = .ok () →
            s.tree.get? p.names = none) ∨
          p.ending = .plain ∧ s.tree.get? p.names ≠ some .directory ∧
            s'.tree = s.tree.erase p.names) := by
  simp only [remove]
  rw [bind_apply]
  have ht := keeps_tick .remove lease.file s
  rcases hs : tick .remove lease.file s with ⟨e | u, s₁⟩
  · rw [hs] at ht; exact .inl ⟨e, s₁, rfl, ht⟩
  rw [hs] at ht
  obtain ⟨hroot, htree⟩ := files_eq _ _ ht
  dsimp only
  rw [bind_apply]
  rcases hp : place lease.file s₁ with ⟨e | p, s₂⟩
  · exact .inl ⟨e, s₂, rfl, ((keeps_place _).of_eq hp).trans ht⟩
  obtain ⟨hp, rfl⟩ := place_eq_ok hp
  rw [hroot] at hp
  dsimp only
  rw [get_bind]
  rcases hf : p.fault? with _ | e
  · dsimp only
    rw [← htree]
    rcases hr : s₂.tree.removeFile p.names p.ending.asDirectory with e | t
    · by_cases he : e = .notFound
      · subst he
        exact .inr ⟨p, s₂, hp, rfl, hroot, .inl ⟨rfl, fun hw =>
          FileTree.removeFile_eq_notFound _ _ _ hw hr⟩⟩
      · refine .inl ⟨.io e, s₂, ?_, ht⟩
        cases e <;> first | rfl | exact absurd rfl he
    · obtain ⟨hd, rfl⟩ := FileTree.removeFile_eq_ok _ _ _ _ hr
      have hplain := p.ending.asDirectory_eq_false_iff.1
        (FileTree.asDirectory_of_removeFile _ _ _ _ hr)
      exact .inr ⟨p, _, hp, rfl, hroot, .inr ⟨hplain, hd, rfl⟩⟩
  · exact .inl ⟨.io e, s₂, rfl, ht⟩

theorem write_directories (lease : Lease) (text : String) (s : Store) :
    FileTree.SameDirectories s.tree (write lease text s).2.tree := by
  rcases write_tree lease text s with
    ⟨e, s', hw, -, htree | ⟨p, -, hd, htree⟩⟩ | ⟨p, s', -, hw, -, -, hd, hd₂, htree⟩
  all_goals
    rw [hw]
    dsimp only
    rw [htree]
  · exact .refl _
  · exact FileTree.sameDirectories_undo hd _
  · refine (FileTree.sameDirectories_undo hd _).trans
      (FileTree.sameDirectories_set (fun hdir => hd₂ ?_) _)
    have hbefore := (FileTree.sameDirectories_undo hd (.text text) _).2 hdir
    exact (FileTree.sameDirectories_set hd (.text text) _).1 hbefore

theorem release_tree (lease : Lease) (s : Store) :
    ∃ s', release lease s = (.ok (), s') ∧ s'.root = s.root ∧
      (s'.tree = s.tree ∨ s.tree.get? lease.lock ≠ some .directory ∧
        s'.tree = s.tree.erase lease.lock) := by
  simp only [release]
  rw [get_bind]
  rcases hr : s.tree.removeFile lease.lock false with e | t
  · exact ⟨s, rfl, rfl, .inl rfl⟩
  · obtain ⟨hd, rfl⟩ := FileTree.removeFile_eq_ok _ _ _ _ hr
    exact ⟨_, rfl, rfl, .inr ⟨hd, rfl⟩⟩

theorem release_apply (lease : Lease) (s : Store) (c : Content)
    (hw : s.tree.walk [] lease.lock.dropLast = .ok ())
    (he : s.tree.entry lease.lock = .ok (.file c)) :
    release lease s = (.ok (), { s with tree := s.tree.erase lease.lock }) := by
  simp only [release]
  rw [get_bind, FileTree.removeFile_of_file _ _ c hw he]
  rfl

end Store

end LayeredConfig
