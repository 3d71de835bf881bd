import Mathlib.Data.List.Infix
import LayeredConfig.Proofs.Commit.Unfailing
import LayeredConfig.Proofs.Store.Enabled

/-!
# Directories that are made meanwhile

Making a directory puts directories where nothing was and changes nothing else. Where every file
lies in directories, a file that can be read before and after then reads the same.
-/

set_option autoImplicit false

namespace LayeredConfig

open Run

namespace FileTree

variable {t u v : FileTree}

def Grown (t u : FileTree) : Prop :=
  ∀ path, u.get? path = t.get? path ∨ t.get? path = none ∧ u.get? path = some .directory

theorem Grown.refl (t : FileTree) : Grown t t := fun _ => .inl rfl

theorem Grown.trans (h : Grown t u) (h' : Grown u v) : Grown t v := by
  intro path
  rcases h' path with hsame | ⟨hnone, hdir⟩
  · rw [hsame]
    exact h path
  · rcases h path with hsame | ⟨-, hdir'⟩
    · exact .inr ⟨hsame.symm.trans hnone, hdir⟩
    · rw [hdir'] at hnone
      cases hnone

theorem Grown.directory (h : Grown t u) {path : Names} (hd : t.get? path = some .directory) :
    u.get? path = some .directory := by
  rcases h path with hsame | ⟨hnone, -⟩
  · rw [hsame, hd]
  · rw [hd] at hnone
    cases hnone

theorem Grown.file_iff (h : Grown t u) (path : Names) (c : Content) :
    u.get? path = some (.file c) ↔ t.get? path = some (.file c) := by
  rcases h path with hsame | ⟨hnone, hdir⟩
  · rw [hsame]
  · rw [hnone, hdir]
    exact ⟨fun hf => (by cases hf), fun hf => (by cases hf)⟩

theorem Grown.entry (h : Grown t u) {path : Names} (he : t.entry path ≠ .error .notFound) :
    u.entry path = t.entry path := by
  rcases h path with hsame | ⟨hnone, -⟩
  · exact entry_congr u t path hsame
  · simp only [FileTree.entry] at he ⊢
    split
    · rfl
    · rename_i hshort
      rw [if_neg hshort, hnone] at he
      exact absurd rfl he

theorem Grown.walk (h : Grown t u) {above names : Names}
    (hw : t.walk above names ≠ .error .notFound) : u.walk above names = t.walk above names := by
  induction names generalizing above with
  | nil => rfl
  | cons name names ih =>
    simp only [FileTree.walk] at hw ⊢
    have he : t.entry (above ++ [name]) ≠ .error .notFound := by
      intro he
      rw [he] at hw
      exact hw rfl
    rw [h.entry he]
    split
    · rfl
    · rfl
    · rename_i hdir
      rw [hdir] at hw
      exact ih hw

theorem Grown.readText (h : Grown t u) {path : Names} {asDirectory : Bool}
    (hread : t.readText path asDirectory ≠ .error .notFound) :
    u.readText path asDirectory = t.readText path asDirectory := by
  simp only [FileTree.readText, lookup] at hread ⊢
  have hw : t.walk [] path.dropLast ≠ .error .notFound := by
    intro hw
    rw [hw] at hread
    exact hread rfl
  rw [h.walk hw]
  rcases hwalk : t.walk [] path.dropLast with e | done
  · rfl
  · rw [hwalk] at hread
    have he : t.entry path ≠ .error .notFound := by
      intro he
      rw [he] at hread
      exact hread rfl
    rw [h.entry he]

theorem grown_set {path : Names} (hn : t.get? path = none) : Grown t (t.set path .directory) := by
  have hne : path ≠ [] := by
    rintro rfl
    cases hn
  intro p
  rw [get?_set t path p .directory hne]
  by_cases hp : path = p
  · rw [if_pos hp, ← hp]
    exact .inr ⟨hn, rfl⟩
  · rw [if_neg hp]
    exact .inl rfl

theorem grown_createDirs (t : FileTree) (above names : Names) :
    Grown t (t.createDirs above names).1 := by
  induction names generalizing t above with
  | nil => exact Grown.refl t
  | cons name names ih =>
    simp only [createDirs]
    split
    · exact ih t _
    · exact Grown.refl t
    · rename_i hentry
      exact (grown_set (entry_eq_notFound t _ hentry)).trans (ih _ _)
    · exact Grown.refl t

theorem grown_createDirAll (t : FileTree) (path : Names) (ending : Ending) :
    Grown t (t.createDirAll path ending).1 := by
  cases ending with
  | plain => exact grown_createDirs t [] path
  | slash => exact grown_createDirs t [] path
  | dot =>
    simp only [createDirAll]
    split
    · exact Grown.refl t
    · exact grown_createDirs t [] path.dropLast
    · exact Grown.refl t

def Rooted (t : FileTree) : Prop :=
  ∀ path c, t.get? path = some (.file c) →
    ∀ above, above <+: path → above ≠ path → t.get? above = some .directory

theorem mem_entries {path : Names} {node : Node} (hne : path ≠ [])
    (h : t.get? path = some node) : (path, node) ∈ t.entries := by
  simp only [get?] at h
  rw [if_neg hne] at h
  have hmem : ∀ floor : Floor, find? path floor = some node → (path, node) ∈ floor := by
    intro floor hfind
    induction floor with
    | nil => cases hfind
    | cons e rest ih =>
      obtain ⟨p, here⟩ := e
      simp only [find?] at hfind
      split at hfind
      · rename_i hp
        rw [hp, Option.some.inj hfind]
        exact List.mem_cons_self
      · exact List.mem_cons_of_mem _ (ih hfind)
  simp only [floor] at h
  rcases hfloor : t.floors[path.length]? with _ | here
  · rw [hfloor] at h
    cases h
  · rw [hfloor] at h
    exact List.mem_flatten.mpr ⟨here, List.mem_of_getElem? hfloor, hmem here h⟩

theorem rooted_of_entries
    (h : ∀ e ∈ t.entries, ∀ above ∈ e.1.inits, above ≠ e.1 → t.get? above = some .directory) :
    Rooted t := by
  intro path c hfile above habove hne
  have hpath : path ≠ [] := by
    rintro rfl
    cases hfile
  exact h _ (mem_entries hpath hfile) above ((List.mem_inits above path).mpr habove) hne

theorem Rooted.grown (h : Rooted t) (hg : Grown t u) : Rooted u := by
  intro path c hfile above habove hne
  exact hg.directory (h path c ((hg.file_iff path c).1 hfile) above habove hne)

/-- A file that was there before reads the same. -/
theorem Rooted.readText_grown (h : Rooted t) (hg : Grown t u) {path : Names} {c : Content}
    (hf : t.get? path = some (.file c)) (asDirectory : Bool) :
    t.readText path asDirectory = u.readText path asDirectory := by
  apply readText_eq
  intro above habove
  by_cases hself : above = path
  · rw [hself, hf, (hg.file_iff path c).2 hf]
  · have hdir := h path c hf above habove hself
    rw [hdir, hg.directory hdir]

end FileTree

namespace Store

open FileTree

variable {root : Names} {t u : FileTree} {file : String} {d d' : LevelDocument}

theorem documentIn_congr {root' : Names} (h : textIn root' u file = textIn root t file) :
    documentIn root' u file = documentIn root t file := by
  simp only [documentIn]
  rw [h]

theorem textIn_grown (hg : Grown t u) (h : textIn root t file ≠ .ok none) :
    textIn root u file = textIn root t file := by
  simp only [textIn] at h ⊢
  rcases hp : Place.ofPath? root file with _ | p
  · rfl
  · rw [hp] at h
    dsimp only at h ⊢
    rcases hfault : p.fault? with _ | e
    · rw [hfault] at h
      dsimp only at h ⊢
      rw [hg.readText]
      intro hread
      rw [hread] at h
      exact h rfl
    · rfl

/-- Where every file lies in directories, a file that was missing has no text afterwards. -/
theorem missing_of_grown (hr : Rooted t) (hg : Grown t u) {text : Option String}
    (h : textIn root t file = .ok none) (h' : textIn root u file = .ok text) : text = none := by
  rcases text with _ | text
  · rfl
  · simp only [textIn] at h h'
    rcases hp : Place.ofPath? root file with _ | p
    · rw [hp] at h
      cases h
    · rw [hp] at h h'
      dsimp only at h h'
      rcases hfault : p.fault? with _ | e
      · rw [hfault] at h h'
        dsimp only at h h'
        rcases hread : u.readText p.names p.ending.asDirectory with e | found
        · rw [hread] at h'
          cases e <;> cases h'
        · have hfile := readText_eq_ok u p.names _ found hread
          rw [hr.readText_grown hg ((hg.file_iff _ _).1 hfile), hread] at h
          cases h
      · rw [hfault] at h
        cases h

/-- A file that can be read before and after has the same document. -/
theorem documentIn_grown (hr : Rooted t) (hg : Grown t u) (hd : documentIn root t file = .ok d)
    (hd' : documentIn root u file = .ok d') : d' = d := by
  by_cases hmissing : textIn root t file = .ok none
  · obtain ⟨text, htext, -⟩ := answer_of_bind hd'
    rw [missing_of_grown hr hg hmissing htext, ← hmissing] at htext
    exact Except.ok.inj (hd'.symm.trans ((documentIn_congr htext).trans hd))
  · exact Except.ok.inj (hd'.symm.trans ((documentIn_congr (textIn_grown hg hmissing)).trans hd))

structure Grows (s s' : Store) : Prop where
  root : s'.root = s.root
  tree : FileTree.Grown s.tree s'.tree
  unfailing : ∀ kind, s.Unfailing kind → s'.Unfailing kind

theorem Grows.refl (s : Store) : Grows s s := ⟨rfl, .refl _, fun _ h => h⟩

theorem Grows.trans {s s₁ s₂ : Store} (h : Grows s s₁) (h' : Grows s₁ s₂) : Grows s s₂ where
  root := h'.root.trans h.root
  tree := h.tree.trans h'.tree
  unfailing kind hs := h'.unfailing kind (h.unfailing kind hs)

/-- A call that keeps the files and the faults that it spares lets a store grow by nothing. -/
theorem preserves_grows {α : Type} {x : StoreM α} (hfiles : Keeps files x)
    (hfaults : ∀ kind, Preserves (Unfailing kind) x) (s : Store) : Preserves (Grows s) x := by
  intro s₁ h
  obtain ⟨hroot, htree⟩ := files_eq _ _ (hfiles s₁)
  exact h.trans ⟨hroot, htree ▸ .refl _, fun kind => hfaults kind s₁⟩

structure Looked (s s' : Store) : Prop where
  files : s'.files = s.files
  unfailing : ∀ kind, s.Unfailing kind → s'.Unfailing kind

theorem Looked.refl (s : Store) : Looked s s := ⟨rfl, fun _ h => h⟩

theorem Looked.grows {s s' : Store} (h : Looked s s') : Grows s s' := by
  obtain ⟨hroot, htree⟩ := files_eq s s' h.files
  exact ⟨hroot, htree ▸ .refl _, h.unfailing⟩

theorem looked_load (s : Store) (file : String) : Preserves (Looked s) (load file) :=
  fun s₁ h => ⟨(keeps_load file s₁).trans h.files,
    fun kind hs => preserves_load file s₁ (h.unfailing kind hs)⟩

theorem preserves_createDir (s : Store) (dir : String) : Preserves (Grows s) (createDir dir) := by
  simp only [createDir]
  refine preserves_bind (preserves_grows (keeps_tick _ _) (fun _ => preserves_tick _ _) s)
    fun _ => ?_
  refine preserves_bind (preserves_grows (keeps_place _) (fun _ => preserves_place _) s)
    fun p => ?_
  intro s₁ h
  rcases p.fault? with _ | e
  · dsimp only
    rw [get_bind]
    have hgrown := grown_createDirAll s₁.tree p.names p.ending
    generalize s₁.tree.createDirAll p.names p.ending = made at hgrown
    obtain ⟨tree, _ | fault⟩ := made
    · exact h.trans ⟨rfl, hgrown, fun _ hs => hs⟩
    · exact h.trans ⟨rfl, hgrown, fun _ hs => hs⟩
  · exact h

end Store

end LayeredConfig
