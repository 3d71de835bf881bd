import LayeredConfig.FileTree

/-!
# Calls on a file tree, seen through the view

Each call that changes a tree is described by what it asks of the view `get?` and what it
does to it. Whether a path can be walked depends on the directories alone, so calls that
create, replace and remove files leave every walk as it was.
-/

set_option autoImplicit false

namespace LayeredConfig.FileTree

def SameDirectories (t u : FileTree) : Prop :=
  ∀ path, t.get? path = some .directory ↔ u.get? path = some .directory

theorem SameDirectories.refl (t : FileTree) : SameDirectories t t := fun _ => Iff.rfl

theorem SameDirectories.trans {t u v : FileTree} (h : SameDirectories t u)
    (h' : SameDirectories u v) : SameDirectories t v := fun path => (h path).trans (h' path)

theorem sameDirectories_set {t : FileTree} {path : Names}
    (hd : t.get? path ≠ some .directory) (c : Content) :
    SameDirectories t (t.set path (.file c)) := by
  have hne : path ≠ [] := fun hpath => hd (by rw [hpath]; rfl)
  intro p
  rw [get?_set t path p _ hne]
  split
  · rename_i hp
    rw [← hp]
    exact iff_of_false hd (by simp)
  · exact Iff.rfl

theorem sameDirectories_erase {t : FileTree} {path : Names}
    (hd : t.get? path ≠ some .directory) : SameDirectories t (t.erase path) := by
  have hne : path ≠ [] := fun hpath => hd (by rw [hpath]; rfl)
  intro p
  rw [get?_erase t path p hne]
  split
  · rename_i hp
    rw [← hp]
    exact iff_of_false hd (by simp)
  · exact Iff.rfl

theorem sameDirectories_undo {t : FileTree} {path : Names}
    (hd : t.get? path ≠ some .directory) (c : Content) :
    SameDirectories t ((t.set path (.file c)).erase path) := by
  refine (sameDirectories_set hd c).trans (sameDirectories_erase fun hdir => ?_)
  exact hd ((sameDirectories_set hd c path).2 hdir)

def isShort (path : Names) : Bool := (path.getLast?.map String.utf8ByteSize).getD 0 ≤ maxName

theorem entry_of_isShort (t : FileTree) (path : Names) (h : isShort path = true) :
    t.entry path = match t.get? path with
      | some node => .ok node
      | none => .error .notFound := by
  have hle := of_decide_eq_true h
  exact if_neg (Nat.not_lt.mpr hle)

theorem isShort_of_entry (t : FileTree) (path : Names) (h : t.entry path ≠ .error .nameTooLong) :
    isShort path = true := by
  simp only [entry] at h
  split at h
  · exact absurd rfl h
  · rename_i hle
    exact decide_eq_true (by omega)

theorem entry_eq_ok (t : FileTree) (path : Names) (node : Node) (h : t.entry path = .ok node) :
    t.get? path = some node := by
  simp only [entry] at h
  split at h
  · cases h
  · split at h
    · rename_i hn
      cases h
      exact hn
    · cases h

theorem entry_eq_notFound (t : FileTree) (path : Names) (h : t.entry path = .error .notFound) :
    t.get? path = none := by
  simp only [entry] at h
  split at h
  · cases h
  · split at h
    · cases h
    · assumption

theorem entry_of_get? (t u : FileTree) (path : Names) (node : Node)
    (h : u.entry path ≠ .error .nameTooLong) (hn : t.get? path = some node) :
    t.entry path = .ok node := by
  simp only [entry] at h ⊢
  split
  · rename_i hl
    rw [if_pos hl] at h
    exact absurd rfl h
  · rw [hn]

theorem entry_congr (t u : FileTree) (path : Names) (h : t.get? path = u.get? path) :
    t.entry path = u.entry path := by
  simp only [entry]
  rw [h]

theorem walk_of_directories (t u : FileTree) (names above : Names)
    (hd : ∀ path, t.get? path = some .directory → u.get? path = some .directory)
    (h : t.walk above names = .ok ()) : u.walk above names = .ok () := by
  induction names generalizing above with
  | nil => rfl
  | cons name names ih =>
    simp only [walk] at h ⊢
    split at h
    · cases h
    · cases h
    · rename_i he
      have hn : t.entry (above ++ [name]) ≠ .error .nameTooLong := by rw [he]; simp
      have hu := hd _ (entry_eq_ok t _ _ he)
      rw [entry_of_get? u t _ _ hn hu]
      exact ih _ h

theorem walk_congr (t u : FileTree) (above names : Names) (hd : SameDirectories t u) :
    t.walk above names = .ok () ↔ u.walk above names = .ok () :=
  ⟨walk_of_directories t u names above fun path => (hd path).1,
    walk_of_directories u t names above fun path => (hd path).2⟩

/-- Only what is on the way counts. -/
theorem walk_eq (t u : FileTree) (above names : Names)
    (h : ∀ path, path <+: above ++ names → t.get? path = u.get? path) :
    t.walk above names = u.walk above names := by
  induction names generalizing above with
  | nil => rfl
  | cons name names ih =>
    have hstep : t.entry (above ++ [name]) = u.entry (above ++ [name]) := by
      apply entry_congr
      exact h _ ⟨names, (List.append_cons above name names).symm⟩
    simp only [walk]
    rw [hstep]
    have hrest := ih (above ++ [name]) fun path hp => h path (by rwa [List.append_cons])
    split
    · rfl
    · rfl
    · exact hrest

theorem readText_eq (t u : FileTree) (path : Names) (asDirectory : Bool)
    (h : ∀ p, p <+: path → t.get? p = u.get? p) :
    t.readText path asDirectory = u.readText path asDirectory := by
  simp only [readText, lookup]
  rw [walk_eq t u [] path.dropLast fun p hp => h p (hp.trans (List.dropLast_prefix path)),
    entry_congr t u path (h path (List.prefix_refl path))]

theorem lookup_eq_ok (t : FileTree) (path : Names) (asDirectory : Bool) (node : Node)
    (h : t.lookup path asDirectory = .ok node) :
    t.walk [] path.dropLast = .ok () ∧ t.entry path = .ok node := by
  simp only [lookup] at h
  rcases hw : t.walk [] path.dropLast with e | u
  · rw [hw] at h; cases h
  · rw [hw] at h
    rcases he : t.entry path with e | found
    · rw [he] at h; cases h
    · rw [he] at h
      refine ⟨rfl, ?_⟩
      cases found with
      | directory => cases asDirectory <;> exact h
      | file c => cases asDirectory <;> first | exact h | cases h

theorem lookup_notFound (t : FileTree) (path : Names) (asDirectory : Bool)
    (hw : t.walk [] path.dropLast = .ok ())
    (h : t.lookup path asDirectory = .error .notFound) : t.get? path = none := by
  simp only [lookup] at h
  rw [hw] at h
  rcases he : t.entry path with e | found
  · rw [he] at h
    cases h
    exact entry_eq_notFound t path he
  · rw [he] at h
    cases found <;> cases asDirectory <;> cases h

@[simp] theorem get?_nil (t : FileTree) : t.get? [] = some .directory := rfl

theorem createNew_eq_ok (t u : FileTree) (path : Names) (h : t.createNew path = .ok u) :
    t.walk [] path.dropLast = .ok () ∧ t.entry path = .error .notFound ∧
      u = t.set path (.file (.text "")) := by
  simp only [createNew] at h
  rcases hw : t.walk [] path.dropLast with e | w
  · rw [hw] at h; cases h
  · rw [hw] at h
    rcases he : t.entry path with e | found
    · rw [he] at h
      cases e <;> cases h
      exact ⟨rfl, rfl, rfl⟩
    · rw [he] at h; cases h

theorem writeText_eq_ok (t u : FileTree) (path : Names) (s : String)
    (h : t.writeText path s = .ok u) :
    t.walk [] path.dropLast = .ok () ∧ t.get? path ≠ some .directory ∧
      u = t.set path (.file (.text s)) := by
  simp only [writeText] at h
  rcases hw : t.walk [] path.dropLast with e | w
  · rw [hw] at h; cases h
  · rw [hw] at h
    rcases he : t.entry path with e | found
    · rw [he] at h
      cases e <;> cases h
      exact ⟨rfl, by simp [entry_eq_notFound t path he], rfl⟩
    · rw [he] at h
      cases found with
      | directory => cases h
      | file c =>
        cases h
        exact ⟨rfl, by simp [entry_eq_ok t path _ he], rfl⟩

theorem removeFile_eq_ok (t u : FileTree) (path : Names) (asDirectory : Bool)
    (h : t.removeFile path asDirectory = .ok u) :
    t.get? path ≠ some .directory ∧ u = t.erase path := by
  simp only [removeFile] at h
  rcases hl : t.lookup path asDirectory with e | found
  · rw [hl] at h; cases h
  · rw [hl] at h
    cases found with
    | directory => cases h
    | file c =>
      cases h
      have he := (lookup_eq_ok t path asDirectory _ hl).2
      exact ⟨by simp [entry_eq_ok t path _ he], rfl⟩

theorem Ending.asDirectory_eq_false_iff (e : Ending) : e.asDirectory = false ↔ e = .plain := by
  cases e <;> simp [asDirectory]

theorem lookup_asDirectory (t : FileTree) (path : Names) (node : Node)
    (h : t.lookup path true = .ok node) : node = .directory := by
  obtain ⟨hw, he⟩ := lookup_eq_ok t path true node h
  simp only [lookup] at h
  rw [hw, he] at h
  cases node with
  | directory => rfl
  | file c => cases h

theorem asDirectory_of_removeFile (t u : FileTree) (path : Names) (asDirectory : Bool)
    (h : t.removeFile path asDirectory = .ok u) : asDirectory = false := by
  simp only [removeFile] at h
  rcases hl : t.lookup path asDirectory with e | found
  · rw [hl] at h
    cases h
  · cases asDirectory with
    | false => rfl
    | true =>
      obtain rfl := lookup_asDirectory t path found hl
      rw [hl] at h
      cases h

theorem file_of_removeFile {t u : FileTree} {path : Names} {asDirectory : Bool}
    (h : t.removeFile path asDirectory = .ok u) : ∃ c, t.get? path = some (.file c) := by
  simp only [removeFile] at h
  rcases hl : t.lookup path asDirectory with e | found
  · rw [hl] at h
    cases h
  · rw [hl] at h
    cases found with
    | directory => cases h
    | file c => exact ⟨c, entry_eq_ok t path _ (lookup_eq_ok t path asDirectory _ hl).2⟩

theorem removeFile_of_file (t : FileTree) (path : Names) (c : Content)
    (hw : t.walk [] path.dropLast = .ok ()) (he : t.entry path = .ok (.file c)) :
    t.removeFile path false = .ok (t.erase path) := by
  simp only [removeFile, lookup]
  rw [hw, he]
  rfl

theorem removeFile_eq_notFound (t : FileTree) (path : Names) (asDirectory : Bool)
    (hw : t.walk [] path.dropLast = .ok ())
    (h : t.removeFile path asDirectory = .error .notFound) : t.get? path = none := by
  simp only [removeFile] at h
  rcases hl : t.lookup path asDirectory with e | found
  · rw [hl] at h
    cases h
    exact lookup_notFound t path asDirectory hw hl
  · rw [hl] at h
    cases found <;> cases h

theorem readText_eq_ok (t : FileTree) (path : Names) (asDirectory : Bool) (s : String)
    (h : t.readText path asDirectory = .ok s) : t.get? path = some (.file (.text s)) := by
  simp only [readText] at h
  rcases hl : t.lookup path asDirectory with e | found
  · rw [hl] at h; cases h
  · rw [hl] at h
    have he := (lookup_eq_ok t path asDirectory _ hl).2
    cases found with
    | directory => cases h
    | file c =>
      cases c with
      | text s' => cases h; exact entry_eq_ok t path _ he
      | binary b => cases h

theorem readText_eq_notFound (t : FileTree) (path : Names) (asDirectory : Bool)
    (hw : t.walk [] path.dropLast = .ok ())
    (h : t.readText path asDirectory = .error .notFound) : t.get? path = none := by
  simp only [readText] at h
  rcases hl : t.lookup path asDirectory with e | found
  · rw [hl] at h
    cases h
    exact lookup_notFound t path asDirectory hw hl
  · rw [hl] at h
    cases found with
    | directory => cases h
    | file c => cases c <;> cases h

theorem rename_eq_ok (t u : FileTree) (source target : Names) (ending : Ending)
    (h : t.rename source target ending = .ok u) :
    ∃ node, t.get? source = some node ∧ ending = .plain ∧ isShort target = true ∧
      t.get? target ≠ some .directory ∧ u = (t.erase source).set target node := by
  simp only [rename] at h
  rcases hl : t.lookup source false with e | node
  · rw [hl] at h; cases h
  · rw [hl] at h
    refine ⟨node, entry_eq_ok t source _ (lookup_eq_ok t source _ _ hl).2, ?_⟩
    cases ending with
    | dot =>
      rcases hw : t.walk [] target with e | w
      all_goals simp only [bind, Except.bind, hw] at h; cases h
    | slash =>
      rcases hw : t.walk [] target.dropLast with e | w
      all_goals simp only [bind, Except.bind, hw] at h; cases h
    | plain =>
      rcases hw : t.walk [] target.dropLast with e | w
      · simp only [bind, Except.bind, hw] at h; cases h
      · simp only [bind, Except.bind, hw] at h
        rcases he : t.entry target with e | found
        · rw [he] at h
          cases e <;> cases h
          exact ⟨rfl, isShort_of_entry t target (by rw [he]; simp),
            by simp [entry_eq_notFound t target he], rfl⟩
        · rw [he] at h
          cases found with
          | directory => cases h
          | file c =>
            cases h
            exact ⟨rfl, isShort_of_entry t target (by rw [he]; simp),
              by simp [entry_eq_ok t target _ he], rfl⟩

end LayeredConfig.FileTree
