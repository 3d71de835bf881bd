import LayeredConfig.Proofs.Commit.Rollback
import LayeredConfig.Proofs.Store.Growth

/-!
# What makes directories

A call for a directory makes one just when the first of its names that is no directory is missing;
otherwise it leaves the tree as it is, whether it succeeds or fails. A commit makes no directory
and removes none, whatever becomes of it: it creates and takes away locks, temporary texts and level
files, and none of these ever goes where a directory is.
-/

set_option autoImplicit false

namespace LayeredConfig

open Run

namespace FileTree

variable {t : FileTree} {above names : Names}

/-- Nothing is made where all names are directories, and where something else is in the way. -/
theorem createDirs_eq_self (h : t.walk above names ≠ .error .notFound) :
    (t.createDirs above names).1 = t := by
  induction names generalizing above with
  | nil => rfl
  | cons name names ih =>
    simp only [walk, createDirs] at h ⊢
    split
    · rename_i hdir
      rw [hdir] at h
      exact ih h
    · rfl
    · rename_i hmissing
      rw [hmissing] at h
      exact absurd rfl h
    · rfl

theorem exists_made (h : t.walk above names = .error .notFound) :
    ∃ path, t.get? path = none ∧ (t.createDirs above names).1.get? path = some .directory := by
  induction names generalizing above with
  | nil => cases h
  | cons name names ih =>
    simp only [walk, createDirs] at h ⊢
    split
    · rename_i hdir
      rw [hdir] at h
      exact ih h
    · rename_i hfile
      rw [hfile] at h
      cases h
    · rename_i hmissing
      refine ⟨above ++ [name], entry_eq_notFound t _ hmissing,
        (grown_createDirs _ _ _).directory ?_⟩
      rw [get?_set t _ _ _ (by simp), if_pos rfl]
    · rename_i e hne he
      rw [he] at h
      exact absurd (Except.error.inj h) hne

theorem walk_of_begins {e : IoFault} {longer : Names} (h : t.walk above names = .error e)
    (hbegins : names <+: longer) : t.walk above longer = .error e := by
  obtain ⟨more, rfl⟩ := hbegins
  induction names generalizing above with
  | nil => cases h
  | cons name names ih =>
    simp only [List.cons_append, walk] at h ⊢
    split
    · rename_i he
      rwa [he] at h
    · rename_i hfile
      rwa [hfile] at h
    · rename_i hdir
      rw [hdir] at h
      exact ih h

/-- The names that a call for a directory makes directories of, where these are missing: a last dot
names one that has to be there already. -/
def wanted (path : Names) : Ending → Names
  | .dot => path.dropLast
  | _ => path

variable {path : Names} {ending : Ending}

theorem createDirAll_eq_self (h : t.walk [] (wanted path ending) ≠ .error .notFound) :
    (t.createDirAll path ending).1 = t := by
  cases ending with
  | plain => exact createDirs_eq_self h
  | slash => exact createDirs_eq_self h
  | dot =>
    simp only [createDirAll]
    split
    · rfl
    · exact createDirs_eq_self h
    · rfl

theorem exists_made_all (h : t.walk [] (wanted path ending) = .error .notFound) :
    ∃ p, t.get? p = none ∧ (t.createDirAll path ending).1.get? p = some .directory := by
  cases ending with
  | plain => exact exists_made h
  | slash => exact exists_made h
  | dot =>
    simp only [createDirAll]
    rw [walk_of_begins h path.dropLast_prefix]
    exact exists_made h

end FileTree

namespace Store

open FileTree

def Makes (s : Store) (dir : String) : Prop :=
  (strike .createDir s.faults).2 = none ∧ ∃ p, Place.ofPath? s.root dir = some p ∧
    p.fault? = none ∧ s.tree.walk [] (wanted p.names p.ending) = .error .notFound

theorem tick_eq (call : StoreCall) (path : String) (s : Store) : tick call path s =
    (match (strike call s.faults).2 with
      | some kind => .error (kind.error path)
      | none => .ok (), { s with faults := (strike call s.faults).1 }) := by
  simp only [tick]
  rw [get_bind]
  rcases strike call s.faults with ⟨faults, _ | kind⟩ <;> rfl

theorem tree_of_createDir (dir : String) (s : Store) : (createDir dir s).2.tree =
    match (strike .createDir s.faults).2, Place.ofPath? s.root dir with
    | none, some p =>
      if p.fault? = none then (s.tree.createDirAll p.names p.ending).1 else s.tree
    | _, _ => s.tree := by
  simp only [createDir]
  rw [bind_apply, tick_eq]
  rcases (strike .createDir s.faults).2 with _ | kind
  · dsimp only
    rw [bind_apply]
    simp only [place]
    rw [get_bind]
    dsimp only
    rcases Place.ofPath? s.root dir with _ | p
    · rfl
    · dsimp only
      rw [pure_apply]
      dsimp only
      rcases p.fault? with _ | e
      · dsimp only
        rw [get_bind]
        dsimp only
        rcases s.tree.createDirAll p.names p.ending with ⟨tree, _ | fault⟩
        · rfl
        · rfl
      · rfl
  · rfl

theorem createDir_eq_self {dir : String} {s : Store} (h : ¬ s.Makes dir) :
    (createDir dir s).2.tree = s.tree := by
  rw [tree_of_createDir]
  split
  · rename_i p hstrike hplace
    split
    · rename_i hfault
      exact createDirAll_eq_self fun hmissing => h ⟨hstrike, p, hplace, hfault, hmissing⟩
    · rfl
  · rfl

theorem createDir_makes {dir : String} {s : Store} (h : s.Makes dir) :
    ∃ path, s.tree.get? path = none ∧ (createDir dir s).2.tree.get? path = some .directory := by
  obtain ⟨hstrike, p, hplace, hfault, hmissing⟩ := h
  rw [tree_of_createDir, hstrike, hplace]
  dsimp only
  rw [if_pos hfault]
  exact exists_made_all hmissing

end Store

namespace Journal

open FileTree

/-- No step of a commit makes or removes a directory. -/
theorem steady_directories (t : FileTree) (files : List String) :
    Steady files fun p => SameDirectories t p.store.tree where
  reading p s hs h := by
    obtain ⟨-, htree⟩ := Store.files_eq _ _ hs
    exact htree ▸ h
  leasing p sectionPath file _ h := by
    rcases lease_outcome sectionPath file p with
      ⟨e, s', hl, -, hview⟩ | ⟨entry, -, hl, -⟩ | ⟨entry, q, s', hl, -, -, htaken, hview, -⟩
    · rw [hl]
      exact fun path => (h path).trans (by rw [hview])
    · rw [hl]
      exact h
    · rw [hl]
      have hfree := entry_eq_notFound _ _ htaken.free
      refine fun path => (h path).trans ?_
      rw [hview]
      split
      · rename_i hlock
        rw [← hlock, hfree]
        exact iff_of_false (by simp) (by simp)
      · exact Iff.rfl
  writing p entry _ text h := h.trans (Store.write_directories entry.lease text p.store)

theorem restore_directories (entry : JournalEntry) (s : Store) :
    SameDirectories s.tree (restore entry s).tree := by
  simp only [restore, after]
  rcases entry.before with _ | text
  · dsimp only
    rcases Store.remove_cases entry.lease s with
      ⟨e, s', hr, hfiles⟩ | ⟨p, s', -, hr, -, ⟨htree, -⟩ | ⟨-, hfile, htree⟩⟩
    · rw [hr, (Store.files_eq _ _ hfiles).2]
      exact .refl _
    · rw [hr, htree]
      exact .refl _
    · rw [hr, htree]
      exact sameDirectories_erase hfile
  · exact Store.write_directories entry.lease text s

theorem release_directories (lease : Lease) (s : Store) :
    SameDirectories s.tree (after (Store.release lease) s).tree := by
  obtain ⟨s', hr, -, htree | ⟨hfile, htree⟩⟩ := Store.release_tree lease s
  · rw [after, hr, htree]
    exact .refl _
  · rw [after, hr, htree]
    exact sameDirectories_erase hfile

theorem rollback_directories (journal : List JournalEntry) (s : Store) :
    SameDirectories s.tree (rollback journal s).tree := by
  induction journal generalizing s with
  | nil => exact .refl _
  | cons entry rest ih =>
    exact (restore_directories entry s).trans ((release_directories entry.lease _).trans (ih _))

theorem releaseAll_directories (journal : List JournalEntry) (s : Store) :
    SameDirectories s.tree (releaseAll journal s).tree := by
  induction journal generalizing s with
  | nil => exact .refl _
  | cons entry rest ih => exact (release_directories entry.lease s).trans (ih _)

/-- After a commit, whatever became of it, the directories are those from before. -/
theorem commit_directories (registry : Registry) (entries : List Staged) (s : Store) :
    SameDirectories s.tree (commit registry entries s).2.tree := by
  have happly := (steady_directories s.tree (entries.map (·.file))).applyEntries registry entries
    (fun e he => List.mem_map_of_mem he) ⟨s, []⟩ (.refl _)
  simp only [commit]
  generalize applyEntries registry entries ⟨s, []⟩ = applied at happly
  rcases applied with ⟨e | ⟨⟩, p⟩
  · exact happly.trans (rollback_directories p.journal p.store)
  · exact happly.trans (releaseAll_directories p.journal p.store)

end Journal

end LayeredConfig
