import LayeredConfig.Proofs.Commit.Rollback

/-!
# All or nothing

A set that cannot be written, and a single edit that cannot be written, leave every file
and every lock as they were, whatever went wrong and however much was written before.
-/

set_option autoImplicit false

namespace LayeredConfig

open Run Journal

namespace Service

theorem onStore_apply {α : Type} (x : ConfigM α) (s : Service) :
    onStore x s = ((x s.store).1, { s with store := (x s.store).2 }) := rfl

theorem onStore_looking {α : Type} {x : ConfigM α} {r : Except ConfigError α} {s : Service}
    (h : x s.store = (r, s.store)) : onStore x s = (r, s) := by
  rw [onStore_apply, h]

/-- Either somebody else's claim stops the set before anything is done, or its entries
are committed. -/
theorem applySet_cases (set : StagedSet) (owner : Option String) (s : Service) :
    (∃ e, applySet set owner s = (.error e, s)) ∨
      applySet set owner s = onStore (Journal.commit s.registry set.entries) s := by
  simp only [applySet]
  rw [get_bind, bind_apply]
  rcases h : set.entries.forM fun e => s.claims.check e owner with e | u
  · exact .inl ⟨e, rfl⟩
  · exact .inr rfl

end Service

/-- A failed call on the files restores them: every path of the tree shows what it showed
before, so files hold what they held and the same locks are there. That is so for a whole set
and for a single edit, if giving the notes of the commit back does not fail as well. -/
theorem failed_write_restores :
    (∀ (set : StagedSet) (owner : Option String) (s s' : Service) (e : ConfigError),
      Service.applySet set owner s = (.error e, s') →
      Apart s.store.root s.store.tree (set.entries.map (·.file)) →
      RollbackSound s.registry set.entries s.store →
      ∀ path, s'.store.tree.get? path = s.store.tree.get? path) ∧
    (∀ (registry : Registry) (scope : Scope) (name : String) (m : Mutation) (s s' : Store)
      (e : ConfigError), Access.setSection registry scope name m s = (.error e, s') →
      (∀ target s₁, Access.checkWrite registry none scope name m s = (.ok target, s₁) →
        Apart s.root s.tree [target.file] ∧
          RollbackSound registry [Staged.of scope target name m] s₁) →
      ∀ path, s'.tree.get? path = s.tree.get? path) := by
  constructor
  · intro set owner s s' e h ha hr path
    rcases Service.applySet_cases set owner s with ⟨e', he⟩ | hc
    · rw [he] at h
      cases h
      rfl
    · rw [hc, Service.onStore_apply] at h
      rcases hs : Journal.commit s.registry set.entries s.store with ⟨r, store⟩
      rw [hs] at h
      cases h
      exact commit_error_view s.registry set.entries s.store store e hs ha hr path
  · intro registry scope name m s s' e h hsound path
    simp only [Access.setSection] at h
    rcases bind_eq_error h with hcheck | ⟨target, s₁, hcheck, hcommit⟩
    · rw [(Store.files_eq _ _ ((Access.keeps_checkWrite _ _ _ _ _).of_eq hcheck)).2]
    · obtain ⟨hroot, htree⟩ := Store.files_eq _ _ ((Access.keeps_checkWrite _ _ _ _ _).of_eq hcheck)
      obtain ⟨ha, hr⟩ := hsound target s₁ hcheck
      rw [← hroot, ← htree] at ha
      rw [← htree]
      exact commit_error_view registry [Staged.of scope target name m] s₁ s' e hcommit ha hr path

def fullDisk : Store :=
  ⟨["srv"], ((FileTree.empty.set ["srv"] .directory).set ["srv", "shop"] .directory).set
    ["srv", "host.toml"] (.file (.text "[sections.static_content]\nmime_maps = []\n")),
    [⟨.write, 2, .io⟩]⟩

def twoFiles : StagedSet :=
  ⟨[⟨.global, "host", "host.toml", "default_document", .replace (.obj [])⟩,
    ⟨.file "shop/web.toml", "shop/web.toml", "shop/web.toml", "directory_browse",
      .replace (.obj [("enabled", .bool true)])⟩]⟩

theorem failed_write_restores_fullDisk :
    (Service.applySet twoFiles none (.new fullDisk .builtin 900 0)).1 =
        .error (.storage "io error: disk full") ∧
      ∀ path,
        (Service.applySet twoFiles none (.new fullDisk .builtin 900 0)).2.store.tree.get? path =
          fullDisk.tree.get? path := by
  have h : (Service.applySet twoFiles none (.new fullDisk .builtin 900 0)).1 =
      .error (.storage "io error: disk full") := by decide +kernel
  have ha : Apart fullDisk.root fullDisk.tree (twoFiles.entries.map (·.file)) := by decide +kernel
  have hr : RollbackSound .builtin twoFiles.entries fullDisk := by decide +kernel
  refine ⟨h, ?_⟩
  generalize hs : Service.applySet twoFiles none (.new fullDisk .builtin 900 0) = result at h ⊢
  obtain ⟨answer, after⟩ := result
  obtain rfl : answer = _ := h
  exact failed_write_restores.1 twoFiles none _ after _ hs ha hr

end LayeredConfig
