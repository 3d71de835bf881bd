import LayeredConfig.Proofs.Commit.Directories
import LayeredConfig.Proofs.Service.Acceptance
import LayeredConfig.Proofs.Service.Isolation

/-!
# The directories of a site that is registered

A site is checked, its directories are made one by one, and the registry is written when the unit
commits. Nothing is made for a site that the checks refuse, but whatever fails after them leaves
the directories that were made until then. So a registration that fails adds no directory just
when none of the calls that it came to had one to make.
-/

set_option autoImplicit false

namespace LayeredConfig

open Run FileTree

def NewSite.directories (new : NewSite) : List String :=
  new.physicalPath :: new.applications.map (·.physicalPath)

def FileTree.NoneAdded (t u : FileTree) : Prop :=
  ∀ path, u.get? path = some .directory → t.get? path = some .directory

theorem FileTree.noneAdded_congr {t t' u u' : FileTree} (ht : SameDirectories t t')
    (hu : SameDirectories u u') : NoneAdded t u ↔ NoneAdded t' u' :=
  forall_congr' fun path => by rw [ht path, hu path]

def Store.Holds (s : Store) (dir : String) : Prop :=
  ∃ p, Place.ofPath? s.root dir = some p ∧ s.tree.walk [] p.names = .ok ()

theorem Store.Holds.not_makes {s : Store} {dir : String} (h : s.Holds dir) : ¬ s.Makes dir := by
  obtain ⟨p, hp, hwalk⟩ := h
  rintro ⟨-, q, hq, -, hmissing⟩
  obtain rfl := Option.some.inj (hp.symm.trans hq)
  have hbegins : wanted p.names p.ending <+: p.names := by
    cases p.ending with
    | dot => exact p.names.dropLast_prefix
    | _ => exact List.prefix_rfl
  rw [walk_of_begins hmissing hbegins] at hwalk
  cases hwalk

namespace WorkUnit

def checkSite (u : WorkUnit) (new : NewSite) : ServiceM (Site × Staged) := do
  let sites ← u.sites
  let site := new.withId (new.id.getD sites.nextId)
  let sites ← Service.ofExcept (sites.add site)
  let change ← u.prepare .global Registry.sitesSection (.replace sites.toValue)
  pure (site, change)

def registerSite (u : WorkUnit) (new : NewSite) : ServiceM (Site × WorkUnit) := do
  let (site, u) ← u.createSite new
  pure (site, ← u.commit)

variable {u : WorkUnit} {new : NewSite} {s s' : Service} {dir : String} {dirs : List String}

theorem registerSite_eq (u : WorkUnit) (new : NewSite) : u.registerSite new = (do
    let (site, change) ← u.checkSite new
    createDirs new.directories
    let u ← u.push change
    pure (site, ← u.commit)) := by
  simp only [registerSite, createSite, checkSite, bind_assoc, pure_bind]
  rfl

def makeDir (dir : String) : ServiceM Unit :=
  Service.onStore (Access.onSection dir (Store.createDir dir))

theorem store_of_makeDir (dir : String) (s : Service) :
    (makeDir dir s).2.store = (Store.createDir dir s.store).2 := by
  rw [makeDir, Service.onStore_apply, Access.onSection_apply]
  rcases Store.createDir dir s.store with ⟨e | ⟨⟩, store⟩ <;> rfl

theorem createDirs_cons (dir : String) (dirs : List String) :
    createDirs (dir :: dirs) = (makeDir dir >>= fun _ => createDirs dirs) := rfl

theorem grown_createDirs_cons (dir : String) (dirs : List String) (s : Service) :
    Grown (makeDir dir s).2.store.tree (createDirs (dir :: dirs) s).2.store.tree := by
  rw [createDirs_cons, bind_apply]
  rcases makeDir dir s with ⟨e | ⟨⟩, mid⟩
  · exact .refl _
  · obtain ⟨store, hrest, hgrows⟩ := createDirs_grows dirs mid
    dsimp only
    rw [hrest]
    exact hgrows.tree

def MakesSome (dirs : List String) (s : Service) : Prop :=
  ∃ before dir after s', dirs = before ++ dir :: after ∧ createDirs before s = (.ok (), s') ∧
    s'.store.Makes dir

theorem not_makesSome_nil : ¬ MakesSome [] s := by
  rintro ⟨before, dir, after, s', h, -⟩
  simp at h

theorem makesSome_cons : MakesSome (dir :: dirs) s ↔ s.store.Makes dir ∨
    ∃ s', makeDir dir s = (.ok (), s') ∧ MakesSome dirs s' := by
  constructor
  · rintro ⟨before, d, after, s', hsplit, hbefore, hmakes⟩
    rcases before with _ | ⟨first, before⟩
    · cases hsplit
      cases hbefore
      exact .inl hmakes
    · obtain ⟨rfl, rfl⟩ := List.cons.inj hsplit
      obtain ⟨⟨⟩, mid, hfirst, hrest⟩ := bind_eq_ok hbefore
      exact .inr ⟨mid, hfirst, before, d, after, s', rfl, hrest, hmakes⟩
  · rintro (hmakes | ⟨mid, hfirst, before, d, after, s', rfl, hrest, hmakes⟩)
    · exact ⟨[], dir, dirs, s, rfl, rfl, hmakes⟩
    · refine ⟨dir :: before, d, after, s', rfl, ?_, hmakes⟩
      rw [createDirs_cons, bind_of_ok hfirst]
      exact hrest

theorem noneAdded_createDirs_iff (dirs : List String) (s : Service) :
    NoneAdded s.store.tree (createDirs dirs s).2.store.tree ↔ ¬ MakesSome dirs s := by
  induction dirs generalizing s with
  | nil => exact iff_of_true (fun _ h => h) not_makesSome_nil
  | cons dir dirs ih =>
    rw [makesSome_cons]
    by_cases hmakes : s.store.Makes dir
    · refine iff_of_false (fun hnone => ?_) (not_not_intro (.inl hmakes))
      obtain ⟨path, hmissing, hmade⟩ := Store.createDir_makes hmakes
      rw [← store_of_makeDir] at hmade
      rw [hnone path ((grown_createDirs_cons dir dirs s).directory hmade)] at hmissing
      cases hmissing
    · have htree := Store.createDir_eq_self hmakes
      rw [← store_of_makeDir] at htree
      rw [createDirs_cons, bind_apply]
      rcases hfirst : makeDir dir s with ⟨e | ⟨⟩, mid⟩
      · rw [hfirst] at htree
        dsimp only at htree ⊢
        rw [htree]
        refine iff_of_true (fun _ h => h) ?_
        rintro (h | ⟨mid', h, -⟩)
        · exact hmakes h
        · cases h
      · rw [hfirst] at htree
        dsimp only at htree ⊢
        rw [← htree, ih mid]
        refine not_congr ⟨fun h => .inr ⟨mid, rfl, h⟩, ?_⟩
        rintro (h | ⟨mid', h, hrest⟩)
        · exact absurd h hmakes
        · cases h
          exact hrest

theorem not_makesSome_of_holds (h : ∀ dir ∈ dirs, s.store.Holds dir) : ¬ MakesSome dirs s := by
  induction dirs generalizing s with
  | nil => exact not_makesSome_nil
  | cons dir dirs ih =>
    obtain ⟨hdir, hdirs⟩ := List.forall_mem_cons.mp h
    rw [makesSome_cons]
    rintro (hmakes | ⟨mid, hfirst, hmakes⟩)
    · exact hdir.not_makes hmakes
    · have hstore := store_of_makeDir dir s
      have hroot := (Store.preserves_createDir s.store dir s.store (.refl _)).root
      have htree := Store.createDir_eq_self hdir.not_makes
      rw [← hstore, hfirst] at hroot htree
      refine ih (fun d hd => ?_) hmakes
      obtain ⟨p, hp, hwalk⟩ := hdirs d hd
      exact ⟨p, hroot ▸ hp, htree ▸ hwalk⟩

theorem files_of_checkSite (hu : u.transaction = none) (new : NewSite) (s : Service) :
    (u.checkSite new s).2.store.files = s.store.files := by
  have hlooks : u.Observed fun t => t.store.files = s.store.files :=
    ⟨fun id hid => (by rw [hu] at hid; cases hid), fun t store hlooked ht => hlooked.files.trans ht⟩
  have hkeeps : Preserves (fun t : Service => t.store.files = s.store.files) (u.checkSite new) := by
    simp only [checkSite]
    refine preserves_bind hlooks.sites fun sites => ?_
    refine preserves_bind (Service.preserves_ofExcept _) fun sites => ?_
    exact preserves_bind (hlooks.prepare _ _ _) fun change => preserves_pure _
  exact hkeeps s rfl

theorem preserves_directories_commit (t : FileTree) (u : WorkUnit) :
    Preserves (fun s => SameDirectories t s.store.tree) u.commit := by
  refine preserves_commit fun _ => ?_
  simp only [Service.applySet]
  refine preserves_bind preserves_get fun _ => preserves_bind (Service.preserves_ofExcept _)
    fun _ s hs => ?_
  exact hs.trans (Journal.commit_directories _ _ _)

/-- A site that the checks refuse leaves the files. -/
theorem files_of_refused {e : ConfigError} (hu : u.transaction = none)
    (h : u.checkSite new s = (.error e, s')) :
    (u.registerSite new s).2.store.files = s.store.files := by
  have hfiles := files_of_checkSite hu new s
  rw [registerSite_eq, bind_apply]
  rw [h] at hfiles ⊢
  exact hfiles

/-- After the directories of a site none is made or removed any more. -/
theorem directories_of_checked {site : Site} {change : Staged} (hu : u.transaction = none)
    (h : u.checkSite new s = (.ok (site, change), s')) :
    SameDirectories (createDirs new.directories s').2.store.tree
      (u.registerSite new s).2.store.tree := by
  rw [registerSite_eq, bind_of_ok h]
  dsimp only
  rw [bind_apply]
  rcases createDirs new.directories s' with ⟨e | ⟨⟩, made⟩
  · exact .refl _
  · have hpush : Preserves (fun s => SameDirectories made.store.tree s.store.tree)
        (u.push change) := by
      simp only [push]
      rw [hu]
      exact preserves_pure _
    exact preserves_bind hpush (fun u => preserves_bind (preserves_directories_commit _ u)
      fun _ => preserves_pure _) made (.refl _)

end WorkUnit

open WorkUnit

/-- When a site is registered, whether that succeeds or fails, a directory comes about just when
the checks pass and one of the calls for its directories makes one. None does where they are all
there. -/
theorem registerSite_directories_iff (u : WorkUnit) (new : NewSite) (s : Service)
    (hu : u.transaction = none) :
    let s' := (u.registerSite new s).2
    (NoneAdded s.store.tree s'.store.tree ↔ ∀ site change mid,
      u.checkSite new s = (.ok (site, change), mid) → ¬ MakesSome new.directories mid) ∧
    ((∀ dir ∈ new.directories, s.store.Holds dir) → NoneAdded s.store.tree s'.store.tree) := by
  dsimp only
  rcases hcheck : u.checkSite new s with ⟨e | ⟨site, change⟩, mid⟩
  · have hnone : NoneAdded s.store.tree (u.registerSite new s).2.store.tree := by
      rw [(Store.files_eq _ _ (files_of_refused hu hcheck)).2]
      exact fun _ hdir => hdir
    exact ⟨iff_of_true hnone fun _ _ _ hok => (by cases hok), fun _ => hnone⟩
  · have hfiles := files_of_checkSite hu new s
    rw [hcheck] at hfiles
    obtain ⟨hroot, htree⟩ := Store.files_eq _ _ hfiles
    dsimp only at hroot htree
    have hiff : NoneAdded s.store.tree (u.registerSite new s).2.store.tree ↔
        ¬ MakesSome new.directories mid := by
      rw [← noneAdded_createDirs_iff, htree]
      exact (noneAdded_congr (.refl _) (directories_of_checked hu hcheck)).symm
    refine ⟨hiff.trans ⟨?_, fun hall => hall _ _ _ rfl⟩, fun hholds => hiff.mpr ?_⟩
    · intro hnone _ _ _ hok
      cases hok
      exact hnone
    · refine not_makesSome_of_holds fun dir hdir => ?_
      obtain ⟨p, hp, hwalk⟩ := hholds dir hdir
      exact ⟨p, hroot ▸ hp, htree ▸ hwalk⟩

def lockedDisk : Store :=
  { bareDisk with tree := bareDisk.tree.set ["srv", "host.toml.lock"] (.file (.text "")) }

theorem registerSite_directories_locked :
    let s := Service.new { lockedDisk with tree := lockedDisk.tree.set ["srv", "shop"] .directory }
      .builtin 900 0
    let registered := (WorkUnit.new none).registerSite newShop s
    registered.1.isOk = false ∧ NoneAdded s.store.tree registered.2.store.tree := by
  dsimp only
  refine ⟨by decide +kernel, (registerSite_directories_iff (.new none) newShop _ rfl).2 ?_⟩
  intro dir hdir
  obtain rfl := List.mem_singleton.mp hdir
  exact ⟨⟨["srv", "shop"], .plain, "/srv/shop"⟩, by decide +kernel, by decide +kernel⟩

def newShopApi : NewSite := ⟨none, "shop", "shop", true, [⟨"/api", "shop/api"⟩]⟩

/-- The directory stays when the commit finds the global file locked, and so does the first of two
when the second cannot be made. -/
theorem registerSite_leaves_directories :
    let run := fun new disk => (WorkUnit.new none).registerSite new (.new disk .builtin 900 0)
    let failing : Store := { bareDisk with faults := [⟨.createDir, 2, .io⟩] }
    let shop := ["srv", "shop"]
    (run newShop lockedDisk).1 = .error (.locked "host/sites" (.fileInUse "host.toml")) ∧
      lockedDisk.tree.get? shop = none ∧
      (run newShop lockedDisk).2.store.tree.get? shop = some .directory ∧
      (run newShopApi failing).1.isOk = false ∧ failing.tree.get? shop = none ∧
      (run newShopApi failing).2.store.tree.get? shop = some .directory := by
  decide +kernel

end LayeredConfig
