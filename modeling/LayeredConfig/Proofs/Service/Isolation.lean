import LayeredConfig.Proofs.Service.Staging
import LayeredConfig.Proofs.Store.Settling

/-!
# Work that is not committed

What is done within a transaction stays in its staged set, but for the directories of new sites,
which are made at once. Others then read what they have read before, as long as no file that they
find missing has got a directory in its place or an unreachable one.
-/

set_option autoImplicit false

namespace LayeredConfig

open Run

namespace Store

def StillMissing (s s' : Store) (files : List String) : Prop :=
  ∀ file ∈ files, textIn s.root s.tree file = .ok none → textIn s'.root s'.tree file = .ok none

instance (s s' : Store) (files : List String) : Decidable (s.StillMissing s' files) :=
  inferInstanceAs (Decidable (∀ file ∈ files, _ → _))

variable {s s' : Store} {files : List String} {file : String} {overlay : Option StagedSet}

theorem Grows.look_eq (h : s.Grows s') (hmissing : s.StillMissing s' files)
    (overlay : Option StagedSet) :
    ∀ file ∈ files, Access.look overlay s'.root s'.tree file =
      Access.look overlay s.root s.tree file := by
  intro file hfile
  have htext : textIn s'.root s'.tree file = textIn s.root s.tree file := by
    by_cases hnone : textIn s.root s.tree file = .ok none
    · rw [hmissing file hfile hnone, hnone]
    · rw [h.root]
      exact textIn_grown h.tree hnone
  simp only [Access.look]
  rw [documentIn_congr htext]

theorem Grows.missing_of_look (h : s.Grows s') (hr : s.tree.Rooted) {d : LevelDocument}
    (hfound : Access.look overlay s'.root s'.tree file = .ok d)
    (hnone : textIn s.root s.tree file = .ok none) : textIn s'.root s'.tree file = .ok none := by
  obtain ⟨former, hformer, -⟩ := answer_of_map hfound
  obtain ⟨text, htext, -⟩ := answer_of_bind (answer_of_mapError hformer)
  rw [h.root] at htext ⊢
  rw [htext, missing_of_grown hr h.tree hnone htext]

end Store

namespace Service

structure Aside (id : String) (s s' : Service) : Prop where
  store : s.store.Grows s'.store
  registry : s'.registry = s.registry
  others : ∀ other, other ≠ id → s'.find? other = s.find? other

variable {id : String} {s s' : Service}

theorem Aside.refl (id : String) (s : Service) : Aside id s s :=
  ⟨.refl _, rfl, fun _ _ => rfl⟩

theorem Aside.put (h : Aside id s s') {t : Transaction} (hf : s'.find? id = some t)
    (t' : Transaction) (hid : t'.id = t.id) (claims : Claims) :
    Aside id s ({ s' with claims := claims }.put t') where
  store := h.store
  registry := h.registry
  others other hne := by
    rw [find?_put_of_ne fun heq => hne (heq.symm.trans (hid.trans (id_of_find? hf)))]
    exact h.others other hne

theorem aside_snapshot (id : String) (s : Service) : Preserves (Aside id s) (snapshot id) :=
  preserves_pending id _ fun t s' h hf _ =>
    h.put hf { t with lastActivity := s'.now } rfl s'.claims

theorem aside_stage (id : String) (change : Staged) (s : Service) :
    Preserves (Aside id s) (stage id change) := by
  refine preserves_pending id _ fun t s' h hf _ => ?_
  rw [get_bind, bind_apply]
  rcases s'.claims.claim change id with e | claims
  · exact h
  · exact h.put hf { t with staged := t.staged.stage change, lastActivity := s'.now } rfl claims

theorem aside_abort (id : String) (s : Service) : Preserves (Aside id s) (abort id) :=
  preserves_pending id _ fun t s' h hf _ =>
    h.put hf { t with state := .aborted, staged := .empty, lastActivity := s'.now } rfl
      (s'.claims.release t.id)

theorem snapshot_answer (id : String) (s : Service) :
    (snapshot id s).1 = match s.find? id with
      | none => .error (.notFound (.transaction id))
      | some t =>
        if t.state = .pending then .ok t.staged else .error (.transactionState t.id t.state) := by
  simp only [snapshot]
  rw [bind_apply, pendingTransaction_apply]
  rcases s.find? id with _ | t
  · rfl
  · dsimp only
    by_cases hp : t.state = .pending
    · rw [if_pos hp, if_pos hp]
      rfl
    · rw [if_neg hp, if_neg hp]

end Service

namespace WorkUnit

variable {u : WorkUnit} {s s' : Service}

theorem openToGrowth_aside (id : String) (s : Service) :
    Service.OpenToGrowth (Service.Aside id s) :=
  fun _ _ hgrows h => ⟨h.store.trans hgrows, h.registry, h.others⟩

/-- A unit that is bound to a transaction leaves everything else aside. -/
theorem withstood_aside {id : String} (hu : u.transaction = some id) (s : Service) :
    u.Withstood (Service.Aside id s) where
  snapshot other hother := by
    obtain rfl := Option.some.inj (hu.symm.trans hother)
    exact Service.aside_snapshot id s
  stage other change hother := by
    obtain rfl := Option.some.inj (hu.symm.trans hother)
    exact Service.aside_stage id change s
  looked := (openToGrowth_aside id s).looked

theorem keeps_overlay (u : WorkUnit) :
    Keeps (fun s : Service => (s.store, s.registry)) u.overlay := by
  intro s
  simp only [overlay]
  rcases u.transaction with _ | id
  · rfl
  · dsimp only
    simp only [Service.snapshot]
    rw [bind_apply, bind_apply]
    rcases Service.pendingTransaction_cases id s with ⟨e, he⟩ | ⟨t, -, -, he⟩
    · rw [he]
    · rw [he]
      rfl

theorem overlay_congr (h : ∀ id, u.transaction = some id → s'.find? id = s.find? id) :
    (u.overlay s').1 = (u.overlay s).1 := by
  simp only [overlay]
  rcases hu : u.transaction with _ | id
  · rfl
  · have hsnap : (Service.snapshot id s').1 = (Service.snapshot id s).1 := by
      rw [Service.snapshot_answer, Service.snapshot_answer, h id hu]
    dsimp only
    rw [bind_apply, bind_apply]
    rcases hs : Service.snapshot id s with ⟨e | staged, s₁⟩
    · rw [hs] at hsnap
      rw [eq_of_answer hsnap]
    · rw [hs] at hsnap
      rw [eq_of_answer hsnap]
      rfl

theorem answer_of_overlay {α : Type} {f : Option StagedSet → ServiceM α}
    {g : Option StagedSet → Except ConfigError α}
    (h : ∀ overlay s₁, s₁.store = s.store → s₁.registry = s.registry →
      (f overlay s₁).1 = g overlay) :
    ((u.overlay >>= f) s).1 = (u.overlay s).1 >>= g := by
  rw [bind_apply]
  have hkeeps := u.keeps_overlay s
  rcases hover : u.overlay s with ⟨e | overlay, s₁⟩
  · rfl
  · rw [hover] at hkeeps
    obtain ⟨hstore, hregistry⟩ := Prod.mk.inj hkeeps
    exact h overlay s₁ hstore hregistry

theorem getSection_answer (scope : Scope) (name : String) (hr : s.store.Unfailing .read) :
    (u.getSection scope name s).1 = (u.overlay s).1 >>= fun overlay =>
      Access.sectionFrom s.registry overlay (Access.look overlay s.store.root s.store.tree) scope
        name := by
  refine answer_of_overlay fun overlay s₁ hstore hregistry => ?_
  rw [get_bind, Service.onStore_looking (Access.getSection_apply overlay _ scope name s₁.store
    (hstore ▸ hr)), hstore, hregistry]

theorem sites_answer (hr : s.store.Unfailing .read) :
    (u.sites s).1 = (u.overlay s).1 >>= fun overlay =>
      Access.sitesFrom (Access.look overlay s.store.root s.store.tree) := by
  refine answer_of_overlay fun overlay s₁ hstore _ => ?_
  rw [Service.onStore_looking (Access.sites_apply overlay s₁.store (hstore ▸ hr)), hstore]

def filesAt (u : WorkUnit) (scope : Scope) (s : Service) : List String :=
  match (u.overlay s).1 with
  | .ok overlay => Access.filesFrom (Access.look overlay s.store.root s.store.tree) scope
  | .error _ => []

theorem filesAt_of_overlay {scope : Scope} {overlay : Option StagedSet}
    (h : (u.overlay s).1 = .ok overlay) : u.filesAt scope s =
      Access.filesFrom (Access.look overlay s.store.root s.store.tree) scope := by
  simp only [filesAt]
  rw [h]

end WorkUnit

namespace Service.Aside

variable {id : String} {s s' : Service} {u : WorkUnit}

theorem overlay_eq (h : Aside id s s') (hu : u.transaction ≠ some id) :
    (u.overlay s').1 = (u.overlay s).1 :=
  WorkUnit.overlay_congr fun other hother =>
    h.others other fun hid => hu (hid ▸ hother)

variable (h : Aside id s s') (hu : u.transaction ≠ some id) (hr : s.store.Unfailing .read)

include h hu hr

/-- Others read a section as before where no missing file has been displaced. -/
theorem getSection_eq (scope : Scope) (name : String)
    (hmissing : s.store.StillMissing s'.store (u.filesAt scope s)) :
    (u.getSection scope name s').1 = (u.getSection scope name s).1 := by
  rw [WorkUnit.getSection_answer scope name hr,
    WorkUnit.getSection_answer scope name (h.store.unfailing _ hr), h.overlay_eq hu, h.registry]
  rcases hover : (u.overlay s).1 with e | overlay
  · change Except.error e = Except.error e
    rfl
  · rw [WorkUnit.filesAt_of_overlay hover] at hmissing
    change Access.sectionFrom _ _ _ _ _ = Access.sectionFrom _ _ _ _ _
    simp only [Access.sectionFrom]
    rw [Access.levelsFrom_congr (h.store.look_eq hmissing overlay)]

theorem sites_eq (hmissing : s.store.StillMissing s'.store [Chain.hostFile]) :
    (u.sites s').1 = (u.sites s).1 := by
  rw [WorkUnit.sites_answer hr, WorkUnit.sites_answer (h.store.unfailing _ hr), h.overlay_eq hu]
  rcases (u.overlay s).1 with e | overlay
  · change Except.error e = Except.error e
    rfl
  · change Access.sitesFrom _ = Access.sitesFrom _
    simp only [Access.sitesFrom]
    rw [h.store.look_eq hmissing overlay _ List.mem_cons_self]

omit hu in
theorem missing_of_sites (hrooted : s.store.tree.Rooted) {sites : Sites}
    (hsites : (u.sites s').1 = .ok sites) : s.store.StillMissing s'.store [Chain.hostFile] := by
  rw [WorkUnit.sites_answer (h.store.unfailing _ hr)] at hsites
  obtain ⟨overlay, -, hsites⟩ := answer_of_bind hsites
  obtain ⟨d, hhost, -⟩ := answer_of_bind hsites
  exact List.forall_mem_singleton.mpr fun hnone => h.store.missing_of_look hrooted hhost hnone

/-- Where others still read a section, no missing file has been displaced. -/
theorem missing_of_getSection (hrooted : s.store.tree.Rooted) {scope : Scope} {name : String}
    {v : SectionView} (hv : (u.getSection scope name s').1 = .ok v) :
    s.store.StillMissing s'.store (u.filesAt scope s) := by
  rw [WorkUnit.getSection_answer scope name (h.store.unfailing _ hr), h.overlay_eq hu] at hv
  obtain ⟨overlay, hover, hv⟩ := answer_of_bind hv
  obtain ⟨definition, -, hv⟩ := answer_of_bind hv
  obtain ⟨chain, hlevels, -⟩ := answer_of_bind hv
  have hfound := Access.found_of_levelsFrom hlevels
  -- the global file says which others are looked at, so it has to be the same as before
  have hhost : s.store.StillMissing s'.store [Chain.hostFile] := by
    obtain ⟨d, hd⟩ := hfound _ List.mem_cons_self
    exact List.forall_mem_singleton.mpr fun hnone => h.store.missing_of_look hrooted hd hnone
  have hlook := h.store.look_eq hhost overlay _ List.mem_cons_self
  have hfiles : Access.filesFrom (Access.look overlay s'.store.root s'.store.tree) scope =
      Access.filesFrom (Access.look overlay s.store.root s.store.tree) scope := by
    simp only [Access.filesFrom, Access.chainFrom, Access.sitesFrom]
    rw [hlook]
  intro file hfile hnone
  rw [WorkUnit.filesAt_of_overlay hover, ← hfiles] at hfile
  obtain ⟨d, hd⟩ := hfound file hfile
  exact h.store.missing_of_look hrooted hd hnone

end Service.Aside

namespace Operation

def IsWithin (id : String) : Operation → Prop
  | .onUnit u _ => u.transaction = some id
  | .stage other _ | .snapshot other | .abort other => other = id
  | .wait _ => True
  | .create _ | .commit _ | .sweep | .disturb _ => False

instance (id : String) (op : Operation) : Decidable (op.IsWithin id) :=
  match op with
  | .onUnit .. | .stage .. | .snapshot _ | .abort _ => inferInstanceAs (Decidable (_ = _))
  | .wait _ => inferInstanceAs (Decidable True)
  | .create _ | .commit _ | .sweep | .disturb _ => inferInstanceAs (Decidable False)

theorem aside_apply {id : String} {op : Operation} (h : op.IsWithin id) {s s' : Service}
    (hs : Service.Aside id s s') : Service.Aside id s (op.apply s') := by
  cases op with
  | onUnit u call =>
    refine call.preserves_of_withstood (WorkUnit.withstood_aside h s)
      (fun _ => WorkUnit.openToGrowth_aside id s) (fun _ => ?_) s' hs
    refine u.preserves_commit fun hnone => ?_
    rw [show u.transaction = some id from h] at hnone
    cases hnone
  | stage other change =>
    obtain rfl : other = id := h
    exact Service.aside_stage other change s s' hs
  | snapshot other =>
    obtain rfl : other = id := h
    exact Service.aside_snapshot other s s' hs
  | abort other =>
    obtain rfl : other = id := h
    exact Service.aside_abort other s s' hs
  | wait n => exact ⟨hs.store, hs.registry, hs.others⟩
  | create other => exact h.elim
  | commit other => exact h.elim
  | sweep => exact h.elim
  | disturb store => exact h.elim

theorem aside_run {id : String} {ops : List Operation} (h : ∀ op ∈ ops, op.IsWithin id)
    {s s' : Service} (hs : Service.Aside id s s') : Service.Aside id s (run ops s') := by
  induction ops generalizing s' with
  | nil => exact hs
  | cons op ops ih =>
    obtain ⟨hop, hops⟩ := List.forall_mem_cons.mp h
    exact ih hops (aside_apply hop hs)

end Operation

/-- What is done within a transaction without committing it leaves every file as it is. Whoever is
not bound to the transaction reads every section and the sites as before, as long as each file that
was missing where they look is missing still. Where something could be read before and every file
lies in directories, that is also necessary. -/
theorem uncommitted_work_isolated (s : Service) (id : String) (ops : List Operation)
    (hops : ∀ op ∈ ops, op.IsWithin id) (hr : s.store.Unfailing .read) :
    let s' := Operation.run ops s
    (∀ path content, s'.store.tree.get? path = some (.file content) ↔
      s.store.tree.get? path = some (.file content)) ∧
    ∀ u : WorkUnit, u.transaction ≠ some id →
      (∀ scope name, s.store.StillMissing s'.store (u.filesAt scope s) →
        (u.getSection scope name s').1 = (u.getSection scope name s).1) ∧
      (s.store.StillMissing s'.store [Chain.hostFile] → (u.sites s').1 = (u.sites s).1) ∧
      (s.store.tree.Rooted →
        (∀ scope name v, (u.getSection scope name s).1 = .ok v →
          ((u.getSection scope name s').1 = .ok v ↔
            s.store.StillMissing s'.store (u.filesAt scope s))) ∧
        ∀ sites, (u.sites s).1 = .ok sites →
          ((u.sites s').1 = .ok sites ↔ s.store.StillMissing s'.store [Chain.hostFile])) := by
  intro s'
  have haside : Service.Aside id s s' := Operation.aside_run hops (.refl id s)
  refine ⟨haside.store.tree.file_iff, fun u hu => ?_⟩
  have hsection := haside.getSection_eq hu hr
  have hsites := haside.sites_eq hu hr
  refine ⟨hsection, hsites, fun hrooted => ⟨fun scope name v hv => ?_, fun sites hv => ?_⟩⟩
  · exact ⟨haside.missing_of_getSection hu hr hrooted, fun hmissing =>
      (hsection scope name hmissing).trans hv⟩
  · exact ⟨haside.missing_of_sites hr hrooted, fun hmissing => (hsites hmissing).trans hv⟩

def bareDisk : Store := ⟨["srv"], FileTree.empty.set ["srv"] .directory, []⟩

def siteGivenUp (physicalPath : String) : List Operation :=
  [.onUnit (.new (some "shop")) (.createSite ⟨none, "shop", physicalPath, true, []⟩), .abort "shop"]

theorem uncommitted_work_isolated_newShop :
    let s := Operation.run [.create "shop"] (.new bareDisk .builtin 900 0)
    ((WorkUnit.new none).getSection .global "directory_browse"
      (Operation.run (siteGivenUp "shop") s)).1 =
      ((WorkUnit.new none).getSection .global "directory_browse" s).1 :=
  ((uncommitted_work_isolated (Operation.run [.create "shop"] (.new bareDisk .builtin 900 0)) "shop"
    (siteGivenUp "shop") (by decide) (by decide)).2 (.new none) (by decide)).1 .global
      "directory_browse" (by decide +kernel)

/-- A physical path may be the one of the global file, and the directory that is made there stays
when the transaction is aborted. -/
theorem uncommitted_work_visible :
    let s := Operation.run [.create "shop"] (.new bareDisk .builtin 900 0)
    let s' := Operation.run (siteGivenUp "host.toml") s
    (∀ op ∈ siteGivenUp "host.toml", op.IsWithin "shop") ∧
      (s.find? "shop").map (·.state) = some .pending ∧
      (s'.find? "shop").map (·.state) = some .aborted ∧
      ((WorkUnit.new none).getSection .global "directory_browse" s).1.isOk = true ∧
      ((WorkUnit.new none).getSection .global "directory_browse" s').1 =
        .error (.storage "io error: is a directory") := by
  decide +kernel

end LayeredConfig
