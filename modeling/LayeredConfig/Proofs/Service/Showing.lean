import LayeredConfig.Proofs.Document.Reordering
import LayeredConfig.Proofs.Service.Isolation
import LayeredConfig.Proofs.Service.SiteEdits

/-!
# Showing a section that was changed

An edit is admitted where all levels of its scope are found. It changes a section of one of them,
and so they are all found again, unless it takes the registered sites away on which scopes depend.
That happens to the edit that replaces the sites section of the global file by something that is no
registry.
-/

set_option autoImplicit false

namespace LayeredConfig

open Run

namespace Staged

variable {name : String}

theorem section?_overlayAll (name : String) (entries : List Staged) (d : LevelDocument) :
    (overlayAll entries d).section? name =
      entries.foldl (changeSection name) (d.section? name) := by
  induction entries generalizing d with
  | nil => rfl
  | cons e rest ih =>
    change (overlayAll rest (e.mutation.apply e.name d)).section? name = _
    rw [ih, section?_apply, List.foldl_cons]

theorem foldl_changeSection_cases (name : String) (entries : List Staged) :
    (∀ v w, entries.foldl (changeSection name) v = entries.foldl (changeSection name) w) ∨
      ∀ v, entries.foldl (changeSection name) v = v := by
  induction entries with
  | nil => exact .inr fun _ => rfl
  | cons e rest ih =>
    simp only [List.foldl_cons]
    by_cases he : e.sets name = true
    · left
      intro v w
      rw [changeSection_of_sets he, changeSection_of_sets he]
    · rw [Bool.not_eq_true] at he
      rcases ih with hall | hnone
      · exact .inl fun v w => hall _ _
      · refine .inr fun v => ?_
        rw [hnone, changeSection_of_not_sets he]

/-- An entry with a later change to its section does what it did, unless the later change sets the
section. -/
theorem changeSection_absorb {e later : Staged} (hname : e.name = later.name) (v : Option Value) :
    changeSection name v (e.absorb later) = changeSection name v e ∨
      later.sets name = true ∧ changeSection name v (e.absorb later) = later.brings? := by
  simp only [changeSection, sets, brings?, absorb, Mutation.merge]
  rw [hname]
  rcases later.mutation.content with _ | content
  · exact .inl rfl
  · by_cases hkey : later.name = name
    · right
      simp [hkey]
    · left
      rw [beq_false_of_ne hkey, Bool.and_false, Bool.and_false]
      rfl

end Staged

namespace StagedSet

/-- A section is after one more change what it was, unless the change sets it. -/
theorem foldl_stageIn (e : Staged) (file name : String) (entries : List Staged)
    (v : Option Value) :
    let before := (entries.filter (·.file == file)).foldl (Staged.changeSection name) v
    let after := ((stageIn e entries).filter (·.file == file)).foldl (Staged.changeSection name) v
    after = before ∨ e.file = file ∧ e.sets name = true ∧ after = e.brings? := by
  induction entries generalizing v with
  | nil =>
    simp only [stageIn, List.filter_singleton, List.filter_nil]
    by_cases hfile : e.file = file
    · rw [hfile, beq_self_eq_true]
      by_cases hset : e.sets name = true
      · exact .inr ⟨rfl, hset, Staged.changeSection_of_sets hset v⟩
      · exact .inl (Staged.changeSection_of_not_sets (Bool.not_eq_true _ ▸ hset) v)
    · rw [beq_false_of_ne hfile]
      exact .inl rfl
  | cons s rest ih =>
    simp only [stageIn]
    by_cases hkey : s.hasKey e.file e.name = true
    · rw [if_pos hkey]
      obtain ⟨hfile, hname⟩ := Bool.and_eq_true_iff.mp hkey
      by_cases hs : s.file = file
      · rw [List.filter_cons_of_pos (by simp [Staged.absorb, hs]),
          List.filter_cons_of_pos (by simp [hs]), List.foldl_cons, List.foldl_cons]
        -- the entry comes early, and what later ones set may hide it
        rcases Staged.changeSection_absorb (eq_of_beq hname) v with hsame | ⟨hset, hbrings⟩
        · rw [hsame]
          exact .inl rfl
        · rcases Staged.foldl_changeSection_cases name (rest.filter (·.file == file)) with
            hall | hnone
          · exact .inl (hall _ _)
          · refine .inr ⟨(eq_of_beq hfile).symm.trans hs, hset, ?_⟩
            rw [hnone, hbrings]
      · rw [List.filter_cons_of_neg (by simp [Staged.absorb, hs]),
          List.filter_cons_of_neg (by simp [hs])]
        exact .inl rfl
    · rw [if_neg hkey]
      by_cases hs : s.file = file
      · rw [List.filter_cons_of_pos (by simp [hs]), List.filter_cons_of_pos (by simp [hs]),
          List.foldl_cons, List.foldl_cons]
        exact ih _
      · rw [List.filter_cons_of_neg (by simp [hs]), List.filter_cons_of_neg (by simp [hs])]
        exact ih _

theorem section?_stage (set : StagedSet) (e : Staged) (file name : String) (d : LevelDocument) :
    ((set.stage e).overlay file d).section? name = (set.overlay file d).section? name ∨
      e.file = file ∧ e.sets name = true ∧
        ((set.stage e).overlay file d).section? name = e.brings? := by
  have hoverlay : ∀ set : StagedSet, (set.overlay file d).section? name =
      (set.entries.filter (·.file == file)).foldl (Staged.changeSection name) (d.section? name) :=
    fun set => Staged.section?_overlayAll name (set.entries.filter (·.file == file)) d
  rw [hoverlay, hoverlay]
  exact foldl_stageIn e file name set.entries (d.section? name)

end StagedSet

def Mutation.BreaksSites (m : Mutation) (name : String) : Prop :=
  name = Registry.sitesSection ∧
    ∃ v, m.content = some (.replace v) ∧ (Sites.ofValue? v).isOk = false

namespace Access

variable {set : StagedSet} {e : Staged} {root : Names} {t : FileTree} {registry : Registry}
  {scope : Scope} {name : String} {m : Mutation} {target : LevelRef}

theorem look_of_found {file : String} {d : LevelDocument}
    (h : look (some set) root t file = .ok d) (set' : StagedSet) :
    ∃ d', look (some set') root t file = .ok d' := by
  obtain ⟨former, hformer, -⟩ := look_eq_ok h
  refine ⟨set'.overlay file former, ?_⟩
  simp only [look]
  rw [hformer]
  rfl

theorem sitesFrom_stage {sites : Sites} (h : sitesFrom (look (some set) root t) = .ok sites) :
    sitesFrom (look (some (set.stage e)) root t) = .ok sites ∨
      e.file = Chain.hostFile ∧
        ((∃ sites', sitesFrom (look (some (set.stage e)) root t) = .ok sites') ∨
          e.mutation.BreaksSites e.name) := by
  obtain ⟨d, hd, hsites⟩ := answer_of_bind h
  obtain ⟨former, hformer, rfl⟩ := look_eq_ok hd
  have hafter : sitesFrom (look (some (set.stage e)) root t) =
      sitesOf ((set.stage e).overlay Chain.hostFile former) := by
    simp only [sitesFrom, look]
    rw [hformer]
    rfl
  rw [hafter]
  rcases set.section?_stage e Chain.hostFile Registry.sitesSection former with
    hsame | ⟨hfile, hset, hbrings⟩
  · left
    rw [← hsites]
    simp only [sitesOf]
    rw [hsame]
  · refine .inr ⟨hfile, ?_⟩
    simp only [sitesOf]
    rw [hbrings]
    obtain ⟨hcontent, hname⟩ := Bool.and_eq_true_iff.mp hset
    obtain ⟨content, hcontent⟩ := Option.isSome_iff_exists.mp hcontent
    simp only [Staged.brings?]
    rw [hcontent]
    cases content with
    | replace v =>
      rcases hv : Sites.ofValue? v with why | sites'
      · refine .inr ⟨eq_of_beq hname, v, hcontent, ?_⟩
        rw [hv]
        rfl
      · exact .inl ⟨sites', hv⟩
    | revert => exact .inl ⟨.empty, rfl⟩

theorem levelFile_ne_hostFile (directory : String) :
    Chain.levelFile directory ≠ Chain.hostFile := by
  simp only [Chain.levelFile]
  split
  · decide
  · -- only the first of the two has a slash
    intro h
    have hslash : '/' ∈ Chain.hostFile.toList := by
      rw [← h]
      simp [toString, ToString.toString]
    exact absurd hslash (by decide)

theorem file_ne_hostFile {site : Site} {path : String} {levels : List LevelRef}
    (h : Chain.siteLevels site path = .ok levels) : ∀ l ∈ levels, l.file ≠ Chain.hostFile := by
  obtain ⟨applications, -, h⟩ := answer_of_bind h
  cases h
  intro l hl
  rcases List.mem_cons.mp hl with rfl | hl
  · dsimp only
    exact levelFile_ne_hostFile site.physicalPath
  · obtain ⟨a, -, rfl⟩ := List.mem_map.mp hl
    dsimp only [Chain.applicationLevel]
    exact levelFile_ne_hostFile a.2.physicalPath

theorem resolve_of_hostFile {sites : Sites} {refs : List LevelRef}
    (h : Chain.resolve Chain.hostFile scope sites = .ok refs) (hlast : refs.getLast? = some target)
    (hfile : target.file = Chain.hostFile) (sites' : Sites) :
    Chain.resolve Chain.hostFile scope sites' = .ok refs := by
  cases scope with
  | global => exact h
  | file _ => exact h
  | site id path =>
    simp only [Chain.resolve] at h
    split at h
    · cases h
    · rename_i site _
      obtain ⟨levels, hlevels, h⟩ := answer_of_bind h
      cases h
      have hne : levels ≠ [] := by
        obtain ⟨applications, -, hlevels⟩ := answer_of_bind hlevels
        cases hlevels
        exact List.cons_ne_nil _ _
      rw [List.getLast?_cons_of_ne_nil hne] at hlast
      exact absurd hfile (file_ne_hostFile hlevels target (List.mem_of_getLast? hlast))

/-- A change at the last level of a scope leads to the same levels, where sites are found. -/
theorem chainFrom_stage {sites after : Sites} {refs : List LevelRef}
    (hsites : sitesFrom (look (some set) root t) = .ok sites)
    (hresolve : Chain.resolve Chain.hostFile scope sites = .ok refs)
    (hlast : refs.getLast? = some target) (hfile : e.file = target.file)
    (hafter : sitesFrom (look (some (set.stage e)) root t) = .ok after) :
    chainFrom (look (some (set.stage e)) root t) scope = .ok refs := by
  have hresolve' : Chain.resolve Chain.hostFile scope after = .ok refs := by
    rcases sitesFrom_stage (e := e) hsites with hsame | ⟨hhost, -⟩
    · obtain rfl := Except.ok.inj (hsame.symm.trans hafter)
      exact hresolve
    · exact resolve_of_hostFile hresolve hlast (hfile ▸ hhost) after
  simp only [chainFrom]
  rw [hafter]
  exact hresolve'

/-- What an edit was admitted for can be shown through the edit, unless it takes the sites away. -/
theorem sectionFrom_stage (overlay : Option StagedSet)
    (h : admission registry (look (some set) root t) scope name m = .ok target) :
    (∃ v, sectionFrom registry overlay (look (some (set.stage (.of scope target name m))) root t)
      scope name = .ok v) ∨ m.BreaksSites name := by
  obtain ⟨definition, chain, hdefinition, -, hlevels, htarget⟩ := admission_eq_ok h
  obtain ⟨refs, hrefs, hchain⟩ := levelsFrom_eq_ok hlevels
  obtain ⟨sites, hsites, hresolve⟩ := answer_of_bind hrefs
  obtain ⟨rfl, hfound⟩ := mapM_withDocument_eq_ok hchain
  obtain ⟨d, hlast⟩ := last_of_target htarget
  have hlast : (chain.map (·.1)).getLast? = some target := by
    rw [List.getLast?_map, hlast]
    rfl
  have hagain : ∃ again, (chain.map (·.1)).mapM (withDocument
      (look (some (set.stage (.of scope target name m))) root t)) = .ok again := by
    refine mapM_withDocument_of_found fun ref href => ?_
    obtain ⟨l, hl, rfl⟩ := List.mem_map.mp href
    exact look_of_found (hfound l hl) _
  obtain ⟨again, hagain⟩ := hagain
  have hshown : ∀ after, sitesFrom (look (some (set.stage (.of scope target name m))) root t) =
      .ok after → ∃ v, sectionFrom registry overlay
        (look (some (set.stage (.of scope target name m))) root t) scope name = .ok v := by
    intro after hafter
    refine ⟨view name definition.default scope overlay again, ?_⟩
    simp only [sectionFrom, levelsFrom]
    rw [hdefinition, chainFrom_stage hsites hresolve hlast rfl hafter]
    change Except.bind (List.mapM (withDocument _) (chain.map (·.1))) _ = _
    rw [hagain]
    rfl
  rcases sitesFrom_stage hsites with hsame | ⟨-, ⟨after, hafter⟩ | hbreaks⟩
  · exact .inl (hshown sites hsame)
  · exact .inl (hshown after hafter)
  · exact .inr hbreaks

end Access

structure StagedSet.Rereadable (set : StagedSet) (scope : Scope) (s : Store) : Prop where
  apart : Journal.Apart s.root s.tree (set.entries.map (·.file))
  wellFormed : ∀ e ∈ set.entries, e.mutation.WellFormed
  undated : set.Undated s.root s.tree
  limits : set.WithinLimits s.root s.tree
  separates : ∀ file ∈ Access.filesFrom (Access.look (some set) s.root s.tree) scope,
    set.Separates s.root file

theorem StagedSet.rereadable_iff (set : StagedSet) (scope : Scope) (s : Store) :
    (Journal.Apart s.root s.tree (set.entries.map (·.file)) ∧
      (∀ e ∈ set.entries, e.mutation.WellFormed) ∧ set.Undated s.root s.tree ∧
      set.WithinLimits s.root s.tree ∧
      ∀ file ∈ Access.filesFrom (Access.look (some set) s.root s.tree) scope,
        set.Separates s.root file) ↔ set.Rereadable scope s :=
  ⟨fun ⟨ha, hv, hu, hl, hs⟩ => ⟨ha, hv, hu, hl, hs⟩,
    fun h => ⟨h.apart, h.wellFormed, h.undated, h.limits, h.separates⟩⟩

instance (set : StagedSet) (scope : Scope) (s : Store) : Decidable (set.Rereadable scope s) :=
  decidable_of_iff _ (set.rereadable_iff scope s)

theorem StagedSet.Rereadable.sectionFrom_eq {set : StagedSet} {scope : Scope} {s s' : Store}
    {registry : Registry} {overlay : Option StagedSet} {name : String} {v : SectionView}
    (h : set.Rereadable scope s) (hcommit : Journal.commit registry set.entries s = (.ok (), s'))
    (hv : Access.sectionFrom registry overlay (Access.look (some set) s.root s.tree) scope name =
      .ok v) :
    Access.sectionFrom registry none (Access.look none s'.root s'.tree) scope name =
      .ok v.settled := by
  have houtcome := Journal.commit_outcome hcommit h.apart h.wellFormed
  have hsettles : Access.Settles (Access.look (some set) s.root s.tree)
      (Access.look none s'.root s'.tree)
      (Access.filesFrom (Access.look (some set) s.root s.tree) scope) := by
    intro file hfile
    rw [houtcome.root]
    exact houtcome.look_settles h.undated h.limits (h.separates file hfile)
  rw [Access.sectionFrom_settles registry overlay name hsettles
    (fun d hd => houtcome.look_wellFormed hd) (Access.decodes_of_sectionFrom hv), hv]
  rfl

namespace WorkUnit

variable {u u₁ u₂ : WorkUnit} {s s' s₁ s₂ : Service} {set : StagedSet} {scope : Scope}
  {name : String} {m : Mutation}

theorem staged?_of_overlay {overlay : Option StagedSet} (h : u.overlay s = (.ok overlay, s')) :
    ∃ set, u.staged? s = some set := by
  simp only [WorkUnit.overlay] at h
  rcases hu : u.transaction with _ | id
  · exact ⟨u.pending, staged?_of_none hu s⟩
  · rw [hu] at h
    obtain ⟨staged, s₁, hsnap, -⟩ := bind_eq_ok h
    obtain ⟨t, s₂, hpending, -⟩ := bind_eq_ok hsnap
    obtain ⟨hf, hp, -⟩ := Service.pendingTransaction_eq_ok hpending
    exact ⟨t.staged, staged?_of_pending hu hf hp⟩

theorem overlay_of_staged? (hset : u.staged? s = some set) :
    ∃ overlay s', u.overlay s = (.ok overlay, s') := by
  simp only [WorkUnit.overlay]
  rcases hu : u.transaction with _ | id
  · exact ⟨_, _, rfl⟩
  · obtain ⟨t, hf, hp, -⟩ := pending_of_staged? hu hset
    refine ⟨some t.staged, s.put { t with lastActivity := s.now }, ?_⟩
    simp only [Service.snapshot]
    rw [bind_apply, bind_apply, Service.pendingTransaction_of_find? hf hp]
    rfl

theorem getSection_of_staged? (hset : u.staged? s = some set) (hr : s.store.Unfailing .read)
    (scope : Scope) (name : String) :
    ∃ overlay, (u.getSection scope name s).1 = Access.sectionFrom s.registry overlay
      (Access.look (some set) s.store.root s.store.tree) scope name := by
  obtain ⟨overlay, s', hover⟩ := overlay_of_staged? hset
  refine ⟨overlay, ?_⟩
  rw [getSection_answer scope name hr, hover, ← (overlay_eq_ok hset hover).2]
  rfl

theorem admitted_of_stage (hr : s.store.Unfailing .read) (h : u.stage scope name m s = (.ok u₁, s₁)) :
    ∃ set target, u.staged? s = some set ∧ u₁.transaction = u.transaction ∧
      s₁.store = s.store ∧ s₁.registry = s.registry ∧
      Access.admission s.registry (Access.look (some set) s.store.root s.store.tree) scope name m =
        .ok target ∧ u₁.staged? s₁ = some (set.stage (.of scope target name m)) := by
  obtain ⟨change, s', hprepare, hpush⟩ := bind_eq_ok h
  obtain ⟨overlay, s'', hover, -⟩ := bind_eq_ok hprepare
  obtain ⟨set, hset⟩ := staged?_of_overlay hover
  obtain ⟨hsame, target, hadmits, rfl⟩ := prepare_eq_ok hset hr hprepare
  obtain ⟨ht, hstore, hregistry, hfound⟩ := push_eq_ok (hsame.staged.trans hset) hpush
  exact ⟨set, target, hset, ht, hstore.trans hsame.store, hregistry.trans hsame.registry, hadmits,
    hfound⟩

/-- A section that a new unit has changed and committed is shown, unless the change takes the sites
away. -/
theorem shown_of_committed (hu : u.pending = .empty) (hr : s.store.Unfailing .read)
    (hstage : u.stage scope name m s = (.ok u₁, s₁)) (hcommit : u₁.commit s₁ = (.ok u₂, s₂))
    (hreads : u₁.pending.Rereadable scope s₁.store) :
    (∃ v, (u₂.getSection scope name s₂).1 = .ok v) ∨ m.BreaksSites name := by
  obtain ⟨set, target, hset, htransaction, hstore, hregistry, hadmits, hfound⟩ :=
    admitted_of_stage hr hstage
  rw [← hregistry, ← hstore] at hadmits
  rw [← hstore] at hr
  rcases ht : u.transaction with _ | id
  · rw [ht] at htransaction
    obtain rfl := Option.some.inj (hset.symm.trans (staged?_of_none ht s))
    have hpending : u₁.pending = ⟨[.of scope target name m]⟩ := by
      rw [staged?_of_none htransaction, hu] at hfound
      exact Option.some.inj hfound
    rw [hpending] at hreads
    simp only [commit] at hcommit
    rw [htransaction, hpending] at hcommit
    obtain ⟨⟨⟩, mid, happly, hpure⟩ := bind_eq_ok hcommit
    cases hpure
    obtain ⟨store, hwritten, rfl⟩ := Service.applySet_eq_ok happly
    change (∃ v, ((WorkUnit.new none).getSection scope name _).1 = _) ∨ _
    rw [Service.getSection_unedited scope name _ (Journal.unfailing_of_commit hwritten hr)]
    rw [hu] at hadmits
    refine (Access.sectionFrom_stage none hadmits).imp_left ?_
    rintro ⟨v, hv⟩
    exact ⟨v.settled, hreads.sectionFrom_eq hwritten hv⟩
  · rw [ht] at htransaction
    have hdone : u₂ = u₁ ∧ s₂ = s₁ := by
      simp only [commit] at hcommit
      rw [htransaction] at hcommit
      cases hcommit
      exact ⟨rfl, rfl⟩
    obtain ⟨rfl, rfl⟩ := hdone
    obtain ⟨overlay, hread⟩ := getSection_of_staged? hfound hr scope name
    rw [hread]
    exact Access.sectionFrom_stage overlay hadmits

end WorkUnit

end LayeredConfig
