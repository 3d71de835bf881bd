import LayeredConfig.Proofs.Scope.Lookup
import LayeredConfig.Proofs.Service.Acceptance
import LayeredConfig.Proofs.Service.Isolation

/-!
# Views that are not marked as changed

A view is not marked when nothing is staged for its section at the levels that the staged changes
lead to. Each of these levels then says of the section what its file says, so the view is that of
the files at the same levels. It is what is seen without the staged changes where the scope leads
to the same levels there, and a staged change of the sites can make it lead to others.
-/

set_option autoImplicit false

namespace LayeredConfig

open Run

theorem StagedSet.overlay_of_not_contains {set : StagedSet} {file name : String}
    (h : set.contains file name = false) (d : LevelDocument) :
    (set.overlay file d).section? name = d.section? name ∧
      (set.overlay file d).mode name = d.mode name := by
  have hother : ∀ e ∈ set.entries.filter (·.file == file), e.name ≠ name := by
    intro e he hname
    obtain ⟨hin, hfile⟩ := List.mem_filter.mp he
    have := (set.contains_iff file name).mpr ⟨e, hin, eq_of_beq hfile, hname⟩
    rw [h] at this
    cases this
  rw [overlay]
  generalize set.entries.filter (·.file == file) = entries at hother
  induction entries generalizing d with
  | nil => exact ⟨rfl, rfl⟩
  | cons e entries ih =>
    obtain ⟨he, hrest⟩ := List.forall_mem_cons.mp hother
    obtain ⟨hsection, hmode⟩ := ih (e.mutation.apply e.name d) hrest
    rw [List.foldl_cons, hsection, hmode]
    exact ⟨Mutation.section?_apply_of_ne e.mutation he d, Mutation.mode_apply_of_ne e.mutation he d⟩

theorem Chain.resolve_congr {host : String} {scope : Scope} {sites sites' : Sites}
    (h : ∀ id, scope.siteId? = some id → sites.find? id = sites'.find? id) :
    resolve host scope sites = resolve host scope sites' := by
  cases scope with
  | global => rfl
  | file file => rfl
  | site id path => rw [resolve, resolve, h id rfl]

namespace Access

variable {name : String} {default : Value} {scope : Scope} {set : StagedSet}
  {live : List (LevelRef × LevelDocument)}

section Overlaid

variable {f : LevelRef × LevelDocument → LevelDocument}
  (h : ∀ l ∈ live, (f l).section? name = l.2.section? name ∧ (f l).mode name = l.2.mode name)

include h

theorem levels_map : levels name (live.map fun l => (l.1, f l)) = levels name live := by
  refine List.ext_getElem? fun i => ?_
  rw [getElem?_levels, getElem?_levels, List.getElem?_map]
  rcases hl : live[i]? with _ | l
  · rfl
  · obtain ⟨hsection, hmode⟩ := h l (List.mem_of_getElem? hl)
    simp only [Option.map_some, hsection, hmode]

theorem nearest?_map : nearest? name (live.map fun l => (l.1, f l)) = nearest? name live := by
  have hreverse : ∀ l ∈ live.reverse, (f l).section? name = l.2.section? name :=
    fun l hl => (h l (List.mem_reverse.mp hl)).1
  simp only [nearest?]
  rw [← List.map_reverse]
  generalize live.reverse = ls at hreverse
  induction ls with
  | nil => rfl
  | cons l rest ih =>
    obtain ⟨hl, hrest⟩ := List.forall_mem_cons.mp hreverse
    rw [List.map_cons, List.findSome?_cons, List.findSome?_cons, ih hrest]
    simp only [hl]

theorem isStoredLast_map :
    isStoredLast name (live.map fun l => (l.1, f l)) = isStoredLast name live := by
  simp only [isStoredLast]
  rw [List.getLast?_map]
  rcases hl : live.getLast? with _ | l
  · rfl
  · simp only [Option.map_some, Option.bind_some, (h l (List.mem_of_getLast? hl)).1]

theorem view_map : view name default scope none (live.map fun l => (l.1, f l)) =
    view name default scope none live := by
  simp only [view]
  rw [levels_map h, nearest?_map h, isStoredLast_map h, List.getLast?_map, Option.map_map]
  rfl

end Overlaid

/-- Levels that nothing is staged for show a section as their files have it. -/
theorem view_overlaid (h : ∀ l ∈ live, set.contains l.1.file name = false) :
    view name default scope (some set) (live.map fun l => (l.1, set.overlay l.1.file l.2)) =
      view name default scope none live := by
  have hsame : view name default scope none (live.map fun l => (l.1, set.overlay l.1.file l.2)) =
      view name default scope none live :=
    view_map fun l hl => StagedSet.overlay_of_not_contains (h l hl) l.2
  rw [← hsame]
  simpa [view] using h

theorem dirty_view {overlaid : List (LevelRef × LevelDocument)} :
    (view name default scope (some set) overlaid).dirty = false ↔
      ∀ l ∈ overlaid, set.contains l.1.file name = false := by
  simp [view]

variable {root : Names} {t : FileTree} {refs : List LevelRef}
  {overlaid : List (LevelRef × LevelDocument)}

theorem look_some (file : String) :
    look (some set) root t file = (look none root t file).map (set.overlay file) := by
  simp only [look]
  rcases Store.documentIn root t file <;> rfl

theorem exists_live (h : refs.mapM (withDocument (look (some set) root t)) = .ok overlaid) :
    ∃ live, refs.mapM (withDocument (look none root t)) = .ok live ∧
      overlaid = live.map fun l => (l.1, set.overlay l.1.file l.2) := by
  rw [mapM_withDocument (fun level => set.overlay level.file) refs fun level _ =>
    look_some level.file] at h
  obtain ⟨live, hlive, hoverlaid⟩ := answer_of_map h
  exact ⟨live, hlive, hoverlaid.symm⟩

/-- A view that is not marked is that of the files at the levels of the staged sites. -/
theorem exists_live_of_clean {chain : List (LevelRef × LevelDocument)} {v : SectionView}
    (h : levelsFrom (look (some set) root t) scope = .ok chain)
    (hv : v = view name default scope (some set) chain) (hclean : v.dirty = false) :
    ∃ refs live, chainFrom (look (some set) root t) scope = .ok refs ∧
      refs.mapM (withDocument (look none root t)) = .ok live ∧
      v = view name default scope none live := by
  obtain ⟨refs, hrefs, hchain⟩ := levelsFrom_eq_ok h
  obtain ⟨live, hlive, rfl⟩ := exists_live hchain
  rw [hv, dirty_view, List.forall_mem_map] at hclean
  exact ⟨refs, live, hrefs, hlive, hv.trans (view_overlaid hclean)⟩

/-- What is shown determines the view. -/
theorem Shown.eq_view {v : SectionView} (h : Shown name default live v) (hname : v.name = name)
    (hscope : v.scope = scope) (hclean : v.dirty = false) :
    v = view name default scope none live := by
  have hnearest : v.owner = (nearest? name live).map (·.1.location) ∧
      v.value = ((nearest? name live).map (·.2)).getD default ∧
      v.isLocal = isStoredLast name live := by
    rcases h.value with ⟨above, level, d, below, rfl, hd, hbelow, howner, hlocal⟩ |
      ⟨hnone, hvalue, howner, hlocal⟩
    · rw [nearest?_eq_some_iff.mpr ⟨above, d, below, rfl, hd, hbelow⟩]
      refine ⟨howner, rfl, ?_⟩
      rw [Bool.eq_iff_iff, hlocal]
      exact (isStoredLast_iff hd hbelow).symm
    · rw [nearest?_eq_none_iff.mpr hnone, isStoredLast_of_none hnone]
      exact ⟨howner, hvalue, hlocal⟩
  obtain ⟨level, d, hlast, hlocation, hmode⟩ := h.last
  have hne : live ≠ [] := by
    rintro rfl
    cases hlast
  have hview : Shown name default live (view name default scope none live) := shown_view hne
  obtain ⟨level', d', hlast', hlocation', hmode'⟩ := hview.last
  rw [hlast] at hlast'
  cases hlast'
  obtain ⟨howner, hvalue, hlocal⟩ := hnearest
  cases v
  simp only [view, SectionView.mk.injEq]
  exact ⟨hname, hscope, hlocation.trans hlocation'.symm, howner, hvalue, hlocal,
    hmode.trans hmode'.symm, h.effective.trans hview.effective.symm, hclean⟩

theorem eq_view_iff {v : SectionView} (hne : live ≠ []) (hname : v.name = name)
    (hscope : v.scope = scope) (hclean : v.dirty = false) :
    v = view name default scope none live ↔ Shown name default live v := by
  constructor
  · rintro rfl
    exact shown_view hne
  · exact fun h => h.eq_view hname hscope hclean

theorem sitesFrom_of_not_contains (h : set.contains Chain.hostFile Registry.sitesSection = false) :
    sitesFrom (look (some set) root t) = sitesFrom (look none root t) := by
  simp only [sitesFrom]
  rw [look_some]
  rcases look none root t Chain.hostFile with e | d
  · rfl
  · change sitesOf (set.overlay Chain.hostFile d) = sitesOf d
    simp only [sitesOf]
    rw [(StagedSet.overlay_of_not_contains h d).1]

end Access

open Access

/-- A view that is not marked as changed is what is seen without the staged changes, if these leave
the site of the scope as it is registered, and so if they leave the sites alone. In general it is
just when the levels that the scope leads to without them show the section so. -/
theorem clean_view_is_live_iff (registry : Registry) (set : StagedSet) (scope : Scope)
    (name : String) (s s' t : Store) (v : SectionView)
    (h : getSection registry (some set) scope name s = (.ok v, s')) (hclean : v.dirty = false)
    (hfiles : t.files = s.files) (ht : t.Unfailing .read) :
    let live := look none s.root s.tree
    let again := (getSection registry none scope name t).1
    (∀ sites sites', sitesFrom live = .ok sites →
      sitesFrom (look (some set) s.root s.tree) = .ok sites' →
      (∀ id, scope.siteId? = some id → sites.find? id = sites'.find? id) → again = .ok v) ∧
    (set.contains Chain.hostFile Registry.sitesSection = false → again = .ok v) ∧
    (again = .ok v ↔ ∃ definition chain, registry.get name = .ok definition ∧
      levelsFrom live scope = .ok chain ∧ Shown name definition.default chain v) := by
  intro live again
  obtain ⟨definition, chain, hname, hchain, hview⟩ :=
    sectionFrom_eq_ok_iff.mp (sectionFrom_of_getSection h)
  obtain ⟨refs, levels, hrefs, hlevels, hv⟩ := exists_live_of_clean hchain hview hclean
  have hagain : again = .ok v ↔ ∃ definition chain, registry.get name = .ok definition ∧
      levelsFrom live scope = .ok chain ∧ v = view name definition.default scope none chain := by
    obtain ⟨hroot, htree⟩ := Store.files_eq s t hfiles
    simp only [again]
    rw [getSection_apply none registry scope name t ht, hroot, htree]
    exact sectionFrom_eq_ok_iff
  -- the same levels show the same, and they are the same when the site of the scope is
  have hsame : chainFrom live scope = .ok refs → again = .ok v := by
    intro hrefs'
    refine hagain.mpr ⟨definition, levels, hname, ?_, hv⟩
    simp only [levelsFrom]
    rw [hrefs']
    exact hlevels
  simp only [chainFrom] at hrefs hsame
  refine ⟨fun sites sites' hsites hsites' hfind => hsame ?_, fun hsites => hsame ?_, ?_⟩
  · rw [hsites'] at hrefs
    rw [hsites]
    exact (Chain.resolve_congr hfind).trans hrefs
  · rwa [← sitesFrom_of_not_contains hsites]
  · rw [hagain]
    refine exists_congr fun definition' => exists_congr fun chain' =>
      and_congr_right fun _ => and_congr_right fun hlive => ?_
    exact eq_view_iff (levelsFrom_ne_nil hlive) (by rw [hv]; rfl) (by rw [hv]; rfl) hclean

theorem clean_view_is_live_newShop :
    let seen := getSection .builtin (some oneSite) .global "directory_browse" bareDisk
    seen.1.map (·.dirty) = .ok false ∧
      (getSection .builtin none .global "directory_browse" bareDisk).1 = seen.1 := by
  intro seen
  have hdirty : seen.1.map (·.dirty) = .ok false := by decide +kernel
  have hlive : sitesFrom (look none bareDisk.root bareDisk.tree) = .ok .empty := by decide +kernel
  have hstaged : sitesFrom (look (some oneSite) bareDisk.root bareDisk.tree) =
      .ok ⟨[newShop.withId 1]⟩ := by decide +kernel
  obtain ⟨v, hv, hclean⟩ := answer_of_map hdirty
  obtain ⟨hsame, -, -⟩ := clean_view_is_live_iff .builtin oneSite .global "directory_browse"
    bareDisk _ bareDisk v (eq_of_answer hv) hclean rfl (by decide)
  exact ⟨hdirty, (hsame _ _ hlive hstaged fun id hid => by cases hid).trans hv.symm⟩

def listingShop : Store :=
  ⟨["srv"], [(["srv"], .directory), (["srv", "host.toml"], .file (.text
      "[[sections.sites.entries]]\nid = 1\nname = \"shop\"\nphysical_path = \"shop\"\n")),
    (["srv", "shop"], .directory), (["srv", "shop", "web.toml"], .file (.text
      "[sections.directory_browse]\nenabled = true\n"))].foldl
      (fun t entry => t.set entry.1 entry.2) FileTree.empty, []⟩

def shopMoved : StagedSet :=
  ⟨[⟨.global, "host", "host.toml", "sites",
    .replace (Sites.toValue ⟨[⟨1, "shop", "moved", false, []⟩]⟩)⟩]⟩

/-- A unit that moves a site sees the section of the new directory, unmarked, while the one of the
old directory is in force. -/
theorem clean_view_of_moved_site :
    let s := Service.new listingShop .builtin 900 0
    let shown := fun set => (getSection .builtin set (.site 1 "/") "directory_browse" s.store).1.map
      fun v => (v.dirty, v.owner, v.isLocal, v.value.get? "enabled")
    ((WorkUnit.new none).updateSite 1 ⟨none, some "moved", none, none⟩ s).1.map (·.2.pending) =
      .ok shopMoved ∧
    shown (some shopMoved) = .ok (false, none, false, some (.bool false)) ∧
    shown none = .ok (false, some "shop", true, some (.bool true)) := by
  decide +kernel

end LayeredConfig
