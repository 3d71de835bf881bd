import LayeredConfig.Proofs.Scope.Denial
import LayeredConfig.Proofs.Store.Settling

/-!
# What a section looks like from a scope

The value, its owner, the locality and the modes of a section are found by separate walks over the
levels of a scope. `Shown` says all of them at once of a list of levels with their documents, and
what is shown depends on the documents alone, wherever they were read from.
-/

set_option autoImplicit false

namespace LayeredConfig

open Run

namespace Level

theorem explicitMode_ne_inherit (levels : List Level) (steps : Nat) (start : Option Nat) :
    explicitMode levels steps start ≠ .inherit := by
  induction steps generalizing start with
  | zero => cases start <;> simp [explicitMode]
  | succ steps ih =>
    rcases start with _ | i
    · simp [explicitMode]
    · simp only [explicitMode]
      split
      · simp
      · split
        · exact ih _
        · rename_i h
          exact h

theorem effectiveMode_ne_inherit (levels : List Level) (index : Nat) :
    effectiveMode levels index ≠ .inherit := by
  simp only [effectiveMode]
  split
  · simp
  · split
    · simp
    · exact explicitMode_ne_inherit _ _ _

end Level

namespace Access

variable {name : String} {chain : List (LevelRef × LevelDocument)}

/-- The copy that is found is the one of the last level that stores the section. -/
theorem nearest?_eq_some_iff {level : LevelRef} {value : Value} :
    nearest? name chain = some (level, value) ↔
      ∃ above d below, chain = above ++ (level, d) :: below ∧ d.section? name = some value ∧
        ∀ l ∈ below, l.2.section? name = none := by
  simp only [nearest?, List.findSome?_eq_some_iff, List.reverse_eq_append_iff, List.reverse_cons,
    List.append_assoc, List.singleton_append, Option.map_eq_some_iff, Option.map_eq_none_iff]
  constructor
  · rintro ⟨before, ⟨ref, d⟩, after, hchain, ⟨found, hfound, hpair⟩, hbefore⟩
    cases hpair
    exact ⟨after.reverse, d, before.reverse, hchain, hfound,
      fun l hl => hbefore l (List.mem_reverse.mp hl)⟩
  · rintro ⟨above, d, below, hchain, hfound, hbelow⟩
    refine ⟨below.reverse, (level, d), above.reverse, ?_, ⟨value, hfound, rfl⟩,
      fun l hl => hbelow l (List.mem_reverse.mp hl)⟩
    rw [List.reverse_reverse, List.reverse_reverse]
    exact hchain

theorem nearest?_eq_none_iff :
    nearest? name chain = none ↔ ∀ l ∈ chain, l.2.section? name = none := by
  simp only [nearest?, List.findSome?_eq_none_iff, List.mem_reverse, Option.map_eq_none_iff]

theorem isStoredLast_concat (above : List (LevelRef × LevelDocument))
    (l : LevelRef × LevelDocument) :
    isStoredLast name (above ++ [l]) = (l.2.section? name).isSome := by
  simp only [isStoredLast]
  rw [List.getLast?_concat]
  rfl

theorem effectiveMode_last (name : String) (chain : List (LevelRef × LevelDocument))
    [Decidable (Denies name chain)] :
    Level.effectiveMode (levels name chain) ((levels name chain).length - 1) =
      if Denies name chain then .deny else .allow := by
  split
  · rename_i h
    exact effectiveMode_last_iff.2 h
  · rename_i h
    have hdeny := mt effectiveMode_last_iff.1 h
    have hinherit := Level.effectiveMode_ne_inherit (levels name chain)
      ((levels name chain).length - 1)
    rcases hmode : Level.effectiveMode (levels name chain) ((levels name chain).length - 1)
    · rfl
    · exact absurd hmode hdeny
    · exact absurd hmode hinherit

/-- What is shown of a section at the last of some levels: the value that the last level that
stores it stores, with that level as the owner, or else the default; the mode that the last level
declares; and a denial in force just when some level denies. -/
structure Shown (name : String) (default : Value) (chain : List (LevelRef × LevelDocument))
    (v : SectionView) : Prop where
  value : (∃ above level d below, chain = above ++ (level, d) :: below ∧
      d.section? name = some v.value ∧ (∀ l ∈ below, l.2.section? name = none) ∧
      v.owner = some level.location ∧ (v.isLocal = true ↔ below = [])) ∨
    (∀ l ∈ chain, l.2.section? name = none) ∧ v.value = default ∧ v.owner = none ∧
      v.isLocal = false
  last : ∃ level d, chain.getLast? = some (level, d) ∧ v.location = level.location ∧
    v.mode = d.mode name
  effective : v.effective = if Denies name chain then .deny else .allow

variable {default : Value} {scope : Scope} {overlay : Option StagedSet}

/-- What stores the section at the last level is the nearest copy, and what stores it above only is
not local. -/
theorem isStoredLast_iff {above below : List (LevelRef × LevelDocument)} {level : LevelRef}
    {d : LevelDocument} {value : Value} (hd : d.section? name = some value)
    (hbelow : ∀ l ∈ below, l.2.section? name = none) :
    isStoredLast name (above ++ (level, d) :: below) = true ↔ below = [] := by
  rcases List.eq_nil_or_concat' below with rfl | ⟨between, l, rfl⟩
  · rw [isStoredLast_concat, hd]
    exact ⟨fun _ => rfl, fun _ => rfl⟩
  · have hlast := hbelow l (by simp)
    have hsplit : above ++ (level, d) :: (between ++ [l]) =
        (above ++ (level, d) :: between) ++ [l] := by simp
    rw [hsplit, isStoredLast_concat, hlast]
    simp

theorem isStoredLast_of_none (h : ∀ l ∈ chain, l.2.section? name = none) :
    isStoredLast name chain = false := by
  rcases List.eq_nil_or_concat' chain with rfl | ⟨above, l, rfl⟩
  · rfl
  · rw [isStoredLast_concat, h l (by simp)]
    rfl

theorem getElem?_last_levels (above : List (LevelRef × LevelDocument))
    (l : LevelRef × LevelDocument) :
    ((levels name (above ++ [l]))[(levels name (above ++ [l])).length - 1]?).map (·.mode) =
      some (l.2.mode name) := by
  rw [length_levels, getElem?_levels, List.length_append, List.length_singleton,
    Nat.add_sub_cancel, List.getElem?_concat_length]
  rfl

/-- The view of levels, of which there is at least one. -/
theorem shown_view (hne : chain ≠ []) : Shown name default chain
    (view name default scope overlay chain) where
  value := by
    rcases hnearest : nearest? name chain with _ | ⟨level, value⟩
    · have hnone := nearest?_eq_none_iff.mp hnearest
      refine .inr ⟨hnone, ?_, ?_, isStoredLast_of_none hnone⟩
      · simp only [view]
        rw [hnearest]
        rfl
      · simp only [view]
        rw [hnearest]
        rfl
    · obtain ⟨above, d, below, rfl, hd, hbelow⟩ := nearest?_eq_some_iff.mp hnearest
      refine .inl ⟨above, level, d, below, rfl, ?_, hbelow, ?_, isStoredLast_iff hd hbelow⟩
      · simp only [view]
        rw [hnearest, hd]
        rfl
      · simp only [view]
        rw [hnearest]
        rfl
  last := by
    obtain ⟨above, l, rfl⟩ := (List.eq_nil_or_concat' chain).resolve_left hne
    refine ⟨l.1, l.2, List.getLast?_concat, ?_, ?_⟩
    · simp only [view]
      rw [List.getLast?_concat]
      rfl
    · simp only [view]
      rw [getElem?_last_levels]
      rfl
  effective := effectiveMode_last name chain

theorem levelsFrom_ne_nil {found : Look} (h : levelsFrom found scope = .ok chain) : chain ≠ [] := by
  rintro rfl
  obtain ⟨refs, hrefs, hchain⟩ := levelsFrom_eq_ok h
  obtain ⟨sites, -, hresolve⟩ := answer_of_bind hrefs
  exact Chain.resolve_ne_nil hresolve (mapM_withDocument_eq_ok hchain).1.symm

section Reading

variable {s s' : Store}

/-- Levels that were loaded one after another have the documents that the tree has of them. -/
theorem withDocument_of_loaded (refs : List LevelRef) {s s' : Store}
    {chain : List (LevelRef × LevelDocument)} (h : refs.mapM (loaded overlay) s = (.ok chain, s')) :
    refs.mapM (withDocument (look overlay s.root s.tree)) = .ok chain := by
  induction refs generalizing s chain with
  | nil =>
    cases h
    rfl
  | cons ref refs ih =>
    rw [List.mapM_cons] at h
    obtain ⟨l, s₁, hl, h⟩ := bind_eq_ok h
    obtain ⟨rest, s₂, hrest, h⟩ := bind_eq_ok h
    cases h
    obtain ⟨d, s₃, hd, hl⟩ := bind_eq_ok hl
    cases hl
    obtain ⟨hroot, htree⟩ := Store.files_eq _ _ ((keeps_load overlay ref.file).of_eq hd)
    have hrest := ih hrest
    rw [hroot, htree] at hrest
    rw [List.mapM_cons, hrest]
    simp only [withDocument]
    rw [look_of_load hd]
    rfl

theorem levelsFrom_of_materialize {chain : List (LevelRef × LevelDocument)}
    (h : materialize overlay scope s = (.ok chain, s')) :
    levelsFrom (look overlay s.root s.tree) scope = .ok chain := by
  obtain ⟨registered, refs, mid, hsites, hresolve, hload⟩ := materialize_eq_ok h
  obtain ⟨hroot, htree⟩ := Store.files_eq _ _ ((keeps_sites overlay).of_eq hsites)
  have hrest := withDocument_of_loaded refs hload
  rw [hroot, htree] at hrest
  simp only [levelsFrom, chainFrom]
  rw [sitesFrom_of_sites hsites]
  change (Chain.resolve Chain.hostFile scope registered >>= _) = _
  rw [hresolve]
  exact hrest

theorem sectionFrom_of_getSection {registry : Registry} {v : SectionView}
    (h : getSection registry overlay scope name s = (.ok v, s')) :
    sectionFrom registry overlay (look overlay s.root s.tree) scope name = .ok v := by
  obtain ⟨definition, mid, hname, h⟩ := bind_eq_ok h
  obtain ⟨chain, mid', hchain, hview⟩ := bind_eq_ok h
  cases hview
  obtain ⟨hname, hmid⟩ := Prod.ext_iff.mp hname
  obtain rfl : s = mid := hmid
  exact sectionFrom_eq_ok_iff.mpr ⟨definition, chain, hname, levelsFrom_of_materialize hchain, rfl⟩

theorem last_of_checkWrite {registry : Registry} {m : Mutation} {target : LevelRef}
    (h : checkWrite registry overlay scope name m s = (.ok target, s')) :
    ∃ chain d, levelsFrom (look overlay s.root s.tree) scope = .ok chain ∧
      chain.getLast? = some (target, d) := by
  obtain ⟨definition, s₁, hname, h⟩ := bind_eq_ok h
  obtain ⟨⟨⟩, s₂, hmutation, h⟩ := bind_eq_ok h
  obtain ⟨chain, s₃, hchain, htarget⟩ := bind_eq_ok h
  obtain rfl : s = s₁ := (Prod.ext_iff.mp hname).2
  obtain rfl : s = s₂ := (Prod.ext_iff.mp hmutation).2
  obtain ⟨d, hlast⟩ := last_of_target (Prod.ext_iff.mp htarget).1
  exact ⟨chain, d, levelsFrom_of_materialize hchain, hlast⟩

end Reading

end Access

open Access

/-- Where a scope leads to levels that all load, a registered section is shown as `Shown` says of
these levels: they are the ones that the sites lead to which are seen in the global file, each with
its document under the staged changes. A store whose files hold just these documents shows the same
without staged changes, except that nothing is marked as changed. -/
theorem section_lookup (registry : Registry) (overlay : Option StagedSet) (scope : Scope)
    (name : String) (definition : SectionDefinition) (s s' : Store)
    (chain : List (LevelRef × LevelDocument)) (hname : registry.get name = .ok definition)
    (h : materialize overlay scope s = (.ok chain, s')) :
    let seen := look overlay s.root s.tree
    (∃ host sites, seen Chain.hostFile = .ok host ∧ sitesOf host = .ok sites ∧
      Chain.resolve Chain.hostFile scope sites = .ok (chain.map (·.1))) ∧
    (∀ l ∈ chain, seen l.1.file = .ok l.2) ∧
    ∃ v, getSection registry overlay scope name s = (.ok v, s') ∧ v.name = name ∧
      v.scope = scope ∧ Shown name definition.default chain v ∧
      ∀ t : Store, t.Unfailing .read →
        (∀ file ∈ Chain.hostFile :: chain.map (·.1.file), ∀ d, seen file = .ok d →
          Store.documentIn t.root t.tree file = .ok d) →
        getSection registry none scope name t = (.ok { v with dirty := false }, t) := by
  intro seen
  have hlevels := levelsFrom_of_materialize h
  obtain ⟨refs, hrefs, hmap⟩ := levelsFrom_eq_ok hlevels
  obtain ⟨hchain, hfound⟩ := mapM_withDocument_eq_ok hmap
  obtain ⟨sites, hsites, hresolve⟩ := answer_of_bind hrefs
  obtain ⟨host, hhost, hdecodes⟩ := answer_of_bind hsites
  rw [← hchain] at hresolve
  refine ⟨⟨host, sites, hhost, hdecodes, hresolve⟩, hfound, _,
    getSection_of_materialize hname h, rfl, rfl, ?_, ?_⟩
  · obtain ⟨level, d, hlast⟩ := getLast?_of_materialize h
    refine shown_view ?_
    rintro rfl
    cases hlast
  · intro t ht hsame
    -- reading looks at these files only
    have hfiles : filesFrom seen scope = Chain.hostFile :: chain.map (·.1.file) := by
      simp only [filesFrom, seen]
      rw [hrefs, ← hchain]
      dsimp only
      rw [List.map_map]
      rfl
    have hagain : ∀ file ∈ filesFrom seen scope, look none t.root t.tree file = seen file := by
      intro file hfile
      obtain ⟨d, hd⟩ := found_of_levelsFrom hlevels file hfile
      have hd : seen file = .ok d := hd
      rw [hd]
      simp only [look]
      rw [hsame file (hfiles ▸ hfile) d hd]
      rfl
    rw [getSection_apply none registry scope name t ht]
    simp only [sectionFrom]
    rw [hname, levelsFrom_congr hagain, hlevels]
    rfl

def listingsEdit : StagedSet :=
  ⟨[⟨.global, "host", "host.toml", "directory_browse", .replace (.obj [("enabled", .bool true)])⟩]⟩

def writtenDisk : Store :=
  { denyingDisk with
    tree := denyingDisk.tree.set ["srv", "host.toml"] (.file (.text
      ("[[sections.sites.entries]]\nid = 1\nname = \"shop\"\nphysical_path = \"shop\"\n" ++
        "[[sections.sites.entries.applications]]\npath = \"/api\"\nphysical_path = \"shop/api\"\n" ++
        "[sections.directory_browse]\nenabled = true\n"))) }

theorem section_lookup_orders :
    let orders := Scope.site 1 "/api/orders"
    let shown := (getSection .builtin (some listingsEdit) orders "directory_browse" denyingDisk).1
    shown.map (fun v => (v.owner, v.isLocal, v.mode, v.effective)) =
        .ok (some "host", false, .allow, .deny) ∧
      (∃ v chain, shown = .ok v ∧ chain.length = 3 ∧
        Shown "directory_browse" (.obj [("enabled", .bool false),
          ("show_flags", Registry.strings ["date", "time", "size", "extension"])]) chain v) ∧
      shown.map (fun v => { v with dirty := false }) =
        (getSection .builtin none orders "directory_browse" writtenDisk).1 := by
  dsimp only
  have hloads : (materialize (some listingsEdit) (.site 1 "/api/orders") denyingDisk).1.map
      (·.map (·.1.file)) = .ok ["host.toml", "shop/web.toml", "shop/api/web.toml"] := by
    decide +kernel
  have hsame : ∀ file ∈ ["host.toml", "host.toml", "shop/web.toml", "shop/api/web.toml"],
      ∀ d, look (some listingsEdit) denyingDisk.root denyingDisk.tree file = .ok d →
        Store.documentIn writtenDisk.root writtenDisk.tree file = .ok d := by
    have heq : ∀ file ∈ ["host.toml", "host.toml", "shop/web.toml", "shop/api/web.toml"],
        look (some listingsEdit) denyingDisk.root denyingDisk.tree file =
          look none writtenDisk.root writtenDisk.tree file := by decide +kernel
    exact fun file hfile d hd => documentIn_of_look (heq file hfile ▸ hd)
  obtain ⟨chain, hchain, hfiles⟩ := answer_of_map hloads
  obtain ⟨-, -, v, hv, -, -, hshown, hagain⟩ := section_lookup .builtin (some listingsEdit)
    (.site 1 "/api/orders") "directory_browse" _ denyingDisk _ chain rfl (eq_of_answer hchain)
  have hfiles' : chain.map (·.1.file) = ["host.toml", "shop/web.toml", "shop/api/web.toml"] :=
    hfiles
  refine ⟨by decide +kernel, ⟨v, chain, congrArg Prod.fst hv, ?_, hshown⟩, ?_⟩
  · simpa using congrArg List.length hfiles'
  · rw [hv, hagain writtenDisk (by decide) (by rw [hfiles']; exact hsame)]
    rfl

end LayeredConfig
