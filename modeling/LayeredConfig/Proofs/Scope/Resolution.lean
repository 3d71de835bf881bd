import LayeredConfig.Proofs.Scope.Chains

/-!
# The chain of a path

Testing one path against the text of another and sorting by slashes is reading both as lists of
segments: the chain of a path in a site has the levels of the applications whose segments begin
those of the path, the shorter first and otherwise in the order of the registry.
-/

set_option autoImplicit false

namespace LayeredConfig

section Sorting

variable {α : Type} {le : α → α → Bool}

/-- A sorted list that keeps the order of whatever may stand on either side of the other. -/
theorem filter_mergeSort (trans : ∀ a b c, le a b = true → le b c = true → le a c = true)
    (total : ∀ a b, (le a b || le b a) = true) (p : α → Bool) (l : List α)
    (h : ∀ a b, p a = true → p b = true → le a b = true) :
    (l.mergeSort le).filter p = l.filter p := by
  have hsorted : (l.filter p).Pairwise fun a b => le a b = true := by
    refine List.pairwise_of_forall_mem_list fun a ha b hb => ?_
    exact h a b (List.mem_filter.mp ha).2 (List.mem_filter.mp hb).2
  have hkept := (List.sublist_mergeSort trans total hsorted List.filter_sublist).filter p
  simp only [List.filter_filter, Bool.and_self] at hkept
  exact (hkept.eq_of_length ((List.mergeSort_perm l le).filter p).length_eq.symm).symm

end Sorting

namespace Scope

theorem inSite_eq_ok_iff {id : Int} {path : String} {scope : Scope} :
    inSite id path = .ok scope ↔ Path.hasParent path = false ∧
      scope = .site id (Path.ofSegments (Path.segments path)) := by
  simp only [inSite, Path.normalize?]
  rcases Path.hasParent path with _ | _
  · simp [eq_comm]
  · simp

end Scope

namespace Chain

open LayeredConfig.Path Run

variable {applications : List Application} {P : List (List Char)}

def isOnPath (P : List (List Char)) (a : Application) : Bool :=
  segments a.path ≠ [] ∧ segments a.path <+: P

def shallower (a b : Application) : Bool := (segments a.path).length ≤ (segments b.path).length

/-- The applications on a path: each of them once for each time it is registered, and no others;
the shorter before the longer; and those with equally many segments in the order in which they are
registered. -/
structure OnPath (P : List (List Char)) (applications bearing : List Application) : Prop where
  each : bearing.Perm
    (applications.filter fun a => segments a.path ≠ [] ∧ segments a.path <+: P)
  ascending : bearing.Pairwise fun a b => (segments a.path).length ≤ (segments b.path).length
  ties : ∀ n, bearing.filter (fun a => (segments a.path).length = n) =
    (applications.filter fun a => segments a.path ≠ [] ∧ segments a.path <+: P).filter
      fun a => (segments a.path).length = n

theorem onPath_mergeSort (P : List (List Char)) (applications : List Application) :
    OnPath P applications ((applications.filter (isOnPath P)).mergeSort shallower) where
  each := List.mergeSort_perm _ _
  ascending := by
    have hsorted : ((applications.filter (isOnPath P)).mergeSort shallower).Pairwise
        fun a b => shallower a b = true :=
      List.pairwise_mergeSort (by grind [shallower]) (by grind [shallower]) _
    exact hsorted.imp of_decide_eq_true
  ties n := filter_mergeSort (by grind [shallower]) (by grind [shallower]) _ _
    (by grind [shallower])

def normalized (a : Application) : String × Application := (ofSegments (segments a.path), a)

theorem normalApplication_eq (a : Application) : normalApplication a =
    if hasParent a.path then .error (.validation (.parentSegment a.path))
    else .ok (normalized a) := by
  simp only [normalApplication, normalize?]
  rcases hasParent a.path with _ | _ <;> rfl

theorem mapM_normalApplication {normal : List (String × Application)} :
    applications.mapM normalApplication = .ok normal ↔
      (∀ a ∈ applications, hasParent a.path = false) ∧ normal = applications.map normalized := by
  constructor
  · intro h
    induction applications generalizing normal with
    | nil =>
      cases h
      exact ⟨fun a ha => (by cases ha), rfl⟩
    | cons a rest ih =>
      rw [List.mapM_cons] at h
      obtain ⟨first, hfirst, h⟩ := answer_of_bind h
      obtain ⟨others, hothers, h⟩ := answer_of_bind h
      cases h
      obtain ⟨hrest, rfl⟩ := ih hothers
      rw [normalApplication_eq] at hfirst
      split at hfirst
      · cases hfirst
      · rename_i ha
        cases hfirst
        exact ⟨List.forall_mem_cons.mpr ⟨Bool.eq_false_iff.mpr ha, hrest⟩, rfl⟩
  · rintro ⟨hall, rfl⟩
    induction applications with
    | nil => rfl
    | cons a rest ih =>
      obtain ⟨ha, hrest⟩ := List.forall_mem_cons.mp hall
      rw [List.mapM_cons, ih hrest, normalApplication_eq, ha]
      rfl

/-- The boundaries on a path by the segments of the applications' paths. -/
theorem boundaries_normalized (hP : ∀ piece ∈ P, IsSegment piece)
    (applications : List Application) :
    boundaries (ofSegments P) (applications.map normalized) =
      ((applications.filter (isOnPath P)).mergeSort shallower).map normalized := by
  have hkept : (applications.map normalized).filter (bears (ofSegments P)) =
      (applications.filter (isOnPath P)).map normalized := by
    rw [List.filter_map]
    refine congrArg (List.map normalized) (List.filter_congr fun a _ => ?_)
    rw [Bool.eq_iff_iff]
    exact (bears_iff (fun _ => isSegment_of_mem) hP).trans (decide_eq_true_iff).symm
  rw [boundaries_eq, hkept]
  refine (List.map_mergeSort fun a ha b hb => ?_).symm
  have hdepth : ∀ a ∈ applications.filter (isOnPath P),
      depth (normalized a).1 = (segments a.path).length := fun a ha =>
    depth_ofSegments (fun _ => isSegment_of_mem)
      (of_decide_eq_true (List.mem_filter.mp ha).2).1
  rw [hdepth a ha, hdepth b hb]
  rfl

def levelOf (site : Site) (a : Application) : LevelRef :=
  ⟨site.name ++ ofSegments (segments a.path), levelFile a.physicalPath⟩

theorem siteLevels_eq_ok_iff (hP : ∀ piece ∈ P, IsSegment piece) {site : Site}
    {levels : List LevelRef} :
    siteLevels site (ofSegments P) = .ok levels ↔
      (∀ a ∈ site.applications, hasParent a.path = false) ∧
        levels = ⟨site.name, levelFile site.physicalPath⟩ ::
          ((site.applications.filter (isOnPath P)).mergeSort shallower).map (levelOf site) := by
  constructor
  · intro h
    obtain ⟨normal, hnormal, h⟩ := answer_of_bind h
    obtain ⟨hall, rfl⟩ := mapM_normalApplication.1 hnormal
    cases h
    rw [boundaries_normalized hP, List.map_map]
    exact ⟨hall, rfl⟩
  · rintro ⟨hall, rfl⟩
    simp only [siteLevels]
    rw [mapM_normalApplication.2 ⟨hall, rfl⟩]
    change Except.ok (_ :: (boundaries (ofSegments P) _).map (applicationLevel site)) = _
    rw [boundaries_normalized hP, List.map_map]
    rfl

/-- The chain of a site's path. -/
theorem resolve_eq_ok_iff (hP : ∀ piece ∈ P, IsSegment piece) {host : String} {sites : Sites}
    {id : Int} {chain : List LevelRef} :
    resolve host (.site id (ofSegments P)) sites = .ok chain ↔
      ∃ site, sites.find? id = some site ∧
        (∀ a ∈ site.applications, hasParent a.path = false) ∧
        chain = hostLevel host :: ⟨site.name, levelFile site.physicalPath⟩ ::
          ((site.applications.filter (isOnPath P)).mergeSort shallower).map (levelOf site) := by
  constructor
  · intro h
    simp only [resolve] at h
    rcases hsite : sites.find? id with _ | site
    · rw [hsite] at h
      cases h
    · rw [hsite] at h
      obtain ⟨levels, hlevels, h⟩ := answer_of_bind h
      cases h
      obtain ⟨hall, rfl⟩ := (siteLevels_eq_ok_iff hP).1 hlevels
      exact ⟨site, rfl, hall, rfl⟩
  · rintro ⟨site, hsite, hall, rfl⟩
    simp only [resolve]
    rw [hsite]
    dsimp only
    rw [(siteLevels_eq_ok_iff hP).2 ⟨hall, rfl⟩]
    rfl

end Chain

open Chain

/-- A path in a site resolves just when the site is registered and no application of the first
entry with its id has a parent segment in its path. Its chain is the host level, the level of the
site's root and the levels of the applications on the path. No chain of any scope is empty, and
paths with the same segments have the same chain. -/
theorem scope_resolution (host : String) (sites : Sites) (id : Int) (path : String) (scope : Scope)
    (h : Scope.inSite id path = .ok scope) :
    ((∃ chain, resolve host scope sites = .ok chain) ↔
      ∃ site, sites.entries.find? (·.id == id) = some site ∧
        ∀ a ∈ site.applications, ['.', '.'] ∉ Path.pieces a.path) ∧
    (∀ chain, resolve host scope sites = .ok chain → ∃ site bearing,
      sites.entries.find? (·.id == id) = some site ∧
      OnPath (Path.segments path) site.applications bearing ∧
      chain = ⟨hostLocation, host⟩ :: ⟨site.name, levelFile site.physicalPath⟩ ::
        bearing.map fun a =>
          ⟨site.name ++ Path.ofSegments (Path.segments a.path), levelFile a.physicalPath⟩) ∧
    (∀ other chain, resolve host other sites = .ok chain → chain ≠ []) ∧
    ∀ path' scope', Scope.inSite id path' = .ok scope' →
      Path.segments path' = Path.segments path →
        resolve host scope' sites = resolve host scope sites := by
  obtain ⟨-, rfl⟩ := Scope.inSite_eq_ok_iff.1 h
  have hparent : ∀ a : Application, Path.hasParent a.path = false ↔
      ['.', '.'] ∉ Path.pieces a.path := by
    intro a
    rw [Path.hasParent, ← Bool.not_eq_true, List.contains_iff_mem]
  have hP : ∀ piece ∈ Path.segments path, Path.IsSegment piece := fun _ => Path.isSegment_of_mem
  refine ⟨⟨?_, ?_⟩, ?_, fun other chain => resolve_ne_nil, ?_⟩
  · rintro ⟨chain, hchain⟩
    obtain ⟨site, hsite, hall, -⟩ := (resolve_eq_ok_iff hP).1 hchain
    exact ⟨site, hsite, fun a ha => (hparent a).1 (hall a ha)⟩
  · rintro ⟨site, hsite, hall⟩
    exact ⟨_, (resolve_eq_ok_iff hP).2 ⟨site, hsite, fun a ha => (hparent a).2 (hall a ha), rfl⟩⟩
  · intro chain hchain
    obtain ⟨site, hsite, -, rfl⟩ := (resolve_eq_ok_iff hP).1 hchain
    exact ⟨site, _, hsite, onPath_mergeSort _ _, rfl⟩
  · intro path' scope' h' hsame
    rw [(Scope.inSite_eq_ok_iff.1 h').2, hsame]

def nestedShop : Site :=
  ⟨1, "shop", "/shop", false, [⟨"/api/v2", "v2"⟩, ⟨"api", "first"⟩, ⟨"/apia", "apia"⟩,
    ⟨"\\api\\", "second"⟩]⟩

theorem scope_resolution_nestedShop :
    let orders := Scope.site 1 "/api/v2/orders"
    let sites : Sites := ⟨[nestedShop]⟩
    Scope.inSite 1 "api/.\\v2//orders" = .ok orders ∧
      ∃ (chain : List LevelRef) (bearing : List Application),
        resolve "host.toml" orders sites = .ok chain ∧ chain ≠ [] ∧
        chain = ⟨"host", "host.toml"⟩ :: ⟨"shop", "shop/web.toml"⟩ ::
          bearing.map (levelOf nestedShop) ∧
        (bearing.filter fun a => (Path.segments a.path).length = 1) =
          [⟨"api", "first"⟩, ⟨"\\api\\", "second"⟩] ∧
        (bearing.filter fun a => (Path.segments a.path).length = 2) = [⟨"/api/v2", "v2"⟩] ∧
        bearing.length = 3 := by
  intro orders sites
  have horders : Scope.inSite 1 "api/.\\v2//orders" = .ok orders := by decide +kernel
  obtain ⟨hresolves, hforms, hne, -⟩ := scope_resolution "host.toml" sites 1 _ orders horders
  obtain ⟨chain, hchain⟩ := hresolves.2 ⟨nestedShop, rfl, by decide +kernel⟩
  obtain ⟨site, bearing, hsite, hbearing, hform⟩ := hforms chain hchain
  obtain rfl : site = nestedShop := (Option.some.inj hsite).symm
  refine ⟨horders, chain, bearing, hchain, hne orders chain hchain, ?_,
    (hbearing.ties 1).trans (by decide +kernel), (hbearing.ties 2).trans (by decide +kernel),
    hbearing.each.length_eq.trans (by decide +kernel)⟩
  rw [hform]
  rfl

end LayeredConfig
