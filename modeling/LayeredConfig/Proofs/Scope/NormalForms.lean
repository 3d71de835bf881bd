import LayeredConfig.Proofs.Scope.Resolution
import LayeredConfig.Proofs.Sites.Upkeep
import LayeredConfig.Store

/-!
# Normal forms of paths

Two guards look at a path: the one of scopes and sites cuts it at slashes of either direction, the
one of the store at forward slashes only, after it has taken those at the beginning away. Cutting at
more separators cuts the pieces again, so what the first guard lets through passes the second one
too, and neither slashes at the ends nor the name of a level file after them change that. A path
has a normal form just when the first guard lets it through, and its segments determine the form
and are determined by it.
-/

set_option autoImplicit false

namespace LayeredConfig

namespace Text

variable {p q : Char → Bool} {cs ds : List Char} {sep : Char} {pieces : List (List Char)}

theorem splitOn_cons_of_pos {c : Char} (h : p c = true) :
    splitOn p (c :: cs) = [] :: splitOn p cs := by
  rw [splitOn, if_pos h]

theorem splitOn_cons_of_neg {c : Char} (h : p c = false) :
    splitOn p (c :: cs) = (splitOn p cs).modifyHead (List.cons c) := by
  rw [splitOn, if_neg (Bool.eq_false_iff.mp h)]
  rcases hs : splitOn p cs with _ | ⟨piece, pieces⟩
  · exact absurd hs (splitOn_ne_nil p cs)
  · rfl

theorem splitOn_eq_splitOnP (p : Char → Bool) (cs : List Char) :
    splitOn p cs = cs.splitOnP p := by
  induction cs with
  | nil => rfl
  | cons c cs ih =>
    rw [List.splitOnP_cons_eq_if_modifyHead, ← ih]
    split
    · rename_i hc
      exact splitOn_cons_of_pos hc
    · rename_i hc
      exact splitOn_cons_of_neg (Bool.eq_false_iff.mpr hc)

theorem join_cons_cons (sep : Char) (piece next : List Char) (pieces : List (List Char)) :
    join sep (piece :: next :: pieces) = piece ++ sep :: join sep (next :: pieces) := rfl

theorem join_eq_intercalate (sep : Char) (pieces : List (List Char)) :
    join sep pieces = [sep].intercalate pieces := by
  induction pieces with
  | nil => rfl
  | cons piece pieces ih =>
    rcases pieces with _ | ⟨next, pieces⟩
    · simp [join]
    · rw [join_cons_cons, ih, List.intercalate_cons_cons, List.append_assoc, List.singleton_append]

theorem splitOn_append_cons (h : p sep = true) :
    splitOn p (cs ++ sep :: ds) = splitOn p cs ++ splitOn p ds := by
  simp only [splitOn_eq_splitOnP, List.splitOnP_append_cons cs ds h]

theorem splitOn_of_forall (h : ∀ c ∈ cs, p c = false) : splitOn p cs = [cs] := by
  rw [splitOn_eq_splitOnP, List.splitOnP_eq_singleton h]

/-- Pieces without separators that are joined at one are cut again as they were. -/
theorem splitOn_join (hsep : p sep = true) (h : ∀ piece ∈ pieces, ∀ c ∈ piece, p c = false)
    (hne : pieces ≠ []) : splitOn p (join sep pieces) = pieces := by
  induction pieces with
  | nil => exact absurd rfl hne
  | cons piece pieces ih =>
    obtain ⟨hpiece, hrest⟩ := List.forall_mem_cons.mp h
    rcases pieces with _ | ⟨next, pieces⟩
    · exact splitOn_of_forall hpiece
    · rw [join_cons_cons, splitOn_append_cons hsep, splitOn_of_forall hpiece,
        ih hrest (List.cons_ne_nil next pieces), List.singleton_append]

theorem flatMap_splitOn (h : ∀ c, q c = true → p c = true) (cs : List Char) :
    (splitOn q cs).flatMap (splitOn p) = splitOn p cs := by
  induction cs with
  | nil => rfl
  | cons c cs ih =>
    rcases hq : q c with _ | _
    · rw [splitOn_cons_of_neg hq]
      rcases hs : splitOn q cs with _ | ⟨piece, pieces⟩
      · exact absurd hs (splitOn_ne_nil q cs)
      · rw [hs, List.flatMap_cons] at ih
        rw [List.modifyHead_cons, List.flatMap_cons]
        -- the character goes to the first of the finer pieces, or it ends an empty one
        rcases hp : p c with _ | _
        · rw [splitOn_cons_of_neg hp, splitOn_cons_of_neg hp, ← ih]
          rcases hfirst : splitOn p piece with _ | ⟨first, rest⟩
          · exact absurd hfirst (splitOn_ne_nil p piece)
          · rfl
        · rw [splitOn_cons_of_pos hp, splitOn_cons_of_pos hp, ← ih, List.cons_append]
    · rw [splitOn_cons_of_pos hq, splitOn_cons_of_pos (h c hq), List.flatMap_cons, ih]
      rfl

theorem splitOn_congr (h : ∀ c ∈ cs, p c = q c) : splitOn p cs = splitOn q cs := by
  induction cs with
  | nil => rfl
  | cons c cs ih =>
    obtain ⟨hc, hrest⟩ := List.forall_mem_cons.mp h
    rw [splitOn, splitOn, hc, ih hrest]

section Keeping

variable {keep : List Char → Bool} (hempty : keep [] = false)

include hempty

/-- Separators at the beginning add empty pieces only. -/
theorem filter_splitOn_dropWhile (cs : List Char) :
    (splitOn p (cs.dropWhile p)).filter keep = (splitOn p cs).filter keep := by
  induction cs with
  | nil => rfl
  | cons c cs ih =>
    by_cases hc : p c = true
    · rw [List.dropWhile_cons_of_pos hc, ih, splitOn_cons_of_pos hc,
        List.filter_cons_of_neg (by simp [hempty])]
    · rw [List.dropWhile_cons_of_neg hc]

theorem filter_splitOn_append (cs : List Char) (h : ∀ c ∈ ds, p c = true) :
    (splitOn p (cs ++ ds)).filter keep = (splitOn p cs).filter keep := by
  rcases ds with _ | ⟨sep, ds⟩
  · rw [List.append_nil]
  · obtain ⟨hsep, hrest⟩ := List.forall_mem_cons.mp h
    have hgone : ds.dropWhile p = [] := List.dropWhile_eq_nil_iff.mpr hrest
    have hnone := filter_splitOn_dropWhile (p := p) hempty ds
    rw [splitOn_append_cons hsep, List.filter_append, ← hnone, hgone, splitOn,
      List.filter_cons_of_neg (by simp [hempty]), List.filter_nil, List.append_nil]

theorem filter_splitOn_trimBy (s : String) :
    (splitOn p (trimBy p s).toList).filter keep = (splitOn p s.toList).filter keep := by
  simp only [trimBy, trimEndBy, trimStartBy, String.toList_ofList]
  rw [← filter_splitOn_dropWhile hempty s.toList]
  generalize s.toList.dropWhile p = cs
  have hcut : (cs.reverse.dropWhile p).reverse ++ (cs.reverse.takeWhile p).reverse = cs := by
    rw [← List.reverse_append, List.takeWhile_append_dropWhile, List.reverse_reverse]
  have htail : ∀ c ∈ (cs.reverse.takeWhile p).reverse, p c = true := fun c hc =>
    List.mem_takeWhile_imp (List.mem_reverse.mp hc)
  have hkept := filter_splitOn_append hempty (cs.reverse.dropWhile p).reverse htail
  rw [hcut] at hkept
  exact hkept.symm

end Keeping

end Text

namespace Path

variable {A : List (List Char)} {path other normal : String}

theorem mem_segments_iff {piece : List Char} :
    piece ∈ segments path ↔ piece ∈ pieces path ∧ piece ≠ [] ∧ piece ≠ ['.'] := by
  simp [segments]

theorem hasParent_iff : hasParent path = true ↔ ['.', '.'] ∈ segments path := by
  rw [hasParent, List.contains_iff_mem, mem_segments_iff]
  simp

theorem pieces_ofSegments (h : ∀ piece ∈ A, ∀ c ∈ piece, isSeparator c = false) :
    pieces (ofSegments A) = [] :: if A = [] then [[]] else A := by
  rw [pieces, ofSegments, String.toList_ofList, Text.splitOn_cons_of_pos rfl]
  refine congrArg (List.cons []) ?_
  split
  · rename_i hnone
    rw [hnone]
    rfl
  · rename_i hne
    exact Text.splitOn_join rfl h hne

/-- The segments of a path are those of the path that is made of them. -/
theorem segments_ofSegments (path : String) :
    segments (ofSegments (segments path)) = segments path := by
  have hfree : ∀ piece ∈ segments path, ∀ c ∈ piece, isSeparator c = false := fun piece hpiece =>
    Text.not_separator_of_mem_splitOn (mem_segments_iff.mp hpiece).1
  have hkept : (segments path).filter (fun piece => piece != [] && piece != ['.']) =
      segments path := by
    rw [segments, List.filter_filter]
    simp only [Bool.and_self]
  rw [segments, pieces_ofSegments hfree, List.filter_cons_of_neg (by simp)]
  split
  · rename_i hnone
    rw [hnone]
    rfl
  · exact hkept

theorem ofSegments_inj :
    ofSegments (segments path) = ofSegments (segments other) ↔ segments path = segments other := by
  refine ⟨fun h => ?_, congrArg ofSegments⟩
  rw [← segments_ofSegments path, h, segments_ofSegments]

theorem normalize?_eq (path : String) : normalize? path =
    if ['.', '.'] ∈ segments path then none else some (ofSegments (segments path)) := by
  simp only [normalize?, hasParent_iff]

theorem normalize?_normal (h : normalize? path = some normal) : normalize? normal = some normal := by
  obtain ⟨hparent, rfl⟩ := normalize?_eq_some_iff.mp h
  rw [normalize?_eq, segments_ofSegments, ← normalize?_eq, h]

/-- Paths with one normal form are the paths with the same segments. -/
theorem normalize?_eq_iff_segments (h : normalize? path = some normal) :
    normalize? other = some normal ↔ segments other = segments path := by
  constructor
  · intro hother
    exact ofSegments_inj.mp
      ((normalize?_eq_some_iff.mp hother).2.symm.trans (normalize?_eq_some_iff.mp h).2)
  · intro hsame
    rw [normalize?_eq, hsame, ← normalize?_eq, h]

end Path

namespace Place

def through (path : String) : List String := (FilePath.pieces path).filter isName

theorem through_eq (path : String) : through path =
    ((Text.splitOn (· == '/') path.toList).filter fun piece => isName (String.ofList piece)).map
      String.ofList := by
  rw [through, FilePath.pieces, List.filter_map]
  rfl

theorem through_relative (path : String) : through (relative path) = through path := by
  rw [through_eq, through_eq, relative, Text.trimStartBy, String.toList_ofList,
    Text.filter_splitOn_dropWhile rfl]

theorem through_trimBy (path : String) : through (Text.trimBy (· == '/') path) = through path := by
  rw [through_eq, through_eq, Text.filter_splitOn_trimBy rfl]

theorem through_append (dir name : String) :
    through (dir ++ "/" ++ name) = through dir ++ through name := by
  have hlist : (dir ++ "/" ++ name).toList = dir.toList ++ '/' :: name.toList := by
    simp [String.toList_append]
  rw [through_eq, hlist, Text.splitOn_append_cons rfl, List.filter_append, List.map_append,
    ← through_eq, ← through_eq]

/-- The level file of a directory is one name below it, however the directory is written. -/
theorem through_levelFile (dir : String) :
    through (Chain.levelFile dir) = through dir ++ [Chain.levelFileName] := by
  have hname : through Chain.levelFileName = [Chain.levelFileName] := by decide +kernel
  rw [← through_trimBy dir, Chain.levelFile]
  generalize Text.trimBy (· == '/') dir = trimmed
  split
  · rename_i hempty
    rw [String.isEmpty_iff.mp hempty, hname]
    rfl
  · change through (trimmed ++ "/" ++ Chain.levelFileName) = _
    rw [through_append, hname]

/-- What the guard of the store lets through, and which place that is. -/
theorem map_names_ofPath? (root : Names) (path : String) : (ofPath? root path).map (·.names) =
    if ".." ∈ through path then none else some (root ++ through path) := by
  have hguard : ".." ∈ through path ↔ ".." ∈ FilePath.pieces (relative path) := by
    rw [← through_relative, through, List.mem_filter]
    simp [isName]
  simp only [ofPath?, List.contains_iff_mem, hguard]
  split
  · rfl
  · rw [← through_relative path]
    rfl

theorem map_names_levelFile (root : Names) (dir : String) :
    (ofPath? root (Chain.levelFile dir)).map (·.names) =
      if ".." ∈ through dir then none else some (root ++ through dir ++ [Chain.levelFileName]) := by
  have hguard : ".." ∈ through dir ++ [Chain.levelFileName] ↔ ".." ∈ through dir := by
    rw [List.mem_append, List.mem_singleton]
    exact or_iff_left (by decide)
  rw [map_names_ofPath?, through_levelFile, List.append_assoc]
  simp only [hguard]

end Place

namespace Path

variable {path : String}

theorem pieces_eq_flatMap (path : String) : pieces path =
    (Text.splitOn (· == '/') path.toList).flatMap (Text.splitOn isSeparator) := by
  refine (Text.flatMap_splitOn (fun c hc => ?_) path.toList).symm
  simp [isSeparator, beq_iff_eq.mp hc]

theorem pieces_eq_of_forward (h : '\\' ∉ path.toList) :
    pieces path = Text.splitOn (· == '/') path.toList := by
  refine Text.splitOn_congr fun c hc => ?_
  have hback : c ≠ '\\' := fun heq => h (heq ▸ hc)
  rw [isSeparator, decide_eq_false hback, Bool.or_false]
  rfl

/-- The guard of the store looks at fewer pieces. -/
theorem hasParent_of_through (h : ".." ∈ Place.through path) : hasParent path = true := by
  rw [Place.through_eq, List.mem_map] at h
  obtain ⟨piece, hpiece, hparent⟩ := h
  obtain rfl : piece = ['.', '.'] := String.ofList_injective hparent
  rw [hasParent, List.contains_iff_mem, pieces_eq_flatMap, List.mem_flatMap]
  exact ⟨_, (List.mem_filter.mp hpiece).1, List.mem_singleton.mpr rfl⟩

theorem segments_eq_of_forward (h : '\\' ∉ path.toList) :
    segments path = (Place.through path).map String.toList := by
  have hname : ∀ piece : List Char,
      Place.isName (String.ofList piece) = (piece != [] && piece != ['.']) := by
    intro piece
    rw [Place.isName, Bool.eq_iff_iff]
    simp [← String.toList_inj]
  have hback : String.toList ∘ String.ofList = id := funext fun _ => String.toList_ofList
  rw [segments, pieces_eq_of_forward h, Place.through_eq, List.map_map, hback, List.map_id]
  simp only [hname]

theorem parent_mem_iff_of_forward (h : '\\' ∉ path.toList) :
    ['.', '.'] ∈ segments path ↔ ".." ∈ Place.through path := by
  rw [segments_eq_of_forward h, List.mem_map]
  constructor
  · rintro ⟨name, hname, hparent⟩
    obtain rfl : name = ".." := String.toList_inj.mp hparent
    exact hname
  · intro hparent
    exact ⟨"..", hparent, rfl⟩

end Path

open LayeredConfig.Path

theorem Place.map_names_of_normal {path normal : String} (h : normalize? path = some normal)
    (root : Names) :
    (ofPath? root path).map (·.names) = some (root ++ through path) ∧
    (ofPath? root (Chain.levelFile path)).map (·.names) =
      some (root ++ through path ++ [Chain.levelFileName]) := by
  have hparent : ".." ∉ through path := fun hmem => by
    have hfound := hasParent_of_through hmem
    rw [(normalize?_eq_some_iff.mp h).1] at hfound
    cases hfound
  rw [map_names_ofPath?, map_names_levelFile, if_neg hparent, if_neg hparent]
  exact ⟨rfl, rfl⟩

theorem levelFile_place_eq_iff {dir dir' : String} (h : '\\' ∉ dir.toList)
    (h' : '\\' ∉ dir'.toList) (root : Names) :
    (Place.ofPath? root (Chain.levelFile dir)).map (·.names) =
        (Place.ofPath? root (Chain.levelFile dir')).map (·.names) ↔
      normalize? dir = normalize? dir' := by
  have hsame : segments dir = segments dir' ↔ Place.through dir = Place.through dir' := by
    rw [segments_eq_of_forward h, segments_eq_of_forward h',
      List.map_inj_right fun _ _ => String.toList_inj.mp]
  rw [Place.map_names_levelFile, Place.map_names_levelFile, normalize?_eq, normalize?_eq]
  simp only [parent_mem_iff_of_forward h, parent_mem_iff_of_forward h']
  by_cases hp : ".." ∈ Place.through dir
  · by_cases hp' : ".." ∈ Place.through dir'
    · simp only [if_pos hp, if_pos hp']
    · simp only [if_pos hp, if_neg hp', reduceCtorEq]
  · by_cases hp' : ".." ∈ Place.through dir'
    · simp only [if_neg hp, if_pos hp', reduceCtorEq]
    · simp only [if_neg hp, if_neg hp', Option.some.injEq, List.append_assoc,
        List.append_cancel_left_eq, List.append_cancel_right_eq, ofSegments_inj, hsame]

-- a backslash parts segments but not names
example : normalize? "a\\b" = normalize? "a/b" ∧
    (Place.ofPath? [] (Chain.levelFile "a\\b")).map (·.names) = some ["a\\b", "web.toml"] := by
  decide +kernel

namespace Scope

variable {name : String} {scope : Scope}

theorem ofFile_eq_ok_iff : ofFile name = .ok scope ↔
    trimFile name ≠ "" ∧ hasParent (trimFile name) = false ∧ scope = .file (trimFile name) := by
  simp only [ofFile, ne_eq, ← String.isEmpty_iff]
  rcases (trimFile name).isEmpty with _ | _
  · rcases hasParent (trimFile name) with _ | _
    · simp [eq_comm]
    · simp
  · simp

def Normal : Scope → Prop
  | .global => True
  | .site _ path => ∃ given, normalize? given = some path
  | .file name => ∃ normal, normalize? name = some normal

theorem normal_of_inSite {id : Int} {path : String} (h : inSite id path = .ok scope) :
    scope.Normal := by
  obtain ⟨hparent, rfl⟩ := inSite_eq_ok_iff.mp h
  exact ⟨path, normalize?_eq_some_iff.mpr ⟨hparent, rfl⟩⟩

theorem normal_of_ofFile (h : ofFile name = .ok scope) : scope.Normal := by
  obtain ⟨-, hparent, rfl⟩ := ofFile_eq_ok_iff.mp h
  exact ⟨_, normalize?_eq_some_iff.mpr ⟨hparent, rfl⟩⟩

theorem normal_of_ofParts {siteId : Option Int} {path file : Option String}
    (h : ofParts siteId path file = .ok scope) : scope.Normal := by
  rcases siteId with _ | id
  · rcases file with _ | file
    · simp only [ofParts] at h
      split at h
      · cases h
        trivial
      · cases h
    · simp only [ofParts] at h
      split at h
      · exact normal_of_ofFile h
      · cases h
  · rcases file with _ | file
    · exact normal_of_inSite h
    · cases h

end Scope

def LevelRef.Passes (root : Names) (level : LevelRef) : Prop :=
  (Place.ofPath? root level.file).isSome = true

theorem LevelRef.passes_of_normal {root : Names} {level : LevelRef} {normal : String}
    (h : normalize? level.file = some normal) : level.Passes root := by
  rw [Passes, ← Option.isSome_map, (Place.map_names_of_normal h root).1]
  rfl

theorem LevelRef.passes_levelFile {root : Names} {location dir : String} (h : Proper dir) :
    LevelRef.Passes root ⟨location, Chain.levelFile dir⟩ := by
  obtain ⟨normal, hnormal, -⟩ := proper_iff.mp h
  rw [Passes, ← Option.isSome_map, (Place.map_names_of_normal hnormal root).2]
  rfl

/-- Over valid sites, the guard of the store lets every level through to which the scope of a
request leads, if it lets the host level through. -/
theorem levels_pass_guard {siteId : Option Int} {path file : Option String} {scope : Scope}
    {host : String} {sites : Sites} {chain : List LevelRef} {root : Names}
    (hscope : Scope.ofParts siteId path file = .ok scope)
    (hsites : ∀ site ∈ sites.entries, site.Valid) (hhost : (Chain.hostLevel host).Passes root)
    (hchain : Chain.resolve host scope sites = .ok chain) :
    ∀ level ∈ chain, level.Passes root := by
  have hnormal := Scope.normal_of_ofParts hscope
  clear hscope
  cases scope with
  | global =>
    cases hchain
    exact List.forall_mem_singleton.mpr hhost
  | file name =>
    cases hchain
    refine List.forall_mem_singleton.mpr ?_
    split
    · exact hhost
    · obtain ⟨normal, hnormal⟩ := hnormal
      exact LevelRef.passes_of_normal hnormal
  | site id path =>
    obtain ⟨given, hnormal⟩ := hnormal
    obtain ⟨-, rfl⟩ := normalize?_eq_some_iff.mp hnormal
    have hsegments : ∀ piece ∈ segments given, IsSegment piece := fun _ => isSegment_of_mem
    obtain ⟨site, hsite, -, rfl⟩ := (Chain.resolve_eq_ok_iff hsegments).mp hchain
    have hvalid := hsites site (List.mem_of_find?_eq_some hsite)
    refine List.forall_mem_cons.mpr ⟨hhost, List.forall_mem_cons.mpr
      ⟨LevelRef.passes_levelFile hvalid.directory, List.forall_mem_map.mpr fun a ha => ?_⟩⟩
    have hregistered : a ∈ site.applications := (List.mem_filter.mp (List.mem_mergeSort.mp ha)).1
    exact LevelRef.passes_levelFile (hvalid.applications a hregistered).2

/-- A path has a normal form unless one of its pieces between slashes of either direction is two
dots, and the form is a slash and then the segments, which are the pieces that are neither empty
nor a single dot, with a slash between two of them. It is its own normal form, and the paths that
have it are those with the same segments. The level file of a directory that has a normal form, and
every level file that a scope names directly, pass the guard of the store. -/
theorem path_normal_form (path other : String) (root : Names) :
    segments path = (path.toList.splitOnP fun c => c = '/' ∨ c = '\\').filter
        (fun piece => piece ≠ [] ∧ piece ≠ ['.']) ∧
    normalize? path =
      (if ['.', '.'] ∈ path.toList.splitOnP fun c => c = '/' ∨ c = '\\' then none
      else some (String.ofList ('/' :: ['/'].intercalate (segments path)))) ∧
    (∀ normal, normalize? path = some normal →
      normalize? normal = some normal ∧
      (normalize? other = some normal ↔ segments other = segments path) ∧
      (Place.ofPath? root (Chain.levelFile path)).map (·.names) =
        some (root ++ Place.through path ++ [Chain.levelFileName])) ∧
    ∀ scope, Scope.ofFile path = .ok scope → ∃ file normal,
      scope = .file file ∧ normalize? file = some normal ∧
      (Place.ofPath? root file).map (·.names) = some (root ++ Place.through file) ∧
      (Place.ofPath? root (Chain.levelFile file)).map (·.names) =
        some (root ++ Place.through file ++ [Chain.levelFileName]) := by
  have hpieces : path.toList.splitOnP (fun c => c = '/' ∨ c = '\\') = pieces path := by
    rw [pieces, Text.splitOn_eq_splitOnP]
    congr 1
    funext c
    simp [isSeparator]
  refine ⟨?_, ?_, fun normal h => ⟨normalize?_normal h, normalize?_eq_iff_segments h,
    (Place.map_names_of_normal h root).2⟩, fun scope h => ?_⟩
  · rw [hpieces, segments]
    refine List.filter_congr fun piece _ => ?_
    rw [Bool.eq_iff_iff]
    simp
  · rw [hpieces, normalize?, ofSegments, Text.join_eq_intercalate, hasParent]
    simp only [List.contains_iff_mem]
  · obtain ⟨-, hparent, rfl⟩ := Scope.ofFile_eq_ok_iff.mp h
    have hnormal := normalize?_eq_some_iff.mpr ⟨hparent, rfl⟩
    exact ⟨_, _, rfl, hnormal, Place.map_names_of_normal hnormal root⟩

theorem path_normal_form_orders :
    let path := "//shop\\.\\orders/"
    normalize? path = some "/shop/orders" ∧ normalize? "/shop/orders" = some "/shop/orders" ∧
    normalize? "shop/orders" = some "/shop/orders" ∧
    (Place.ofPath? ["srv"] (Chain.levelFile path)).map (·.names) =
      some ["srv", "shop\\.\\orders", "web.toml"] ∧
    Scope.ofFile path = .ok (.file "shop\\.\\orders/") ∧
    (Place.ofPath? ["srv"] "shop\\.\\orders/").map (·.names) =
      some ["srv", "shop\\.\\orders"] := by
  intro path
  have hpath : normalize? path = some "/shop/orders" := by decide +kernel
  have hscope : Scope.ofFile path = .ok (.file "shop\\.\\orders/") := by decide +kernel
  obtain ⟨-, -, hnormal, hfile⟩ := path_normal_form path "shop/orders" ["srv"]
  obtain ⟨hself, hother, hlevel⟩ := hnormal _ hpath
  obtain ⟨file, normal, hsame, -, hplace, -⟩ := hfile _ hscope
  obtain rfl : "shop\\.\\orders/" = file := Scope.file.inj hsame
  exact ⟨hpath, hself, hother.mpr (by decide +kernel), hlevel.trans (by decide +kernel), hscope,
    hplace.trans (by decide +kernel)⟩

end LayeredConfig
