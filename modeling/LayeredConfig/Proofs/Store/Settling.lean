import LayeredConfig.Proofs.Sites.Decoding
import LayeredConfig.Proofs.Store.Looking

/-!
# Reading what was written

What is found in files that were written and read again is what was seen before, settled. The
levels of a scope are then the same, each with its settled document, so a section looks the same
but for its settled value, and the same writes are admitted.
-/

set_option autoImplicit false

namespace LayeredConfig

open Run

def SectionView.settled (v : SectionView) : SectionView :=
  { v with value := if v.owner.isSome then v.value.settled else v.value, dirty := false }

namespace Store

theorem documentIn_stays {root : Names} {t : FileTree} {file : String} {d : LevelDocument}
    (h : documentIn root t file = .ok d) : d.Storable ∧ d.settled = d := by
  obtain ⟨_ | text, -, h⟩ := answer_of_bind h
  · cases h
    exact ⟨LevelDocument.storable_empty, rfl⟩
  · have hparse := answer_of_mapError h
    exact ⟨LevelDocument.storable_of_parse text d hparse,
      (LevelDocument.parse_stays text d hparse).2.1⟩

end Store

namespace Access

def filesFrom (found : Look) (scope : Scope) : List String :=
  Chain.hostFile :: match chainFrom found scope with
    | .ok chain => chain.map (·.file)
    | .error _ => []

def Settles (found again : Look) (files : List String) : Prop :=
  ∀ file ∈ files, again file = (found file).map LevelDocument.settled

def Decodes (found : Look) : Prop :=
  ∀ d, found Chain.hostFile = .ok d → (sitesOf d).isOk = true

theorem sitesOf_cases (d : LevelDocument) :
    (∃ s, sitesOf d = .ok s) ∨ ∃ why, sitesOf d = .error (.validation (.sites why)) := by
  simp only [sitesOf]
  rcases d.section? Registry.sitesSection with _ | v
  · exact .inl ⟨_, rfl⟩
  · simp only [Sites.ofValue?]
    rcases Sites.schema.check v with why | u
    · exact .inr ⟨why, rfl⟩
    · exact .inl ⟨_, rfl⟩

theorem decodes_of_sitesFrom {found : Look}
    (h : ∀ why, sitesFrom found ≠ .error (.validation (.sites why))) : Decodes found := by
  intro d hd
  simp only [sitesFrom] at h
  rw [hd] at h
  rcases sitesOf_cases d with ⟨s, hs⟩ | ⟨why, hs⟩
  · rw [hs]
    rfl
  · exact absurd hs (h why)

theorem decodes_of_levelsFrom {found : Look} {scope : Scope}
    {chain : List (LevelRef × LevelDocument)} (h : levelsFrom found scope = .ok chain) :
    Decodes found := by
  apply decodes_of_sitesFrom
  intro why hsites
  simp only [levelsFrom, chainFrom] at h
  rw [hsites] at h
  cases h

theorem decodes_of_sectionFrom {registry : Registry} {overlay : Option StagedSet} {found : Look}
    {scope : Scope} {name : String} {v : SectionView}
    (h : sectionFrom registry overlay found scope name = .ok v) : Decodes found := by
  obtain ⟨definition, chain, -, hlevels, -⟩ := sectionFrom_eq_ok_iff.mp h
  exact decodes_of_levelsFrom hlevels

theorem decodes_of_admission {registry : Registry} {found : Look} {scope : Scope} {name : String}
    {m : Mutation} {level : LevelRef} (h : admission registry found scope name m = .ok level) :
    Decodes found := by
  obtain ⟨definition, chain, -, -, hlevels, -⟩ := admission_eq_ok h
  exact decodes_of_levelsFrom hlevels

def settleLevel (l : LevelRef × LevelDocument) : LevelRef × LevelDocument := (l.1, l.2.settled)

@[simp] theorem levels_settled (name : String) (chain : List (LevelRef × LevelDocument)) :
    levels name (chain.map settleLevel) = levels name chain := by
  apply List.ext_getElem?
  intro i
  simp only [levels]
  rw [List.getElem?_mapIdx, List.getElem?_mapIdx, List.getElem?_map]
  rcases chain[i]? with _ | l
  · rfl
  · simp only [settleLevel, Option.map_some, LevelDocument.mode_settled,
      LevelDocument.section?_settled, Option.isSome_map]

theorem nearest?_settled (name : String) (chain : List (LevelRef × LevelDocument)) :
    nearest? name (chain.map settleLevel) =
      (nearest? name chain).map fun l => (l.1, l.2.settled) := by
  simp only [nearest?]
  rw [← List.map_reverse]
  induction chain.reverse with
  | nil => rfl
  | cons l rest ih =>
    rw [List.map_cons, List.findSome?_cons, List.findSome?_cons, ih]
    simp only [settleLevel, LevelDocument.section?_settled]
    rcases l.2.section? name with _ | v
    · rfl
    · rfl

theorem isStoredLast_settled (name : String) (chain : List (LevelRef × LevelDocument)) :
    isStoredLast name (chain.map settleLevel) = isStoredLast name chain := by
  simp only [isStoredLast]
  rw [List.getLast?_map]
  rcases chain.getLast? with _ | l
  · rfl
  · simp only [settleLevel, Option.map_some, Option.bind_some, LevelDocument.section?_settled,
      Option.isSome_map]

theorem view_settled (name : String) (default : Value) (scope : Scope)
    (overlay : Option StagedSet) (chain : List (LevelRef × LevelDocument)) :
    view name default scope none (chain.map settleLevel) =
      (view name default scope overlay chain).settled := by
  simp only [view, SectionView.settled]
  rw [levels_settled, nearest?_settled, isStoredLast_settled, List.getLast?_map, Option.map_map]
  rcases Option.eq_none_or_eq_some (nearest? name chain) with hn | ⟨l, hn⟩
  · simp only [hn]
    rfl
  · simp only [hn]
    rfl

theorem target_settled (name : String) (allow : AllowDefinition) (m : Mutation)
    (chain : List (LevelRef × LevelDocument)) :
    target name allow m (chain.map settleLevel) = target name allow m chain := by
  simp only [target]
  rw [levels_settled, List.getLast?_map]
  rcases chain.getLast? with _ | l
  · rfl
  · rfl

variable {found again : Look} {scope : Scope}

theorem sitesFrom_settles (h : again Chain.hostFile = (found Chain.hostFile).map .settled)
    (hwell : ∀ d, found Chain.hostFile = .ok d → d.WellFormed) (hdecodes : Decodes found) :
    sitesFrom again = sitesFrom found := by
  simp only [sitesFrom]
  rw [h]
  rcases hd : found Chain.hostFile with e | d
  · rfl
  · obtain ⟨sites, hsites⟩ := exists_of_isOk (hdecodes d hd)
    change sitesOf d.settled = sitesOf d
    rw [hsites]
    exact sitesOf_settled (hwell d hd) hsites

theorem mapM_withDocument (f : LevelRef → LevelDocument → LevelDocument) (chain : List LevelRef)
    (h : ∀ level ∈ chain, again level.file = (found level.file).map (f level)) :
    chain.mapM (withDocument again) =
      (chain.mapM (withDocument found)).map (List.map fun l => (l.1, f l.1 l.2)) := by
  induction chain with
  | nil => rfl
  | cons level rest ih =>
    have hfirst := h level List.mem_cons_self
    have hrest := ih fun l hl => h l (List.mem_cons_of_mem _ hl)
    rw [List.mapM_cons, List.mapM_cons, hrest]
    simp only [withDocument]
    rw [hfirst]
    rcases found level.file with e | d
    · rfl
    · rcases List.mapM (withDocument found) rest with e | levels
      · rfl
      · rfl

/-- Where the same sites are found, the same levels are. -/
theorem levelsFrom_of_sites (f : LevelDocument → LevelDocument)
    (h : ∀ file ∈ filesFrom found scope, again file = (found file).map f)
    (hsites : sitesFrom again = sitesFrom found) :
    levelsFrom again scope = (levelsFrom found scope).map (List.map fun l => (l.1, f l.2)) := by
  have hchain : chainFrom again scope = chainFrom found scope := by
    simp only [chainFrom]
    rw [hsites]
  simp only [levelsFrom]
  rw [hchain]
  rcases hc : chainFrom found scope with e | chain
  · rfl
  · apply mapM_withDocument fun _ => f
    intro level hlevel
    apply h
    simp only [filesFrom]
    rw [hc]
    exact List.mem_cons_of_mem _ (List.mem_map_of_mem hlevel)

theorem levelsFrom_settles (h : Settles found again (filesFrom found scope))
    (hwell : ∀ d, found Chain.hostFile = .ok d → d.WellFormed) (hdecodes : Decodes found) :
    levelsFrom again scope = (levelsFrom found scope).map (List.map settleLevel) :=
  levelsFrom_of_sites LevelDocument.settled h
    (sitesFrom_settles (h _ List.mem_cons_self) hwell hdecodes)

theorem found_of_levelsFrom {chain : List (LevelRef × LevelDocument)}
    (h : levelsFrom found scope = .ok chain) :
    ∀ file ∈ filesFrom found scope, ∃ d, found file = .ok d := by
  intro file hfile
  obtain ⟨refs, hrefs, hmap⟩ := levelsFrom_eq_ok h
  simp only [filesFrom] at hfile
  rw [hrefs] at hfile
  rcases List.mem_cons.mp hfile with rfl | hfile
  · obtain ⟨sites, hsites, -⟩ := answer_of_bind hrefs
    obtain ⟨d, hhost, -⟩ := answer_of_bind hsites
    exact ⟨d, hhost⟩
  · obtain ⟨hlevels, hfound⟩ := mapM_withDocument_eq_ok hmap
    rw [← hlevels] at hfile
    obtain ⟨ref, href, rfl⟩ := List.mem_map.mp hfile
    obtain ⟨l, hl, rfl⟩ := List.mem_map.mp href
    exact ⟨l.2, hfound l hl⟩

/-- Where the files that are looked at again are found, and each as it was found before, settled,
the files that were looked at before are found again. -/
theorem settles_of_found {chain : List (LevelRef × LevelDocument)}
    (h : levelsFrom found scope = .ok chain)
    (hagain : ∀ file d, found file = .ok d → (again file).isOk = true → again file = .ok d.settled)
    (hok : ∀ file ∈ filesFrom again scope, (again file).isOk = true)
    (hwell : ∀ d, found Chain.hostFile = .ok d → d.WellFormed) :
    Settles found again (filesFrom found scope) := by
  have hstep : ∀ file ∈ filesFrom found scope, (again file).isOk = true →
      again file = (found file).map LevelDocument.settled := by
    intro file hfile hfound
    obtain ⟨d, hd⟩ := found_of_levelsFrom h file hfile
    rw [hagain file d hd hfound, hd]
    rfl
  have hsites := sitesFrom_settles (hstep _ List.mem_cons_self (hok _ List.mem_cons_self)) hwell
    (decodes_of_levelsFrom h)
  have hfiles : filesFrom again scope = filesFrom found scope := by
    simp only [filesFrom, chainFrom]
    rw [hsites]
  exact fun file hfile => hstep file hfile (hok file (hfiles ▸ hfile))

theorem levelsFrom_congr (h : ∀ file ∈ filesFrom found scope, again file = found file) :
    levelsFrom again scope = levelsFrom found scope := by
  have hsites : sitesFrom again = sitesFrom found := by
    simp only [sitesFrom]
    rw [h _ List.mem_cons_self]
  have hid : ∀ file ∈ filesFrom found scope, again file = (found file).map id := by
    intro file hfile
    rw [h file hfile]
    rcases found file with e | d
    · rfl
    · rfl
  rw [levelsFrom_of_sites id hid hsites]
  rcases levelsFrom found scope with e | chain
  · rfl
  · exact congrArg Except.ok (List.map_id chain)

theorem admission_congr (registry : Registry) (name : String) (m : Mutation)
    (h : ∀ file ∈ filesFrom found scope, again file = found file) :
    admission registry again scope name m = admission registry found scope name m := by
  simp only [admission]
  rw [levelsFrom_congr h]

/-- A section looks the same again but for its settled value. -/
theorem sectionFrom_settles (registry : Registry) (overlay : Option StagedSet) (name : String)
    (h : Settles found again (filesFrom found scope))
    (hwell : ∀ d, found Chain.hostFile = .ok d → d.WellFormed) (hdecodes : Decodes found) :
    sectionFrom registry none again scope name =
      (sectionFrom registry overlay found scope name).map .settled := by
  simp only [sectionFrom]
  rw [levelsFrom_settles h hwell hdecodes]
  rcases registry.get name with e | definition
  · rfl
  · rcases levelsFrom found scope with e | chain
    · rfl
    · exact congrArg Except.ok (view_settled name definition.default scope overlay chain)

theorem admission_settles (registry : Registry) (name : String) (m : Mutation)
    (h : Settles found again (filesFrom found scope))
    (hwell : ∀ d, found Chain.hostFile = .ok d → d.WellFormed) (hdecodes : Decodes found) :
    admission registry again scope name m = admission registry found scope name m := by
  simp only [admission]
  rw [levelsFrom_settles h hwell hdecodes]
  rcases registry.get name with e | definition
  · rfl
  · change Except.bind (checkMutation definition m) _ = Except.bind (checkMutation definition m) _
    rcases checkMutation definition m with e | u
    · rfl
    · rcases levelsFrom found scope with e | chain
      · rfl
      · exact target_settled name definition.allow m chain

end Access

end LayeredConfig
