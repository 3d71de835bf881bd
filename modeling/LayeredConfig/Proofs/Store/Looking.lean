import LayeredConfig.Proofs.Store.Reading

/-!
# Reading as a function of the tree

Where no reading is scheduled to fail, reading a file depends on the root and the tree alone and
leaves the store as it is. Whatever resolves scopes and loads levels is then a function of the
documents that it looks at, which `Look` gives file by file.
-/

set_option autoImplicit false

namespace LayeredConfig

open Run

namespace Store

def Unfailing (call : StoreCall) (s : Store) : Prop := ∀ f ∈ s.faults, f.call ≠ call

instance (call : StoreCall) (s : Store) : Decidable (s.Unfailing call) :=
  inferInstanceAs (Decidable (∀ f ∈ s.faults, f.call ≠ call))

theorem strike_of_unfailing (call : StoreCall) (faults : List Fault)
    (h : ∀ f ∈ faults, f.call ≠ call) : strike call faults = (faults, none) := by
  induction faults with
  | nil => rfl
  | cons f rest ih =>
    rw [strike, ih fun f hf => h f (List.mem_cons_of_mem _ hf)]
    dsimp only
    rw [if_pos (bne_iff_ne.mpr (h f List.mem_cons_self))]

theorem strike_kinds (call : StoreCall) (faults : List Fault) :
    (∀ f ∈ (strike call faults).1, ∃ g ∈ faults, g.call = f.call ∧ g.kind = f.kind) ∧
      ∀ kind, (strike call faults).2 = some kind → ∃ g ∈ faults, g.call = call ∧ g.kind = kind := by
  induction faults with
  | nil => exact ⟨fun f hf => (by cases hf), fun kind h => by cases h⟩
  | cons g rest ih =>
    obtain ⟨hkept, hstruck⟩ := ih
    grind [strike]

theorem tick_apply (call : StoreCall) (path : String) (s : Store) (h : s.Unfailing call) :
    tick call path s = (.ok (), s) := by
  simp only [tick]
  rw [get_bind, strike_of_unfailing call s.faults h]
  rfl

def textIn (root : Names) (t : FileTree) (file : String) : Except StoreError (Option String) :=
  match Place.ofPath? root file with
  | none => .error (.invalidPath file)
  | some p =>
    match p.fault? with
    | some e => .error (.io e)
    | none =>
      match t.readText p.names p.ending.asDirectory with
      | .ok text => .ok (some text)
      | .error .notFound => .ok none
      | .error e => .error (.io e)

/-- A reading that is not struck gives the text that the tree has. -/
theorem read_of_tick {file : String} {s s₁ : Store} (h : tick .read file s = (.ok (), s₁)) :
    read file s = (textIn s.root s.tree file, s₁) := by
  obtain ⟨hroot, htree⟩ := files_eq s s₁ ((keeps_tick .read file).of_eq h)
  rw [← hroot, ← htree]
  simp only [read, textIn]
  rw [bind_apply, h]
  dsimp only
  rw [bind_apply]
  simp only [place]
  rw [get_bind]
  rcases Place.ofPath? s₁.root file with _ | p
  · rfl
  · dsimp only
    rw [pure_apply]
    dsimp only
    rcases p.fault? with _ | e
    · dsimp only
      rw [get_bind]
      rcases s₁.tree.readText p.names p.ending.asDirectory with e | text
      · cases e <;> rfl
      · rfl
    · rfl

theorem read_apply (file : String) (s : Store) (h : s.Unfailing .read) :
    read file s = (textIn s.root s.tree file, s) :=
  read_of_tick (tick_apply .read file s h)

theorem textIn_of_read {file : String} {s s' : Store} {text : Option String}
    (h : read file s = (.ok text, s')) : textIn s.root s.tree file = .ok text := by
  obtain ⟨⟨⟩, s₁, htick, -⟩ := bind_eq_ok h
  rw [read_of_tick htick] at h
  exact (Prod.mk.inj h).1

def documentIn (root : Names) (t : FileTree) (file : String) : Except StoreError LevelDocument := do
  match ← textIn root t file with
  | none => .ok .empty
  | some text => (LevelDocument.parse text).mapError (StoreError.parse file)

theorem load_apply (file : String) (s : Store) (h : s.Unfailing .read) :
    load file s = (documentIn s.root s.tree file, s) := by
  refine bind_looking (read_apply file s h) fun text => ?_
  rcases text with _ | text
  · rfl
  · dsimp only
    rcases LevelDocument.parse text with fault | d
    · rfl
    · rfl

theorem documentIn_of_load {file : String} {s s' : Store} {d : LevelDocument}
    (h : load file s = (.ok d, s')) : documentIn s.root s.tree file = .ok d := by
  obtain ⟨text, s₁, hread, hparse⟩ := bind_eq_ok h
  simp only [documentIn]
  rw [textIn_of_read hread]
  rcases text with _ | text
  · exact (Prod.ext_iff.mp hparse).1
  · dsimp only at hparse
    change (LevelDocument.parse text).mapError _ = _
    rcases hd : LevelDocument.parse text with fault | found
    · rw [hd] at hparse
      cases hparse
    · rw [hd] at hparse
      cases hparse
      rfl

theorem readText_of_opens {t : FileTree} {p : Place} (ho : p.Opens t) :
    t.readText p.names false = match t.get? p.names with
      | none => .error .notFound
      | some .directory => .error .isDirectory
      | some (.file (.text s)) => .ok s
      | some (.file (.binary _)) => .error .notText := by
  have hentry := FileTree.entry_of_isShort t p.names ho.named
  simp only [FileTree.readText, FileTree.lookup]
  rw [ho.walked, hentry]
  rcases t.get? p.names with _ | (_ | (text | bytes))
  · rfl
  · rfl
  · rfl
  · rfl

/-- A file that can be opened is read just when it is a text, and then as that. -/
theorem textIn_of_opens {root : Names} {t : FileTree} {file : String} {p : Place}
    (hp : Place.ofPath? root file = some p) (ho : p.Opens t) :
    textIn root t file = match t.get? p.names with
      | none => .ok none
      | some .directory => .error (.io .isDirectory)
      | some (.file (.text s)) => .ok (some s)
      | some (.file (.binary _)) => .error (.io .notText) := by
  have hending : p.ending.asDirectory = false := by
    rw [ho.ending]
    rfl
  simp only [textIn]
  rw [hp]
  dsimp only
  rw [ho.fault, hending]
  dsimp only
  rw [readText_of_opens ho]
  rcases t.get? p.names with _ | (_ | (text | bytes))
  · rfl
  · rfl
  · rfl
  · rfl

theorem fault?_of_documentIn {root : Names} {t : FileTree} {file : String} {p : Place}
    (hp : Place.ofPath? root file = some p) {d : LevelDocument}
    (h : documentIn root t file = .ok d) : p.fault? = none := by
  rcases hf : p.fault? with _ | e
  · rfl
  · simp only [documentIn, textIn] at h
    rw [hp] at h
    dsimp only at h
    rw [hf] at h
    cases h

/-- Only what is on the way to a file counts. -/
theorem documentIn_eq {root : Names} {t u : FileTree} {file : String}
    (h : ∀ p, Place.ofPath? root file = some p →
      ∀ path, path <+: p.names → t.get? path = u.get? path) :
    documentIn root t file = documentIn root u file := by
  simp only [documentIn, textIn]
  rcases hp : Place.ofPath? root file with _ | p
  · rfl
  · dsimp only
    rw [FileTree.readText_eq t u p.names p.ending.asDirectory (h p hp)]

end Store

namespace Access

abbrev Look := String → Except ConfigError LevelDocument

def look (overlay : Option StagedSet) (root : Names) (t : FileTree) : Look := fun file =>
  ((Store.documentIn root t file).mapError (.ofStore file)).map fun d =>
    match overlay with
    | some set => set.overlay file d
    | none => d

theorem look_eq_ok {set : StagedSet} {root : Names} {t : FileTree} {file : String}
    {d : LevelDocument} (h : look (some set) root t file = .ok d) :
    ∃ former, Store.documentIn root t file = .ok former ∧ set.overlay file former = d := by
  obtain ⟨former, hformer, hd⟩ := answer_of_map h
  exact ⟨former, answer_of_mapError hformer, hd⟩

theorem documentIn_of_look {root : Names} {t : FileTree} {file : String} {d : LevelDocument}
    (h : look none root t file = .ok d) : Store.documentIn root t file = .ok d := by
  obtain ⟨former, hformer, rfl⟩ := answer_of_map h
  exact answer_of_mapError hformer

variable (overlay : Option StagedSet)

theorem load_apply (file : String) (s : Store) (h : s.Unfailing .read) :
    load overlay file s = (look overlay s.root s.tree file, s) := by
  simp only [load, look]
  rw [bind_apply, onSection_apply, Store.load_apply file s h]
  rcases Store.documentIn s.root s.tree file with e | d
  · rfl
  · cases overlay <;> rfl

variable {overlay} in
theorem look_of_load {file : String} {s s' : Store} {d : LevelDocument}
    (h : load overlay file s = (.ok d, s')) : look overlay s.root s.tree file = .ok d := by
  obtain ⟨former, s₁, hload, hpure⟩ := bind_eq_ok h
  rw [onSection_apply] at hload
  rcases hread : Store.load file s with ⟨e | found, s₂⟩
  · rw [hread] at hload
    cases hload
  · rw [hread] at hload
    cases hload
    simp only [look]
    rw [Store.documentIn_of_load hread]
    cases overlay <;> exact (Prod.ext_iff.mp hpure).1

def sitesFrom (found : Look) : Except ConfigError Sites := do sitesOf (← found Chain.hostFile)

def chainFrom (found : Look) (scope : Scope) : Except ConfigError (List LevelRef) := do
  Chain.resolve Chain.hostFile scope (← sitesFrom found)

def withDocument (found : Look) (level : LevelRef) :
    Except ConfigError (LevelRef × LevelDocument) := do
  pure (level, ← found level.file)

def levelsFrom (found : Look) (scope : Scope) :
    Except ConfigError (List (LevelRef × LevelDocument)) := do
  (← chainFrom found scope).mapM (withDocument found)

theorem sites_apply (s : Store) (h : s.Unfailing .read) :
    sites overlay s = (sitesFrom (look overlay s.root s.tree), s) :=
  bind_looking (load_apply overlay _ s h) fun _ => rfl

variable {overlay} in
theorem sitesFrom_of_sites {s s' : Store} {registered : Sites}
    (h : sites overlay s = (.ok registered, s')) :
    sitesFrom (look overlay s.root s.tree) = .ok registered := by
  obtain ⟨host, mid, hhost, hdecodes⟩ := bind_eq_ok h
  have hdecodes : sitesOf host = .ok registered := (Prod.ext_iff.mp hdecodes).1
  simp only [sitesFrom]
  rw [look_of_load hhost]
  exact hdecodes

theorem resolve_apply (scope : Scope) (s : Store) (h : s.Unfailing .read) :
    resolve overlay scope s = (chainFrom (look overlay s.root s.tree) scope, s) :=
  bind_looking (sites_apply overlay s h) fun _ => rfl

theorem materialize_apply (scope : Scope) (s : Store) (h : s.Unfailing .read) :
    materialize overlay scope s = (levelsFrom (look overlay s.root s.tree) scope, s) :=
  bind_looking (resolve_apply overlay scope s h) fun chain =>
    mapM_looking chain fun _ => bind_looking (load_apply overlay _ s h) fun _ => rfl

def sectionFrom (registry : Registry) (overlay : Option StagedSet) (found : Look) (scope : Scope)
    (name : String) : Except ConfigError SectionView := do
  let definition ← registry.get name
  pure (view name definition.default scope overlay (← levelsFrom found scope))

variable {overlay} in
theorem sectionFrom_eq_ok_iff {registry : Registry} {found : Look} {scope : Scope} {name : String}
    {v : SectionView} : sectionFrom registry overlay found scope name = .ok v ↔
      ∃ definition chain, registry.get name = .ok definition ∧ levelsFrom found scope = .ok chain ∧
        v = view name definition.default scope overlay chain := by
  constructor
  · intro h
    obtain ⟨definition, hname, h⟩ := answer_of_bind h
    obtain ⟨chain, hchain, hview⟩ := answer_of_bind h
    exact ⟨definition, chain, hname, hchain, (Except.ok.inj hview).symm⟩
  · rintro ⟨definition, chain, hname, hchain, rfl⟩
    rw [sectionFrom, hname]
    change (levelsFrom found scope).map _ = _
    rw [hchain]
    rfl

theorem getSection_apply (registry : Registry) (scope : Scope) (name : String) (s : Store)
    (h : s.Unfailing .read) :
    getSection registry overlay scope name s =
      (sectionFrom registry overlay (look overlay s.root s.tree) scope name, s) :=
  bind_looking rfl fun _ => bind_looking (materialize_apply overlay scope s h) fun _ => rfl

theorem isOk_sectionFrom_global {registry : Registry} {name : String}
    {definition : SectionDefinition} (h : registry.get name = .ok definition) (found : Look) :
    (sectionFrom registry overlay found .global name).isOk = (sitesFrom found).isOk := by
  simp only [sectionFrom, levelsFrom, chainFrom]
  rw [h]
  rcases hsites : sitesFrom found with e | sites
  · rfl
  · rcases hhost : found Chain.hostFile with e | d
    · simp only [sitesFrom] at hsites
      rw [hhost] at hsites
      cases hsites
    · change (Except.bind (List.mapM (withDocument found) [Chain.hostLevel Chain.hostFile])
        _).isOk = true
      rw [List.mapM_cons, List.mapM_nil]
      simp only [withDocument]
      change (Except.bind (Except.bind (Except.bind (found Chain.hostFile) _) _) _).isOk = true
      rw [hhost]
      rfl

def admission (registry : Registry) (found : Look) (scope : Scope) (name : String) (m : Mutation) :
    Except ConfigError LevelRef := do
  let definition ← registry.get name
  checkMutation definition m
  target name definition.allow m (← levelsFrom found scope)

theorem admission_eq_ok {registry : Registry} {found : Look} {scope : Scope} {name : String}
    {m : Mutation} {level : LevelRef} (h : admission registry found scope name m = .ok level) :
    ∃ definition chain, registry.get name = .ok definition ∧
      checkMutation definition m = .ok () ∧ levelsFrom found scope = .ok chain ∧
      target name definition.allow m chain = .ok level := by
  obtain ⟨definition, hdefinition, h⟩ := answer_of_bind h
  obtain ⟨⟨⟩, hcheck, h⟩ := answer_of_bind h
  obtain ⟨chain, hlevels, h⟩ := answer_of_bind h
  exact ⟨definition, chain, hdefinition, hcheck, hlevels, h⟩

theorem last_of_target {name : String} {allow : AllowDefinition} {m : Mutation}
    {chain : List (LevelRef × LevelDocument)} {level : LevelRef}
    (h : target name allow m chain = .ok level) : ∃ d, chain.getLast? = some (level, d) := by
  simp only [target] at h
  rcases hlast : chain.getLast? with _ | ⟨last, d⟩
  · rw [hlast] at h
    cases h
  rw [hlast] at h
  dsimp only at h
  split at h
  · cases h
  · split at h
    · cases h
    · split at h
      · cases h
      · obtain rfl := Except.ok.inj h
        exact ⟨d, rfl⟩

theorem target_eq_ok {name : String} {allow : AllowDefinition} {m : Mutation}
    {chain : List (LevelRef × LevelDocument)} {level : LevelRef}
    (h : target name allow m chain = .ok level) : ∃ d, (level, d) ∈ chain :=
  (last_of_target h).imp fun _ hlast => List.mem_of_getLast? hlast

theorem mapM_withDocument_eq_ok {found : Look} {refs : List LevelRef}
    {chain : List (LevelRef × LevelDocument)} (h : refs.mapM (withDocument found) = .ok chain) :
    chain.map (·.1) = refs ∧ ∀ l ∈ chain, found l.1.file = .ok l.2 := by
  induction refs generalizing chain with
  | nil =>
    cases h
    exact ⟨rfl, fun l hl => by cases hl⟩
  | cons ref refs ih =>
    rw [List.mapM_cons] at h
    obtain ⟨first, hfirst, h⟩ := answer_of_bind h
    obtain ⟨levels, hrest, h⟩ := answer_of_bind h
    obtain ⟨d, hd, hfirst⟩ := answer_of_bind hfirst
    obtain ⟨hrefs, hlevels⟩ := ih hrest
    cases hfirst
    cases h
    refine ⟨congrArg (ref :: ·) hrefs, fun l hl => ?_⟩
    rcases List.mem_cons.mp hl with rfl | hl
    · exact hd
    · exact hlevels l hl

theorem mapM_withDocument_of_mem {found : Look} {chain : List (LevelRef × LevelDocument)}
    (h : ∀ l ∈ chain, found l.1.file = .ok l.2) :
    (chain.map (·.1)).mapM (withDocument found) = .ok chain := by
  induction chain with
  | nil => rfl
  | cons l rest ih =>
    obtain ⟨hl, hrest⟩ := List.forall_mem_cons.mp h
    rw [List.map_cons, List.mapM_cons, ih hrest]
    simp only [withDocument]
    rw [hl]
    rfl

theorem mapM_withDocument_of_found {found : Look} {refs : List LevelRef}
    (h : ∀ ref ∈ refs, ∃ d, found ref.file = .ok d) :
    ∃ chain, refs.mapM (withDocument found) = .ok chain := by
  induction refs with
  | nil => exact ⟨[], rfl⟩
  | cons ref refs ih =>
    obtain ⟨⟨d, hd⟩, hrest⟩ := List.forall_mem_cons.mp h
    obtain ⟨chain, hchain⟩ := ih hrest
    refine ⟨(ref, d) :: chain, ?_⟩
    rw [List.mapM_cons, hchain]
    simp only [withDocument]
    rw [hd]
    rfl

theorem levelsFrom_eq_ok {found : Look} {scope : Scope} {chain : List (LevelRef × LevelDocument)}
    (h : levelsFrom found scope = .ok chain) : ∃ refs, chainFrom found scope = .ok refs ∧
      refs.mapM (withDocument found) = .ok chain :=
  answer_of_bind h

theorem found_of_admission {registry : Registry} {found : Look} {scope : Scope} {name : String}
    {m : Mutation} {level : LevelRef} (h : admission registry found scope name m = .ok level) :
    ∃ d, found level.file = .ok d := by
  obtain ⟨definition, chain, -, -, hlevels, htarget⟩ := admission_eq_ok h
  obtain ⟨d, hmem⟩ := target_eq_ok htarget
  obtain ⟨refs, -, hrefs⟩ := levelsFrom_eq_ok hlevels
  exact ⟨d, (mapM_withDocument_eq_ok hrefs).2 _ hmem⟩

theorem checkWrite_apply (registry : Registry) (scope : Scope) (name : String) (m : Mutation)
    (s : Store) (h : s.Unfailing .read) :
    checkWrite registry overlay scope name m s =
      (admission registry (look overlay s.root s.tree) scope name m, s) :=
  bind_looking rfl fun _ => bind_looking rfl fun _ =>
    bind_looking (materialize_apply overlay scope s h) fun _ => rfl

end Access

end LayeredConfig
