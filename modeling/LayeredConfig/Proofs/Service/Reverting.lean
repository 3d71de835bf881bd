import LayeredConfig.Proofs.Document.Merging
import LayeredConfig.Proofs.Scope.Lookup
import LayeredConfig.Proofs.Service.Routes
import LayeredConfig.Proofs.Service.Showing

/-!
# Going back to the inherited section

To revert a section at a scope is to stage that its last level no longer stores it. That takes the
copy out of every level that shares the file, so what is seen then is the copy of a level with
another file, or the default. Where nothing was stored before, setting the section and reverting it
leave a mark in the staged set and nothing in any document.
-/

set_option autoImplicit false

namespace LayeredConfig

open Run

namespace Mutation

variable {name : String} {d : LevelDocument}

theorem revert_replace (v : Value) (h : d.Keyed) (hnone : d.section? name = .none) :
    revert.apply name ((replace v).apply name d) = d := by
  refine (keyed_apply revert name (keyed_apply (replace v) name h)).ext h ?_ ?_
  · intro other
    rw [get?_modes_apply, get?_modes_apply]
    simp only [modeAfter, revert, replace, ite_self]
  · intro other
    rw [section?_apply, section?_apply]
    split
    · rename_i hother
      subst hother
      exact hnone.symm
    · rfl

theorem section?_revert (name : String) (d : LevelDocument) :
    (revert.apply name d).section? name = .none := by
  rw [section?_apply, if_pos rfl]
  rfl

end Mutation

namespace Access

variable {set : StagedSet} {e : Staged} {root : Names} {t : FileTree} {scope : Scope}
  {name : String} {chain : List (LevelRef × LevelDocument)} {target : LevelRef} {d : LevelDocument}

def changed (e : Staged) (l : LevelRef × LevelDocument) : LevelRef × LevelDocument :=
  (l.1, if e.file = l.1.file then e.mutation.apply e.name l.2 else l.2)

/-- What is found of a level through one more change. -/
theorem look_stage (hset : set.Distinct) {l : LevelRef × LevelDocument}
    (h : look (some set) root t l.1.file = .ok l.2) :
    look (some (set.stage e)) root t (changed e l).1.file = .ok (changed e l).2 := by
  obtain ⟨former, hformer, hd⟩ := look_eq_ok h
  have hkeyed : former.Keyed := (Store.documentIn_stays hformer).1.toWellFormed.keyed
  have hafter : look (some (set.stage e)) root t l.1.file =
      .ok ((set.stage e).overlay l.1.file former) := by
    simp only [look]
    rw [hformer]
    rfl
  rw [StagedSet.overlay_stage hset hkeyed, hd] at hafter
  exact hafter

/-- A change at the last level of a scope leaves the levels the same, as long as sites are found. -/
theorem levelsFrom_stage (hset : set.Distinct)
    (h : levelsFrom (look (some set) root t) scope = .ok chain)
    (hlast : chain.getLast? = some (target, d)) (hfile : e.file = target.file) {after : Sites}
    (hafter : sitesFrom (look (some (set.stage e)) root t) = .ok after) :
    levelsFrom (look (some (set.stage e)) root t) scope = .ok (chain.map (changed e)) := by
  obtain ⟨refs, hrefs, hchain⟩ := levelsFrom_eq_ok h
  obtain ⟨sites, hsites, hresolve⟩ := answer_of_bind hrefs
  obtain ⟨rfl, hfound⟩ := mapM_withDocument_eq_ok hchain
  have hend : (chain.map (·.1)).getLast? = some target := by
    rw [List.getLast?_map, hlast]
    rfl
  have hlevels : (chain.map (changed e)).map (·.1) = chain.map (·.1) := by
    rw [List.map_map]
    rfl
  simp only [levelsFrom]
  rw [chainFrom_stage hsites hresolve hend hfile hafter, ← hlevels]
  refine mapM_withDocument_of_mem fun l hl => ?_
  obtain ⟨former, hformer, rfl⟩ := List.mem_map.mp hl
  exact look_stage hset (hfound former hformer)

def Inherited (file name : String) (default : Value) (chain : List (LevelRef × LevelDocument))
    (v : SectionView) : Prop :=
  (∃ above level d below, chain = above ++ (level, d) :: below ∧ level.file ≠ file ∧
      d.section? name = some v.value ∧ v.owner = some level.location ∧
      ∀ l ∈ below, l.1.file ≠ file → l.2.section? name = none) ∨
    (∀ l ∈ chain, l.1.file ≠ file → l.2.section? name = none) ∧ v.value = default ∧ v.owner = none

theorem section?_changed (he : e.mutation = .revert) (l : LevelRef × LevelDocument) :
    (changed e l).2.section? e.name =
      if e.file = l.1.file then none else l.2.section? e.name := by
  simp only [changed]
  split
  · rw [he, Mutation.section?_revert]
  · rfl

theorem inherited_of_shown {default : Value} {v : SectionView} (he : e.mutation = .revert)
    (hlast : chain.getLast? = some (target, d)) (hfile : e.file = target.file)
    (h : Shown e.name default (chain.map (changed e)) v) :
    v.isLocal = false ∧ Inherited e.file e.name default chain v := by
  have hgone : ∀ l : LevelRef × LevelDocument, (changed e l).2.section? e.name = none →
      l.1.file ≠ e.file → l.2.section? e.name = none := by
    intro l hnone hother
    rwa [section?_changed he, if_neg hother.symm] at hnone
  rcases h.value with ⟨above, level, d', below, hchain, hd', hbelow, howner, hlocal⟩ |
    ⟨hnone, hvalue, howner, hlocal⟩
  · obtain ⟨above, rest, rfl, rfl, hrest⟩ := List.map_eq_append_iff.mp hchain
    obtain ⟨l, below, rfl, hl, rfl⟩ := List.map_eq_cons_iff.mp hrest
    obtain ⟨hlevel, rfl⟩ := Prod.mk.inj hl
    have hvalue : (changed e l).2.section? e.name = some v.value := hd'
    rw [section?_changed he] at hvalue
    split at hvalue
    · cases hvalue
    rename_i hother
    refine ⟨?_, .inl ⟨above, l.1, l.2, below, rfl, Ne.symm hother, hvalue, ?_, fun l' hl' => ?_⟩⟩
    · -- the last level shares the file with the change
      rw [Bool.eq_false_iff, ne_eq, hlocal, List.map_eq_nil_iff]
      rintro rfl
      rw [List.getLast?_concat] at hlast
      obtain rfl := Option.some.inj hlast
      exact hother hfile
    · rw [howner, ← hlevel]
    · exact hgone l' (hbelow _ (List.mem_map_of_mem hl'))
  · exact ⟨hlocal, .inr ⟨fun l hl => hgone l (hnone _ (List.mem_map_of_mem hl)), hvalue, howner⟩⟩

theorem sitesFrom_revert {sites : Sites} (he : e.mutation = .revert)
    (h : sitesFrom (look (some set) root t) = .ok sites) :
    ∃ after, sitesFrom (look (some (set.stage e)) root t) = .ok after := by
  rcases sitesFrom_stage (e := e) h with hsame | ⟨-, hafter | ⟨-, v, hv, -⟩⟩
  · exact ⟨sites, hsame⟩
  · exact hafter
  · rw [he] at hv
    cases hv

section Rereading

variable {set' : StagedSet} (h : ∀ file d, Store.documentIn root t file = .ok d →
  set'.overlay file d = set.overlay file d)

include h

/-- Sets that do the same to all documents of a tree are the same to look through. -/
theorem alike_load (file : String) :
    Alike (fun s => s.files = (root, t)) (load (some set') file) (load (some set) file) := by
  intro s hs
  refine ⟨?_, (keeps_load (some set') file s).trans hs⟩
  obtain ⟨rfl, rfl⟩ := Prod.mk.inj hs
  simp only [load]
  rw [bind_apply, bind_apply, onSection_apply]
  rcases hread : Store.load file s with ⟨e | d, s'⟩
  · rfl
  · dsimp only
    rw [h file d (Store.documentIn_of_load hread)]

theorem alike_materialize (scope : Scope) :
    Alike (fun s => s.files = (root, t)) (materialize (some set') scope)
      (materialize (some set) scope) := by
  refine alike_bind (alike_bind (alike_bind (alike_load h _) fun d => ?_) fun sites => ?_)
    fun refs => alike_mapM refs fun ref => ?_
  · exact alike_refl fun _ hs => hs
  · exact alike_refl fun _ hs => hs
  · exact alike_bind (alike_load h ref.file) fun d => alike_refl (preserves_pure _)

theorem getSection_alike (registry : Registry) (scope : Scope) (name : String) {s : Store}
    (hs : s.files = (root, t)) :
    (getSection registry (some set') scope name s).1.map (fun v => { v with dirty := false }) =
      (getSection registry (some set) scope name s).1.map fun v => { v with dirty := false } := by
  have hsame := (alike_materialize h scope s hs).1
  simp only [getSection]
  rcases hname : registry.get name with e | definition
  · rfl
  · change ((materialize (some set') scope >>= _) s).1.map _ =
      ((materialize (some set) scope >>= _) s).1.map _
    rw [bind_apply, bind_apply, hsame]
    rcases materialize (some set) scope s with ⟨e | chain, s'⟩
    · rfl
    · rfl

end Rereading

end Access

structure Service.SameFiles (s t : Service) : Prop where
  files : t.store.files = s.store.files
  registry : t.registry = s.registry

structure Service.OnlyReads (s t : Service) : Prop extends s.SameFiles t where
  unfailing : s.store.Unfailing .read → t.store.Unfailing .read

theorem Service.OnlyReads.trans {s t r : Service} (h : s.OnlyReads t) (h' : t.OnlyReads r) :
    s.OnlyReads r where
  files := h'.files.trans h.files
  registry := h'.registry.trans h.registry
  unfailing hs := h'.unfailing (h.unfailing hs)

namespace WorkUnit

def Sees (u : WorkUnit) (s : Service) (scope : Scope) (chain : List (LevelRef × LevelDocument)) :
    Prop :=
  Access.levelsFrom (Access.look (some u.pending) s.store.root s.store.tree) scope = .ok chain

variable {u u' : WorkUnit} {s s' t : Service} {scope : Scope} {name : String} {m : Mutation}
  {chain : List (LevelRef × LevelDocument)}

def ShowsAlike (u : WorkUnit) (s : Service) (u' : WorkUnit) (s' : Service) : Prop :=
  ∀ scope name, (u'.getSection scope name s').1.map (fun v => { v with dirty := false }) =
    (u.getSection scope name s).1.map fun v => { v with dirty := false }

theorem Sees.congr (h : s.SameFiles t) : u.Sees t scope chain ↔ u.Sees s scope chain := by
  obtain ⟨hroot, htree⟩ := Store.files_eq _ _ h.files
  simp only [Sees]
  rw [hroot, htree]

theorem Sees.last (h : u.Sees s scope chain) : ∃ target d, chain.getLast? = some (target, d) :=
  ⟨_, _, List.getLast?_eq_some_getLast (Access.levelsFrom_ne_nil h)⟩

section Alone

variable (hu : u.transaction = none)

include hu

theorem getSection_alone (scope : Scope) (name : String) (s : Service) :
    u.getSection scope name s =
      Service.onStore (Access.getSection s.registry (some u.pending) scope name) s := by
  simp only [getSection, overlay]
  rw [hu]
  by_cases hempty : u.pending.isEmpty = true
  · rw [StagedSet.eq_empty hempty, Access.getSection_empty]
    rfl
  · dsimp only
    rw [if_neg hempty]
    rfl

theorem getSection_sees {v : SectionView} (h : u.getSection scope name s = (.ok v, s')) :
    s.OnlyReads s' ∧
      ∃ definition chain, s.registry.get name = .ok definition ∧ u.Sees s scope chain ∧
        v = Access.view name definition.default scope (some u.pending) chain := by
  rw [getSection_alone hu, Service.onStore_apply] at h
  have hlooked : s.store.Looked
      (Access.getSection s.registry (some u.pending) scope name s.store).2 :=
    Access.preserves_getSection (Store.looked_load s.store) _ _ _ _ s.store (.refl _)
  rcases hread : Access.getSection s.registry (some u.pending) scope name s.store with
    ⟨e | found, store⟩
  · rw [hread] at h
    cases h
  · rw [hread] at h hlooked
    cases h
    exact ⟨⟨⟨hlooked.files, rfl⟩, hlooked.unfailing .read⟩,
      Access.sectionFrom_eq_ok_iff.mp (Access.sectionFrom_of_getSection hread)⟩

theorem prepare_alone {change : Staged} (h : u.prepare scope name m s = (.ok change, s')) :
    ∃ target store, Access.checkWrite s.registry (some u.pending) scope name m s.store =
      (.ok target, store) ∧ change = .of scope target name m ∧ s' = { s with store := store } := by
  obtain ⟨overlay, s₁, hoverlay, h⟩ := bind_eq_ok h
  simp only [WorkUnit.overlay] at hoverlay
  rw [hu] at hoverlay
  cases hoverlay
  have hthrough : Access.checkWrite s.registry
      (if u.pending.isEmpty = true then none else some u.pending) =
        Access.checkWrite s.registry (some u.pending) := by
    split
    · rename_i hempty
      rw [StagedSet.eq_empty hempty, Access.checkWrite_empty]
    · rfl
  rw [get_bind] at h
  obtain ⟨target, s₂, hcheck, h⟩ := bind_eq_ok h
  rw [get_bind] at h
  obtain ⟨⟨⟩, s₃, hclaims, hpure⟩ := bind_eq_ok h
  cases hpure
  obtain ⟨-, rfl⟩ := Prod.mk.inj hclaims
  rw [Service.onStore_apply, hthrough] at hcheck
  obtain ⟨hanswer, rfl⟩ := Prod.mk.inj hcheck
  exact ⟨target, _, eq_of_answer hanswer, rfl, rfl⟩

/-- An accepted edit is merged into the unit's changes, bound to the last level that it sees. -/
theorem stage_sees (h : u.stage scope name m s = (.ok u', s')) :
    s.OnlyReads s' ∧
      ∃ chain target d, u.Sees s scope chain ∧ chain.getLast? = some (target, d) ∧
        u' = ⟨none, u.pending.stage (.of scope target name m)⟩ := by
  obtain ⟨change, s₁, hprepare, hpush⟩ := bind_eq_ok h
  obtain ⟨target, store, hcheck, rfl, rfl⟩ := prepare_alone hu hprepare
  have hkept : s.store.Unfailing .read →
      (Access.checkWrite s.registry (some u.pending) scope name m s.store).2.Unfailing .read :=
    Access.preserves_checkWrite Store.preserves_load _ _ _ _ _ s.store
  rw [hcheck] at hkept
  simp only [push] at hpush
  rw [hu] at hpush
  cases hpush
  obtain ⟨chain, d, hchain, hlast⟩ := Access.last_of_checkWrite hcheck
  exact ⟨⟨⟨(Access.keeps_checkWrite _ _ _ _ _).of_eq hcheck, rfl⟩, hkept⟩, chain, target, d, hchain,
    hlast, rfl⟩

/-- To revert is to stage that a section is no longer stored at the last level, if it is. -/
theorem revert_sees {reverted : Bool} (h : u.revert scope name s = (.ok (reverted, u'), s')) :
    s.OnlyReads s' ∧
      ∃ chain target d, u.Sees s scope chain ∧ chain.getLast? = some (target, d) ∧
        reverted = (d.section? name).isSome ∧
        u' = if reverted then ⟨none, u.pending.stage (.of scope target name .revert)⟩ else u := by
  obtain ⟨v, s₁, hget, hrest⟩ := bind_eq_ok h
  obtain ⟨hsame, definition, chain, -, hsees, rfl⟩ := getSection_sees hu hget
  obtain ⟨target, d, hlast⟩ := hsees.last
  have hlocal : (Access.view name definition.default scope (some u.pending) chain).isLocal =
      (d.section? name).isSome := by
    simp only [Access.view, Access.isStoredLast]
    rw [hlast]
    rfl
  rw [hlocal] at hrest
  split at hrest
  · rename_i hstored
    obtain ⟨u₁, s₂, hstage, hpure⟩ := bind_eq_ok hrest
    cases hpure
    obtain ⟨hsame', chain', target', d', hsees', hlast', rfl⟩ := stage_sees hu hstage
    obtain rfl := Except.ok.inj (((Sees.congr hsame.toSameFiles).1 hsees').symm.trans hsees)
    obtain ⟨rfl, rfl⟩ := Prod.mk.inj (Option.some.inj (hlast'.symm.trans hlast))
    exact ⟨hsame.trans hsame', chain', target', d', hsees, hlast, hstored.symm, rfl⟩
  · rename_i hnone
    cases hrest
    exact ⟨hsame, chain, target, d, hsees, hlast, (Bool.eq_false_iff.mpr hnone).symm, rfl⟩

theorem getSection_of_sees {definition : SectionDefinition} (h : u.Sees s scope chain)
    (hname : s.registry.get name = .ok definition) (hr : s.store.Unfailing .read) :
    u.getSection scope name s =
      (.ok (Access.view name definition.default scope (some u.pending) chain), s) := by
  have h : Access.levelsFrom (Access.look (some u.pending) s.store.root s.store.tree) scope =
      .ok chain := h
  rw [getSection_alone hu, Service.onStore_looking
    (Access.getSection_apply (some u.pending) s.registry scope name s.store hr)]
  simp only [Access.sectionFrom]
  rw [hname, h]
  rfl

end Alone

section Reverted

variable {target : LevelRef} {d : LevelDocument} (hset : u.pending.Distinct)
  (hsees : u.Sees s scope chain) (hlast : chain.getLast? = some (target, d))

include hset hsees hlast

theorem Sees.stage {after : Sites}
    (hafter : Access.sitesFrom (Access.look (some (u.pending.stage (.of scope target name m)))
      s.store.root s.store.tree) = .ok after) :
    (WorkUnit.mk none (u.pending.stage (.of scope target name m))).Sees s scope
      (chain.map (Access.changed (.of scope target name m))) :=
  Access.levelsFrom_stage hset hsees hlast rfl hafter

theorem Sees.revert (name : String) :
    (WorkUnit.mk none (u.pending.stage (.of scope target name .revert))).Sees s scope
      (chain.map (Access.changed (.of scope target name .revert))) := by
  obtain ⟨refs, hrefs, -⟩ := Access.levelsFrom_eq_ok hsees
  obtain ⟨sites, hsites, -⟩ := answer_of_bind hrefs
  obtain ⟨after, hafter⟩ := Access.sitesFrom_revert (e := .of scope target name .revert) rfl hsites
  exact hsees.stage hset hlast hafter

omit hset hsees in
theorem last_changed : (chain.map (Access.changed (.of scope target name m))).getLast? =
    some (target, m.apply name d) := by
  rw [List.getLast?_map, hlast]
  exact congrArg (fun d => some (target, d)) (if_pos rfl)

/-- What is shown after a section has been reverted. -/
theorem getSection_reverted (hst : s.SameFiles t) {definition : SectionDefinition}
    (hname : s.registry.get name = .ok definition) {v : SectionView} {t' : Service}
    (h : (WorkUnit.mk none (u.pending.stage (.of scope target name .revert))).getSection scope name
      t = (.ok v, t')) :
    v.isLocal = false ∧ Access.Inherited target.file name definition.default chain v := by
  obtain ⟨-, definition', chain', hname', hsees', rfl⟩ := getSection_sees rfl h
  rw [hst.registry, hname] at hname'
  obtain rfl := Except.ok.inj hname'
  have hrevert := hsees.revert hset hlast name
  obtain rfl := Except.ok.inj (((Sees.congr hst).1 hsees').symm.trans hrevert)
  obtain ⟨target', d', hlast'⟩ := hrevert.last
  refine Access.inherited_of_shown (e := .of scope target name .revert) rfl hlast rfl
    (Access.shown_view fun hnil => ?_)
  rw [hnil] at hlast'
  cases hlast'

/-- What has been reverted is not reverted again. -/
theorem revert_reverted (hst : s.SameFiles t) {again : Bool} {u'' : WorkUnit} {t' : Service}
    (h : (WorkUnit.mk none (u.pending.stage (.of scope target name .revert))).revert scope name
      t = (.ok (again, u''), t')) : again = false := by
  obtain ⟨-, chain', target', d', hsees', hlast', rfl, -⟩ := revert_sees rfl h
  obtain rfl := Except.ok.inj
    (((Sees.congr hst).1 hsees').symm.trans (hsees.revert hset hlast name))
  rw [last_changed hlast] at hlast'
  obtain ⟨rfl, rfl⟩ := Prod.mk.inj (Option.some.inj hlast')
  rw [Mutation.section?_revert]
  rfl

theorem looks_reverted (hst : s.SameFiles t) {definition : SectionDefinition}
    (hname : s.registry.get name = .ok definition) (hr : t.store.Unfailing .read) :
    let u' := WorkUnit.mk none (u.pending.stage (.of scope target name .revert))
    (∃ v, (u'.getSection scope name t).1 = .ok v) ∧
      (u'.revert scope name t).1 = .ok (false, u') := by
  intro u'
  have hread := getSection_of_sees rfl ((Sees.congr hst).2 (hsees.revert hset hlast name))
    (hst.registry ▸ hname) hr
  obtain ⟨hlocal, -⟩ := getSection_reverted hset hsees hlast hst hname hread
  refine ⟨⟨_, congrArg Prod.fst hread⟩, ?_⟩
  simp only [u', WorkUnit.revert]
  rw [bind_of_ok hread, hlocal]
  rfl

/-- A section that has been set is stored, and is reverted at the same level. -/
theorem revert_replaced (hst : s.SameFiles t) {v : Value} {reverted : Bool} {t' : Service}
    (h : (WorkUnit.mk none (u.pending.stage (.of scope target name (.replace v)))).revert scope name
      t = (.ok (reverted, u'), t')) :
    reverted = true ∧ u' = ⟨none, (u.pending.stage (.of scope target name (.replace v))).stage
      (.of scope target name .revert)⟩ := by
  obtain ⟨-, chain', target', d', hsees', hlast', hstored, rfl⟩ := revert_sees rfl h
  have hsees' := (Sees.congr hst).1 hsees'
  obtain ⟨refs, hrefs, -⟩ := Access.levelsFrom_eq_ok hsees'
  obtain ⟨after, hafter, -⟩ := answer_of_bind hrefs
  obtain rfl := Except.ok.inj (hsees'.symm.trans (hsees.stage hset hlast hafter))
  rw [last_changed hlast] at hlast'
  obtain ⟨rfl, rfl⟩ := Prod.mk.inj (Option.some.inj hlast')
  have hreverted : reverted = true := by
    rw [hstored, Mutation.section?_apply, if_pos rfl]
    rfl
  exact ⟨hreverted, if_pos hreverted⟩

theorem overlay_revert_replace (hnone : d.section? name = none) (v : Value) (file : String)
    (former : LevelDocument)
    (hformer : Store.documentIn s.store.root s.store.tree file = .ok former) :
    ((u.pending.stage (.of scope target name (.replace v))).stage
      (.of scope target name .revert)).overlay file former = u.pending.overlay file former := by
  have hkeyed : former.Keyed := (Store.documentIn_stays hformer).1.toWellFormed.keyed
  have hreplace := StagedSet.overlay_stage hset hkeyed (.of scope target name (.replace v)) file
  have hrevert := StagedSet.overlay_stage (hset.stage (.of scope target name (.replace v))) hkeyed
    (.of scope target name .revert) file
  by_cases hfile : target.file = file
  · obtain ⟨refs, -, hchain⟩ := Access.levelsFrom_eq_ok hsees
    have hd : Access.look (some u.pending) s.store.root s.store.tree target.file = .ok d :=
      (Access.mapM_withDocument_eq_ok hchain).2 (target, d) (List.mem_of_getLast? hlast)
    rw [hfile] at hd
    obtain ⟨former', hformer', hthrough⟩ := Access.look_eq_ok hd
    obtain rfl := Except.ok.inj (hformer'.symm.trans hformer)
    rw [hrevert.trans (if_pos hfile), hreplace.trans (if_pos hfile), hthrough]
    refine Mutation.revert_replace v ?_ hnone
    rw [← hthrough]
    exact Staged.keyed_overlayAll _ hkeyed
  · rw [hrevert.trans (if_neg hfile), hreplace.trans (if_neg hfile)]

end Reverted

/-- Units whose changes do the same to all documents show everything alike. -/
theorem showsAlike_of_overlay (hu : u.transaction = none) (hu' : u'.transaction = none)
    (h : ∀ file d, Store.documentIn s.store.root s.store.tree file = .ok d →
      u'.pending.overlay file d = u.pending.overlay file d) (hst : s.SameFiles t) :
    u.ShowsAlike t u' t := by
  intro scope name
  rw [getSection_alone hu, getSection_alone hu', Service.onStore_apply, Service.onStore_apply]
  exact Access.getSection_alike h t.registry scope name hst.files

theorem getSection_sameFiles (hu : u.transaction = none) (hst : s.SameFiles t)
    (hs : s.store.Unfailing .read) (ht : t.store.Unfailing .read) (scope : Scope) (name : String) :
    (u.getSection scope name t).1 = (u.getSection scope name s).1 := by
  obtain ⟨hroot, htree⟩ := Store.files_eq _ _ hst.files
  rw [getSection_answer scope name hs, getSection_answer scope name ht,
    overlay_congr fun id hid => (by cases hu.symm.trans hid), hst.registry, hroot, htree]

end WorkUnit

open WorkUnit

/-- What reverting a registered section does in a unit by itself, which has one change at most for
each section of a file, as staging leaves it. It answers `false` and does nothing where the section
is not stored at the last level of the scope. Where it answers `true`, the section is inherited from
then on, from a level with another file, and is not reverted again. To set a section that is not
stored and to revert it leaves everything as the unit saw it, but for what is marked as changed. -/
theorem revert_uncovers_inherited (u : WorkUnit) (s : Service) (scope : Scope) (name : String)
    (definition : SectionDefinition) (hu : u.transaction = none) (hset : u.pending.Distinct)
    (hname : s.registry.get name = .ok definition) :
    (∀ u' s', u.revert scope name s = (.ok (false, u'), s') →
      u' = u ∧ s'.store.files = s.store.files ∧
        ∃ chain target d, u.Sees s scope chain ∧ chain.getLast? = some (target, d) ∧
          d.section? name = none) ∧
    (∀ u' s', u.revert scope name s = (.ok (true, u'), s') →
      s.SameFiles s' ∧ ∃ chain target d, u.Sees s scope chain ∧
        chain.getLast? = some (target, d) ∧ (d.section? name).isSome ∧
        ∀ t, s.SameFiles t →
          (∀ v, (u'.getSection scope name t).1 = .ok v →
            v.isLocal = false ∧ Access.Inherited target.file name definition.default chain v) ∧
          (∀ again u'', (u'.revert scope name t).1 = .ok (again, u'') → again = false) ∧
          (t.store.Unfailing .read → (∃ v, (u'.getSection scope name t).1 = .ok v) ∧
            (u'.revert scope name t).1 = .ok (false, u'))) ∧
    ∀ v u₁ s₁ reverted u₂ s₂,
      (∀ chain target d, u.Sees s scope chain → chain.getLast? = some (target, d) →
        d.section? name = none) →
      u.stage scope name (.replace v) s = (.ok u₁, s₁) →
      u₁.revert scope name s₁ = (.ok (reverted, u₂), s₂) →
        reverted = true ∧ s.SameFiles s₂ ∧ (∀ t, s.SameFiles t → u.ShowsAlike t u₂ t) ∧
          (s.store.Unfailing .read → u.ShowsAlike s u₂ s₂) := by
  refine ⟨fun u' s' h => ?_, fun u' s' h => ?_,
    fun v u₁ s₁ reverted u₂ s₂ hnone hstage hrevert => ?_⟩
  · obtain ⟨hsame, chain, target, d, hsees, hlast, hstored, rfl⟩ := revert_sees hu h
    exact ⟨rfl, hsame.files, chain, target, d, hsees, hlast, by simpa using hstored⟩
  · obtain ⟨hsame, chain, target, d, hsees, hlast, hstored, rfl⟩ := revert_sees hu h
    refine ⟨hsame.toSameFiles, chain, target, d, hsees, hlast, hstored.symm, fun t hst => ⟨?_, ?_,
      looks_reverted hset hsees hlast hst hname⟩⟩
    · intro v hv
      exact getSection_reverted hset hsees hlast hst hname (eq_of_answer hv)
    · intro again u'' hagain
      exact revert_reverted hset hsees hlast hst (eq_of_answer hagain)
  · obtain ⟨hsame, chain, target, d, hsees, hlast, rfl⟩ := stage_sees hu hstage
    obtain ⟨hsame', -⟩ := revert_sees rfl hrevert
    have hst := hsame.trans hsame'
    obtain ⟨rfl, rfl⟩ := revert_replaced hset hsees hlast hsame.toSameFiles hrevert
    -- nothing was stored before, so both edits together leave every document as it was
    have hdocuments := overlay_revert_replace hset hsees hlast (hnone chain target d hsees hlast) v
    refine ⟨rfl, hst.toSameFiles, fun t => showsAlike_of_overlay hu rfl hdocuments,
      fun hr scope' name' => ?_⟩
    rw [showsAlike_of_overlay hu rfl hdocuments hst.toSameFiles scope' name',
      getSection_sameFiles hu hst.toSameFiles hr (hst.unfailing hr) scope' name']

def listedSite : StagedSet :=
  oneSite.stage ⟨.global, "host", "host.toml", "directory_browse", .replace (.obj [])⟩

theorem revert_uncovers_inherited_listings :
    let s := Service.new bareDisk .builtin 900 0
    let shop := Scope.site 1 "/"
    let own := Staged.of shop ⟨"shop", "shop/web.toml"⟩ "directory_browse"
    let set := .replace (.obj [("enabled", .bool true)])
    let u : WorkUnit := ⟨none, listedSite⟩
    let u₁ : WorkUnit := ⟨none, listedSite.stage (own set)⟩
    let u₂ : WorkUnit := ⟨none, listedSite.stage (own .revert)⟩
    (u.revert shop "directory_browse" s).1 = .ok (false, u) ∧
      ∃ s₁ s₂, u.stage shop "directory_browse" set s = (.ok u₁, s₁) ∧
        u₁.revert shop "directory_browse" s₁ = (.ok (true, u₂), s₂) ∧ u.ShowsAlike s u₂ s₂ ∧
        (∃ v, (u₂.getSection shop "directory_browse" s₂).1 = .ok v ∧ v.isLocal = false) ∧
        (u₂.revert shop "directory_browse" s₂).1 = .ok (false, u₂) := by
  intro s shop own set u u₁ u₂
  have hidle : (u.revert shop "directory_browse" s).1 = .ok (false, u) := by decide +kernel
  have hstage : (u.stage shop "directory_browse" set s).1 = .ok u₁ := by decide +kernel
  have hrevert : (u₁.revert shop "directory_browse"
      (u.stage shop "directory_browse" set s).2).1 = .ok (true, u₂) := by decide +kernel
  have hnow : (u₁.revert shop "directory_browse" s).1 = .ok (true, u₂) := by decide +kernel
  obtain ⟨hfalse, -, hround⟩ := revert_uncovers_inherited u s shop "directory_browse" _ rfl
    (by decide) rfl
  obtain ⟨-, -, chain, target, d, hsees, hlast, hnone⟩ := hfalse u _ (eq_of_answer hidle)
  have hunstored : ∀ chain target d, u.Sees s shop chain → chain.getLast? = some (target, d) →
      d.section? "directory_browse" = none := by
    intro chain' target' d' hsees' hlast'
    obtain rfl := Except.ok.inj (hsees'.symm.trans hsees)
    obtain ⟨-, rfl⟩ := Prod.mk.inj (Option.some.inj (hlast'.symm.trans hlast))
    exact hnone
  obtain ⟨-, hsame, -, halike⟩ := hround _ u₁ _ true u₂ _ hunstored (eq_of_answer hstage)
    (eq_of_answer hrevert)
  obtain ⟨-, htrue, -⟩ := revert_uncovers_inherited u₁ s shop "directory_browse" _ rfl (by decide)
    rfl
  obtain ⟨-, chain', target', d', -, -, -, hthen⟩ := htrue u₂ _ (eq_of_answer hnow)
  obtain ⟨hshown, -, hreads⟩ := hthen _ hsame
  obtain ⟨⟨v, hv⟩, hagain⟩ := hreads (by decide +kernel)
  exact ⟨hidle, _, _, eq_of_answer hstage, eq_of_answer hrevert, halike (by decide),
    ⟨v, hv, (hshown v hv).1⟩, hagain⟩

end LayeredConfig
