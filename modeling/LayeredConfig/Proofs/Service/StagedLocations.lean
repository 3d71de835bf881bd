import LayeredConfig.Proofs.Document.Merging
import LayeredConfig.Proofs.Scope.Lookup
import LayeredConfig.Proofs.Service.Acceptance
import LayeredConfig.Proofs.Service.UnitSteps

/-!
# Where staged entries say they are

A change is accepted for the last level of its scope, as the unit sees the files. The entry that it
is merged into belongs to the file of that level and takes over the scope, but it keeps the location
of the change that was staged first. The same file may be the last level of other scopes under
another location, and errors that are raised for an entry name the location that it keeps.
-/

set_option autoImplicit false

namespace LayeredConfig

open Run

namespace Access

def lastLevel? (found : Look) (scope : Scope) : Option LevelRef :=
  match chainFrom found scope with
  | .ok refs => refs.getLast?
  | .error _ => none

variable {scope : Scope} {name : String} {m : Mutation} {target : LevelRef}

theorem lastLevel?_of_levelsFrom {found : Look} {chain : List (LevelRef × LevelDocument)}
    (h : levelsFrom found scope = .ok chain) :
    lastLevel? found scope = chain.getLast?.map (·.1) := by
  obtain ⟨refs, hrefs, hload⟩ := levelsFrom_eq_ok h
  obtain ⟨rfl, -⟩ := mapM_withDocument_eq_ok hload
  rw [lastLevel?, hrefs, ← List.getLast?_map]

theorem lastLevel?_of_checkWrite {registry : Registry} {overlay : Option StagedSet} {s s' : Store}
    (h : checkWrite registry overlay scope name m s = (.ok target, s')) :
    lastLevel? (look overlay s.root s.tree) scope = some target := by
  obtain ⟨chain, d, hchain, hlast⟩ := last_of_checkWrite h
  rw [lastLevel?_of_levelsFrom hchain, hlast]
  rfl

end Access

namespace Staged

inductive Raises (e : Staged) (why : ConfigError) : Prop
  | claimed {claims : Claims} {owner : Option String} :
      claims.check e owner = .error why → e.Raises why
  | unleased {p p' : Progress} :
      Journal.lease e.sectionPath e.file p = (.error why, p') → e.Raises why

/-- A lock or a conflict that is raised for an entry names the path of the entry, and such errors
can come up. -/
theorem raises_locked_iff {e : Staged} {path : String} :
    (∃ reason, e.Raises (.locked path reason)) ↔ path = e.sectionPath := by
  constructor
  · rintro ⟨reason, h⟩
    cases h with
    | claimed h =>
      simp only [Claims.check] at h
      split at h
      · cases h
      · split at h
        · cases h
        · cases h
          rfl
    | @unleased p p' h =>
      simp only [Journal.lease] at h
      rw [get_bind] at h
      rcases hheld : p.journal.find? (·.lease.file == e.file) with _ | entry
      · rw [hheld] at h
        rcases bind_eq_error h with h | ⟨entry, p₁, -, h⟩
        · rw [Journal.onStore_apply, Access.onSection_apply] at h
          rcases htaken : Journal.takeLease e.file p.store with ⟨why | entry, store⟩
          · rw [htaken] at h
            cases why <;> cases h
            rfl
          · rw [htaken] at h
            cases h
        · cases h
      · rw [hheld] at h
        cases h
  · rintro rfl
    have hclaimed : Claims.check ⟨[⟨e.file, e.name, ""⟩]⟩ e none =
        .error (.locked e.sectionPath (.staged "")) := by
      simp [Claims.check, Claims.holder?]
    exact ⟨_, .claimed hclaimed⟩

theorem sectionPath_eq_iff {e : Staged} {location : String} :
    s!"{location}/{e.name}" = e.sectionPath ↔ e.location = location := by
  simp only [sectionPath, String.append_left_inj]
  exact eq_comm

end Staged

namespace StagedSet

variable {set : StagedSet} {later : Staged} {file name : String}

/-- The entry for the key of a change has its scope, and the location of the entry that was there
before. Other entries stay. -/
theorem get?_stage : (set.stage later).get? file name =
    if later.hasKey file name then some (((set.get? file name).map (·.absorb later)).getD later)
    else set.get? file name := by
  obtain ⟨entries⟩ := set
  simp only [stage, get?]
  induction entries with
  | nil =>
    simp only [stageIn]
    by_cases hkey : later.hasKey file name = true
    · simp [hkey]
    · simp [hkey]
  | cons e rest ih =>
    simp only [stageIn]
    by_cases hsame : e.hasKey later.file later.name = true
    · -- the change is merged here, where it has the key of the entry
      rw [if_pos hsame]
      have hlater : later.hasKey file name = e.hasKey file name := by
        rw [Bool.eq_iff_iff, Staged.hasKey_iff, Staged.hasKey_iff, Staged.hasKey_iff.mp hsame]
        rfl
      have habsorb : (e.absorb later).hasKey file name = e.hasKey file name := rfl
      rw [hlater]
      by_cases hkey : e.hasKey file name = true
      · simp [habsorb, hkey]
      · simp [habsorb, hkey]
    · rw [if_neg hsame]
      by_cases hkey : e.hasKey file name = true
      · have hlater : later.hasKey file name = false := by
          rw [Bool.eq_false_iff]
          intro hlater
          obtain ⟨rfl, rfl⟩ := Prod.mk.inj (Staged.hasKey_iff.mp hlater)
          exact hsame hkey
        simp [hkey, hlater]
      · simpa [hkey] using ih

theorem key_of_get? {e : Staged} (h : set.get? file name = some e) : e.key = (file, name) :=
  Staged.hasKey_iff.mp (by simpa using List.find?_some h)

theorem get?_stage_self (set : StagedSet) (later : Staged) :
    ∃ e, (set.stage later).get? later.file later.name = some e ∧ e.scope = later.scope := by
  rw [get?_stage, if_pos (Staged.hasKey_iff.mpr rfl)]
  rcases set.get? later.file later.name with _ | e
  · exact ⟨later, rfl, rfl⟩
  · exact ⟨e.absorb later, rfl, rfl⟩

end StagedSet

namespace WorkUnit

structure SameSight (u : WorkUnit) (s s' : Service) : Prop where
  files : s'.store.files = s.store.files
  staged : u.staged? s' = u.staged? s

variable {u u' : WorkUnit} {s s' : Service} {set : StagedSet} {scope : Scope} {name : String}
  {m : Mutation}

theorem observed_sameSight (u : WorkUnit) (s : Service) : u.Observed (u.SameSight s) where
  snapshot id hu := by
    refine Service.preserves_pending id _ fun t r h hf hp => ⟨h.files, ?_⟩
    refine Eq.trans ?_ h.staged
    have hput : (r.put { t with lastActivity := r.now }).find? id =
        some { t with lastActivity := r.now } := Service.find?_put hf rfl
    exact (staged?_of_pending hu hput hp).trans (staged?_of_pending hu hf hp).symm
  looked r store h hr := ⟨h.files.trans hr.files, hr.staged⟩

theorem sameSight_of_preserves {α : Type} {x : ServiceM α} {r : Except ConfigError α}
    (hx : Preserves (u.SameSight s) x) (h : x s = (r, s')) : u.SameSight s s' := by
  have hsame := hx s ⟨rfl, rfl⟩
  rwa [h] at hsame

abbrev seen (set : StagedSet) (s : Service) : Access.Look :=
  Access.look (some set) s.store.root s.store.tree

theorem SameSight.seen_eq (h : u.SameSight s s') : seen set s' = seen set s := by
  obtain ⟨hroot, htree⟩ := Store.files_eq _ _ h.files
  rw [seen, hroot, htree]

theorem target_of_prepare {change : Staged} (hset : u.staged? s = some set)
    (h : u.prepare scope name m s = (.ok change, s')) :
    ∃ target, Access.lastLevel? (seen set s) scope = some target ∧
      change = .of scope target name m := by
  obtain ⟨overlay, s₁, hover, hrest⟩ := bind_eq_ok h
  obtain ⟨hsame, hlook⟩ := overlay_eq_ok hset hover
  rw [get_bind] at hrest
  obtain ⟨target, s₂, hcheck, hrest⟩ := bind_eq_ok hrest
  rw [get_bind] at hrest
  obtain ⟨⟨⟩, s₃, -, hpure⟩ := bind_eq_ok hrest
  cases hpure
  rw [Service.onStore_apply] at hcheck
  have hlast := Access.lastLevel?_of_checkWrite (eq_of_answer (Prod.mk.inj hcheck).1)
  rw [hlook, hsame.store] at hlast
  exact ⟨target, hlast, rfl⟩

def Takes (scope : Scope) (name : String) (s : Service) (set : StagedSet) (u' : WorkUnit)
    (s' : Service) : Prop :=
  ∃ target m, Access.lastLevel? (seen set s) scope = some target ∧
    u'.staged? s' = some (set.stage (.of scope target name m))

theorem Takes.of_sameSight {s₁ : Service} (h : u.SameSight s s₁)
    (h' : Takes scope name s₁ set u' s') : Takes scope name s set u' s' := by
  obtain ⟨target, m, hlast, hfound⟩ := h'
  exact ⟨target, m, h.seen_eq ▸ hlast, hfound⟩

theorem takes_of_stage (hset : u.staged? s = some set) (h : u.stage scope name m s = (.ok u', s')) :
    Takes scope name s set u' s' := by
  obtain ⟨change, s₁, hprepare, hpush⟩ := bind_eq_ok h
  obtain ⟨target, hlast, rfl⟩ := target_of_prepare hset hprepare
  have hsame := sameSight_of_preserves ((observed_sameSight u s).prepare scope name m) hprepare
  obtain ⟨-, -, -, hfound⟩ := push_eq_ok (hsame.staged.trans hset) hpush
  exact ⟨target, m, hlast, hfound⟩

theorem takes_of_revert {reverted : Bool} (hset : u.staged? s = some set)
    (h : u.revert scope name s = (.ok (reverted, u'), s')) :
    if reverted then Takes scope name s set u' s' else u'.staged? s' = some set := by
  obtain ⟨current, s₁, hget, hrest⟩ := bind_eq_ok h
  have hsame := sameSight_of_preserves ((observed_sameSight u s).getSection scope name) hget
  split at hrest
  · obtain ⟨u₁, s₂, hstage, hpure⟩ := bind_eq_ok hrest
    cases hpure
    exact (takes_of_stage (hsame.staged.trans hset) hstage).of_sameSight hsame
  · cases hrest
    exact hsame.staged.trans hset

/-- The sites are stored at the global level after both kinds of edits. -/
theorem takes_of_editSites (edit : Sites → Except ConfigError (Site × Sites)) {site : Site}
    (hset : u.staged? s = some set)
    (h : (do
      let sites ← u.sites
      let (site, sites) ← Service.ofExcept (edit sites)
      pure (site, ← u.putSites sites) : ServiceM (Site × WorkUnit)) s = (.ok (site, u'), s')) :
    Takes .global Registry.sitesSection s set u' s' := by
  obtain ⟨before, s₁, hsites, hrest⟩ := bind_eq_ok h
  have hsame := sameSight_of_preserves (observed_sameSight u s).sites hsites
  obtain ⟨⟨edited, after⟩, s₂, hedit, hrest⟩ := bind_eq_ok hrest
  obtain ⟨-, rfl⟩ := Prod.mk.inj hedit
  obtain ⟨u₁, s₃, hstage, hpure⟩ := bind_eq_ok hrest
  cases hpure
  exact (takes_of_stage (hsame.staged.trans hset) hstage).of_sameSight hsame

theorem takes_of_createSite {new : NewSite} {site : Site} (hset : u.staged? s = some set)
    (h : u.createSite new s = (.ok (site, u'), s')) :
    Takes .global Registry.sitesSection s set u' s' := by
  obtain ⟨before, s₁, hsites, hrest⟩ := bind_eq_ok h
  have hsame := sameSight_of_preserves (observed_sameSight u s).sites hsites
  obtain ⟨after, s₂, hadd, hrest⟩ := bind_eq_ok hrest
  obtain ⟨-, rfl⟩ := Prod.mk.inj hadd
  obtain ⟨change, s₃, hprepare, hrest⟩ := bind_eq_ok hrest
  obtain ⟨target, hlast, rfl⟩ := target_of_prepare (hsame.staged.trans hset) hprepare
  have hsame' := sameSight_of_preserves ((observed_sameSight u s₁).prepare _ _ _) hprepare
  obtain ⟨⟨⟩, s₄, hdirs, hrest⟩ := bind_eq_ok hrest
  obtain ⟨store, hmade, -⟩ := createDirs_grows (_ :: _) s₃
  rw [hdirs] at hmade
  obtain rfl : s₄ = { s₃ with store := store } := hmade
  obtain ⟨u₁, s₅, hpush, hpure⟩ := bind_eq_ok hrest
  cases hpure
  have hstill : u.staged? { s₃ with store := store } = some set :=
    hsame'.staged.trans (hsame.staged.trans hset)
  obtain ⟨-, -, -, hfound⟩ := push_eq_ok hstill hpush
  exact Takes.of_sameSight hsame ⟨target, _, hlast, hfound⟩

end WorkUnit

structure Change where
  scope : Scope
  name : String
  target : LevelRef
  deriving DecidableEq

def Change.hasKey (c : Change) (file name : String) : Bool :=
  c.target.file == file && c.name == name

namespace UnitCall

open WorkUnit

variable {call : UnitCall} {answer : UnitAnswer} {u u' : WorkUnit} {s s' : Service}
  {set : StagedSet} {scope : Scope} {name : String}

theorem run_stage {m : Mutation} (h : u.stage scope name m s = (.ok u', s')) :
    (UnitCall.stage scope name m).run u s = (.ok (.done, u'), s') := by
  simp only [run]
  rw [bind_apply, h]
  rfl

def changed? : UnitCall → UnitAnswer → Option (Scope × String)
  | .stage scope name _, _ => some (scope, name)
  | .revert scope name, .reverted true => some (scope, name)
  | .createSite _, _ => some (.global, Registry.sitesSection)
  | .updateSite _ _, _ => some (.global, Registry.sitesSection)
  | .deleteSite _, _ => some (.global, Registry.sitesSection)
  | _, _ => none

theorem takes_of_run (hcall : call.isCommit = false) (hset : u.staged? s = some set)
    (h : call.run u s = (.ok (answer, u'), s')) :
    match call.changed? answer with
    | some (scope, name) => Takes scope name s set u' s'
    | none => u'.staged? s' = some set := by
  cases call with
  | getSection scope name =>
    obtain ⟨v, s₁, hget, hpure⟩ := bind_eq_ok h
    cases hpure
    have hsame := sameSight_of_preserves ((observed_sameSight u s).getSection scope name) hget
    exact hsame.staged.trans hset
  | sites =>
    obtain ⟨v, s₁, hsites, hpure⟩ := bind_eq_ok h
    cases hpure
    exact (sameSight_of_preserves (observed_sameSight u s).sites hsites).staged.trans hset
  | getSite id =>
    obtain ⟨v, s₁, hsite, hpure⟩ := bind_eq_ok h
    cases hpure
    exact (sameSight_of_preserves ((observed_sameSight u s).getSite id) hsite).staged.trans hset
  | stage scope name m =>
    obtain ⟨v, s₁, hstage, hpure⟩ := bind_eq_ok h
    cases hpure
    exact takes_of_stage hset hstage
  | revert scope name =>
    obtain ⟨⟨reverted, v⟩, s₁, hrevert, hpure⟩ := bind_eq_ok h
    cases hpure
    have htakes := takes_of_revert hset hrevert
    cases reverted with
    | false => exact htakes
    | true => exact htakes
  | commit => cases hcall
  | createSite new =>
    obtain ⟨⟨site, v⟩, s₁, hcreate, hpure⟩ := bind_eq_ok h
    cases hpure
    exact takes_of_createSite hset hcreate
  | updateSite id update =>
    obtain ⟨⟨site, v⟩, s₁, hedit, hpure⟩ := bind_eq_ok h
    cases hpure
    exact takes_of_editSites (·.update id update) hset hedit
  | deleteSite id =>
    obtain ⟨⟨site, v⟩, s₁, hedit, hpure⟩ := bind_eq_ok h
    cases hpure
    exact takes_of_editSites (·.remove id) hset hedit

def change? (call : UnitCall) (answer : UnitAnswer) (found : Access.Look) : Option Change := do
  let (scope, name) ← call.changed? answer
  let target ← Access.lastLevel? found scope
  pure ⟨scope, name, target⟩

theorem staged?_of_change? (hcall : call.isCommit = false) (hset : u.staged? s = some set)
    (h : call.run u s = (.ok (answer, u'), s')) :
    call.change? answer (seen set s) = none ∧ u'.staged? s' = some set ∨
      ∃ c m, call.change? answer (seen set s) = some c ∧
        u'.staged? s' = some (set.stage (.of c.scope c.target c.name m)) := by
  have htakes := takes_of_run hcall hset h
  simp only [change?]
  rcases hchanged : call.changed? answer with _ | ⟨scope, name⟩
  · rw [hchanged] at htakes
    exact .inl ⟨rfl, htakes⟩
  · rw [hchanged] at htakes
    obtain ⟨target, m, hlast, hfound⟩ := htakes
    refine .inr ⟨⟨scope, name, target⟩, m, ?_, hfound⟩
    simp [hlast]

end UnitCall

/-- A staged set with the changes that it comes of. They were made one after another through calls
of units, each of which had the set of the changes before it, be it as its own or as that of its
transaction; anything else may have happened to the service in between. -/
inductive StagedSet.ComesOf : List Change → StagedSet → Prop
  | empty : ComesOf [] .empty
  | call {history : List Change} {set set' : StagedSet} {u u' : WorkUnit} {s s' : Service}
      {call : UnitCall} {answer : UnitAnswer} {change : Option Change} :
      ComesOf history set → u.staged? s = some set → call.isCommit = false →
        call.run u s = (.ok (answer, u'), s') →
        call.change? answer (WorkUnit.seen set s) = change → u'.staged? s' = some set' →
        ComesOf (history ++ change.toList) set'

theorem StagedSet.ComesOf.location {history : List Change} {set : StagedSet}
    (h : set.ComesOf history) (file name : String) :
    (set.get? file name).map (·.location) =
      (history.find? (·.hasKey file name)).map (·.target.location) := by
  induction h with
  | empty => rfl
  | @call history set set' u u' s s' call answer change _ hset hcall hrun hchange hfound ih =>
    rcases UnitCall.staged?_of_change? hcall hset hrun with ⟨hnone, hsame⟩ | ⟨c, m, hsome, htaken⟩
    · obtain rfl := Option.some.inj (hfound.symm.trans hsame)
      obtain rfl := hchange.symm.trans hnone
      simpa using ih
    · obtain rfl := Option.some.inj (hfound.symm.trans htaken)
      obtain rfl := hchange.symm.trans hsome
      have hkey : (Staged.of c.scope c.target c.name m).hasKey file name = c.hasKey file name := rfl
      rw [StagedSet.get?_stage, hkey]
      rcases hc : c.hasKey file name with _ | _
      · simpa [hc] using ih
      · rcases hbefore : set.get? file name with _ | e
        · rw [hbefore] at ih
          have hfirst : history.find? (·.hasKey file name) = none := by simpa using ih.symm
          simp [hc, hfirst, Staged.of]
        · rw [hbefore] at ih
          obtain ⟨first, hfirst, hlocation⟩ := Option.map_eq_some_iff.mp ih.symm
          simp [hfirst, hlocation, Staged.absorb]

/-- Right after an accepted change the entry for its key has the scope of the change, and the file
of the last level of that scope as the unit saw the files. It has the location of this level just
when the first change that was staged for the key was for a level of the same location; and just
then a lock or a conflict that is raised for the entry names the place that it is for. -/
theorem staged_location_iff (history : List Change) (set : StagedSet) (u u' : WorkUnit)
    (s s' : Service) (call : UnitCall) (answer : UnitAnswer) (scope : Scope) (name : String)
    (hset : set.ComesOf history) (hstaged : u.staged? s = some set)
    (hrun : call.run u s = (.ok (answer, u'), s'))
    (hchanged : call.changed? answer = some (scope, name)) :
    ∃ set' target e, u'.staged? s' = some set' ∧
      Access.lastLevel? (WorkUnit.seen set s) scope = some target ∧
      set'.get? target.file name = some e ∧
      e.scope = scope ∧ e.file = target.file ∧ e.name = name ∧
      (e.location = target.location ↔ ∀ first,
        history.find? (·.hasKey target.file name) = some first →
          first.target.location = target.location) ∧
      ((∀ path reason, e.Raises (.locked path reason) → path = s!"{target.location}/{name}") ↔
        e.location = target.location) := by
  have hcall : call.isCommit = false := by
    cases call with
    | commit => cases hchanged
    | _ => rfl
  have htakes := UnitCall.takes_of_run hcall hstaged hrun
  rw [hchanged] at htakes
  obtain ⟨target, m, hlast, hfound⟩ := htakes
  have hchange : call.change? answer (WorkUnit.seen set s) = some ⟨scope, name, target⟩ := by
    simp [UnitCall.change?, hchanged, hlast]
  -- the changed set comes of one more change, so its entry has the location of the first one too
  have hnext : (set.stage (.of scope target name m)).ComesOf (history ++ [⟨scope, name, target⟩]) :=
    .call hset hstaged hcall hrun hchange hfound
  obtain ⟨e, hget, hscope⟩ := set.get?_stage_self (.of scope target name m)
  have hget : (set.stage (.of scope target name m)).get? target.file name = some e := hget
  obtain ⟨hfile, hname⟩ := Prod.mk.inj (StagedSet.key_of_get? hget)
  have hlocation := hnext.location target.file name
  rw [hget, List.find?_append] at hlocation
  refine ⟨_, target, e, hfound, hlast, hget, hscope, hfile, hname, ?_, ?_⟩
  · rcases hfirst : history.find? (·.hasKey target.file name) with _ | first
    · rw [hfirst] at hlocation
      have hsame : e.location = target.location := by
        simpa [Change.hasKey] using hlocation
      simp [hfirst, hsame]
    · rw [hfirst] at hlocation
      have hsame : e.location = first.target.location := by simpa using hlocation
      simp [hfirst, hsame]
  · rw [← Staged.sectionPath_eq_iff, hname]
    constructor
    · intro hnamed
      obtain ⟨reason, hraised⟩ := Staged.raises_locked_iff.mpr rfl
      exact (hnamed _ reason hraised).symm
    · intro hpath path reason hraised
      rw [Staged.raises_locked_iff.mp ⟨reason, hraised⟩, hpath]

def plainDisk : Store :=
  ⟨["srv"], ((FileTree.empty.set ["srv"] .directory).set ["srv", "shop"] .directory).set
    ["srv", "host.toml"] (.file (.text
      "[[sections.sites.entries]]\nid = 1\nname = \"shop\"\nphysical_path = \"shop\"\n")), []⟩

def openedShop : StagedSet :=
  ⟨[⟨.site 1 "/", "shop", "shop/web.toml", "directory_browse", .setMode .allow⟩]⟩

def listedShop : StagedSet :=
  ⟨[⟨.site 1 "/orders", "shop", "shop/web.toml", "directory_browse",
    ⟨some (.replace (.obj [("enabled", .bool false)])), some .allow⟩⟩]⟩

theorem staged_location_orders :
    let s := Service.new plainDisk .builtin 900 0
    let opening := WorkUnit.stage (.new none) (.site 1 "/") "directory_browse" (.setMode .allow) s
    let listing := WorkUnit.stage ⟨none, openedShop⟩ (.site 1 "/orders") "directory_browse"
      (.replace (.obj [("enabled", .bool false)])) s
    (opening.1 = .ok ⟨none, openedShop⟩ ∧ opening.2 = s) ∧
      (listing.1 = .ok ⟨none, listedShop⟩ ∧ listing.2 = s) ∧
      ∃ e, listedShop.get? "shop/web.toml" "directory_browse" = some e ∧
        e.scope = .site 1 "/orders" ∧ e.location = "shop" ∧
        ∀ path reason, e.Raises (.locked path reason) → path = "shop/directory_browse" := by
  intro s opening listing
  have hopening : opening.1 = .ok ⟨none, openedShop⟩ ∧ opening.2 = s := by decide +kernel
  have hlisting : listing.1 = .ok ⟨none, listedShop⟩ ∧ listing.2 = s := by decide +kernel
  have hchange : (UnitCall.stage (.site 1 "/") "directory_browse" (.setMode .allow)).change? .done
      (WorkUnit.seen .empty s) =
        some ⟨.site 1 "/", "directory_browse", ⟨"shop", "shop/web.toml"⟩⟩ := by decide +kernel
  have hset : openedShop.ComesOf [⟨.site 1 "/", "directory_browse", ⟨"shop", "shop/web.toml"⟩⟩] :=
    .call .empty rfl rfl (UnitCall.run_stage (Prod.ext hopening.1 hopening.2)) hchange rfl
  obtain ⟨set', target, e, hfound, hlast, hget, hscope, -, -, hlocation, hraised⟩ :=
    staged_location_iff _ openedShop ⟨none, openedShop⟩ ⟨none, listedShop⟩ s s _ _ _ _ hset rfl
      (UnitCall.run_stage (Prod.ext hlisting.1 hlisting.2)) rfl
  obtain rfl : listedShop = set' := Option.some.inj hfound
  have hshop : Access.lastLevel? (WorkUnit.seen openedShop s) (.site 1 "/orders") =
      some ⟨"shop", "shop/web.toml"⟩ := by decide +kernel
  obtain rfl := Option.some.inj (hlast.symm.trans hshop)
  have hsame : e.location = "shop" := hlocation.mpr (by decide +kernel)
  exact ⟨hopening, hlisting, e, hget, hscope, hsame, hraised.mpr hsame⟩

def heldDisk : Store :=
  { plainDisk with
    tree := plainDisk.tree.set ["srv", "shop", "web.toml.lock"] (.file (.text "")) }

def closedShop : StagedSet :=
  ⟨[⟨.file "shop/web.toml", "shop", "shop/web.toml", "directory_browse", .setMode .deny⟩]⟩

theorem staged_location_left_behind :
    let s := Service.new heldDisk .builtin 900 0
    let opening := WorkUnit.stage (.new none) (.site 1 "/") "directory_browse" (.setMode .allow) s
    let closing := WorkUnit.stage ⟨none, openedShop⟩ (.file "shop/web.toml") "directory_browse"
      (.setMode .deny) s
    opening.1 = .ok ⟨none, openedShop⟩ ∧ opening.2 = s ∧
      closing.1 = .ok ⟨none, closedShop⟩ ∧ closing.2 = s ∧
      (closedShop.get? "shop/web.toml" "directory_browse").map (fun e => (e.scope, e.location)) =
        some (.file "shop/web.toml", "shop") ∧
      Access.lastLevel? (WorkUnit.seen openedShop s) (.file "shop/web.toml") =
        some ⟨"shop/web.toml", "shop/web.toml"⟩ ∧
      (WorkUnit.conclude ⟨none, closedShop⟩ s).1 =
        .error (.locked "shop/directory_browse" (.fileInUse "shop/web.toml")) := by
  decide +kernel

end LayeredConfig
