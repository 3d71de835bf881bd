import LayeredConfig.Proofs.Commit.Atomicity
import LayeredConfig.Proofs.Service.ClaimsMirror
import LayeredConfig.Proofs.Store.Growth

/-!
# What an accepted edit does

An edit is checked against the files as the unit sees them through its staged changes, and is then
merged into these. The files stay as they are, but for the directories that are made for a new
site. A run of accepted edits therefore says of each change what it was checked against.
-/

set_option autoImplicit false

namespace LayeredConfig

open Run

theorem StagedSet.eq_empty {set : StagedSet} (h : set.isEmpty = true) : set = .empty :=
  congrArg StagedSet.mk (List.isEmpty_iff.mp h)

namespace Access

theorem look_empty : look (some .empty) = look none := by
  funext root t file
  simp only [look]
  rcases Store.documentIn root t file with e | d
  · rfl
  · rfl

end Access

def NewSite.register (new : NewSite) (s : Sites) : Except ConfigError (Site × Sites) :=
  (s.add (new.withId (new.id.getD s.nextId))).map (new.withId (new.id.getD s.nextId), ·)

namespace WorkUnit

def staged? (u : WorkUnit) (s : Service) : Option StagedSet :=
  match u.transaction with
  | none => some u.pending
  | some id => (s.find? id).bind fun t => if t.state = .pending then some t.staged else none

structure Undisturbed (u : WorkUnit) (s s' : Service) : Prop where
  store : s'.store = s.store
  registry : s'.registry = s.registry
  staged : u.staged? s' = u.staged? s

theorem Undisturbed.refl (u : WorkUnit) (s : Service) : u.Undisturbed s s := ⟨rfl, rfl, rfl⟩

theorem staged?_of_none {u : WorkUnit} (hu : u.transaction = none) (s : Service) :
    u.staged? s = some u.pending := by
  simp only [staged?]
  rw [hu]

theorem staged?_of_pending {u : WorkUnit} {s : Service} {id : String} {t : Transaction}
    (hu : u.transaction = some id) (hf : s.find? id = some t) (hp : t.state = .pending) :
    u.staged? s = some t.staged := by
  simp only [staged?]
  rw [hu]
  dsimp only
  rw [hf]
  exact if_pos hp

theorem pending_of_staged? {u : WorkUnit} {s : Service} {id : String} {set : StagedSet}
    (hu : u.transaction = some id) (hset : u.staged? s = some set) :
    ∃ t, s.find? id = some t ∧ t.state = .pending ∧ t.staged = set := by
  simp only [staged?] at hset
  rw [hu] at hset
  obtain ⟨t, hf, ht⟩ := Option.bind_eq_some_iff.mp hset
  by_cases hp : t.state = .pending
  · rw [if_pos hp] at ht
    exact ⟨t, hf, hp, Option.some.inj ht⟩
  · rw [if_neg hp] at ht
    cases ht

variable {u u' : WorkUnit} {s s' : Service} {set : StagedSet} {scope : Scope} {name : String}
  {m : Mutation}

theorem overlay_eq_ok {overlay : Option StagedSet} (hset : u.staged? s = some set)
    (h : u.overlay s = (.ok overlay, s')) :
    u.Undisturbed s s' ∧ Access.look overlay = Access.look (some set) := by
  simp only [WorkUnit.overlay] at h
  rcases hu : u.transaction with _ | id
  · rw [hu] at h
    obtain ⟨ho, rfl⟩ := Prod.mk.inj h
    refine ⟨.refl u s, ?_⟩
    obtain rfl := Option.some.inj (hset.symm.trans (staged?_of_none hu s))
    obtain rfl := Except.ok.inj ho
    by_cases hempty : u.pending.isEmpty = true
    · rw [if_pos hempty, StagedSet.eq_empty hempty, Access.look_empty]
    · rw [if_neg hempty]
  · rw [hu] at h
    obtain ⟨staged, s₁, hsnap, hpure⟩ := bind_eq_ok h
    obtain ⟨t, s₂, hpending, hrest⟩ := bind_eq_ok hsnap
    obtain ⟨hf, hp, rfl⟩ := Service.pendingTransaction_eq_ok hpending
    cases hrest
    cases hpure
    have hbefore := staged?_of_pending hu hf hp
    have hput : (s₂.put { t with lastActivity := s₂.now }).find? id =
        some { t with lastActivity := s₂.now } := Service.find?_put hf rfl
    refine ⟨⟨rfl, rfl, (staged?_of_pending hu hput hp).trans hbefore.symm⟩, ?_⟩
    obtain rfl := Option.some.inj (hset.symm.trans hbefore)
    rfl

theorem getSection_eq_ok {v : SectionView} (hset : u.staged? s = some set)
    (hr : s.store.Unfailing .read) (h : u.getSection scope name s = (.ok v, s')) :
    u.Undisturbed s s' := by
  obtain ⟨overlay, s₁, hover, hrest⟩ := bind_eq_ok h
  obtain ⟨hsame, -⟩ := overlay_eq_ok hset hover
  rw [get_bind, Service.onStore_looking (Access.getSection_apply overlay _ scope name s₁.store
    (by rwa [hsame.store]))] at hrest
  obtain ⟨-, rfl⟩ := Prod.mk.inj hrest
  exact hsame

theorem sites_eq_ok {sites : Sites} (hset : u.staged? s = some set)
    (hr : s.store.Unfailing .read) (h : u.sites s = (.ok sites, s')) :
    u.Undisturbed s s' ∧
      Access.sitesFrom (Access.look (some set) s.store.root s.store.tree) = .ok sites := by
  obtain ⟨overlay, s₁, hover, hrest⟩ := bind_eq_ok h
  obtain ⟨hsame, hlook⟩ := overlay_eq_ok hset hover
  rw [Service.onStore_looking (Access.sites_apply overlay s₁.store (by rwa [hsame.store]))] at hrest
  obtain ⟨hfound, rfl⟩ := Prod.mk.inj hrest
  rw [hlook, hsame.store] at hfound
  exact ⟨hsame, hfound⟩

theorem prepare_eq_ok {change : Staged} (hset : u.staged? s = some set)
    (hr : s.store.Unfailing .read) (h : u.prepare scope name m s = (.ok change, s')) :
    u.Undisturbed s s' ∧ ∃ target,
      Access.admission s.registry (Access.look (some set) s.store.root s.store.tree) scope name m =
        .ok target ∧ change = .of scope target name m := by
  obtain ⟨overlay, s₁, hover, hrest⟩ := bind_eq_ok h
  obtain ⟨hsame, hlook⟩ := overlay_eq_ok hset hover
  rw [get_bind] at hrest
  obtain ⟨target, s₂, hcheck, hrest⟩ := bind_eq_ok hrest
  rw [Service.onStore_looking (Access.checkWrite_apply overlay _ scope name m s₁.store
    (by rwa [hsame.store]))] at hcheck
  obtain ⟨hadmits, rfl⟩ := Prod.mk.inj hcheck
  rw [get_bind] at hrest
  obtain ⟨⟨⟩, s₃, hclaims, hpure⟩ := bind_eq_ok hrest
  obtain ⟨-, rfl⟩ := Prod.mk.inj hclaims
  cases hpure
  rw [hlook, hsame.store, hsame.registry] at hadmits
  exact ⟨hsame, target, hadmits, rfl⟩

theorem push_eq_ok {change : Staged} (hset : u.staged? s = some set)
    (h : u.push change s = (.ok u', s')) :
    u'.transaction = u.transaction ∧ s'.store = s.store ∧ s'.registry = s.registry ∧
      u'.staged? s' = some (set.stage change) := by
  simp only [push] at h
  rcases hu : u.transaction with _ | id
  · rw [hu] at h
    cases h
    obtain rfl := Option.some.inj (hset.symm.trans (staged?_of_none hu s))
    exact ⟨rfl, rfl, rfl, staged?_of_none rfl s⟩
  · rw [hu] at h
    obtain ⟨⟨⟩, s₁, hstage, hpure⟩ := bind_eq_ok h
    cases hpure
    obtain ⟨t, s₂, hpending, hrest⟩ := bind_eq_ok hstage
    obtain ⟨hf, hp, rfl⟩ := Service.pendingTransaction_eq_ok hpending
    rw [get_bind] at hrest
    obtain ⟨claims, s₃, hclaim, hmodify⟩ := bind_eq_ok hrest
    obtain ⟨-, rfl⟩ := Prod.mk.inj hclaim
    cases hmodify
    obtain rfl := Option.some.inj (hset.symm.trans (staged?_of_pending hu hf hp))
    let t' : Transaction := { t with staged := t.staged.stage change, lastActivity := s₂.now }
    have hput : (({ s₂ with claims := claims } : Service).put t').find? id = some t' :=
      Service.find?_put (t := t) hf rfl
    exact ⟨hu, rfl, rfl, staged?_of_pending hu hput hp⟩

structure Advances (u : WorkUnit) (s : Service) (set : StagedSet) (u' : WorkUnit) (s' : Service)
    (set' : StagedSet) : Prop where
  transaction : u'.transaction = u.transaction
  registry : s'.registry = s.registry
  store : s.store.Grows s'.store
  found : u'.staged? s' = some set'
  staged : set' = set ∨ ∃ scope name m target,
    Access.admission s.registry (Access.look (some set) s.store.root s.store.tree) scope name m =
      .ok target ∧ set' = set.stage (.of scope target name m)

theorem Undisturbed.advances (h : u.Undisturbed s s') (hset : u.staged? s = some set) :
    u.Advances s set u s' set where
  transaction := rfl
  registry := h.registry
  store := h.store ▸ .refl _
  found := h.staged.trans hset
  staged := .inl rfl

/-- A call that starts by looking does what the rest of it does. -/
theorem Advances.of_undisturbed {s₁ : Service} {set' : StagedSet} (h : u.Undisturbed s s₁)
    (h' : u.Advances s₁ set u' s' set') : u.Advances s set u' s' set' where
  transaction := h'.transaction
  registry := h'.registry.trans h.registry
  store := by
    have hgrows := h'.store
    rwa [h.store] at hgrows
  found := h'.found
  staged := by
    have hstaged := h'.staged
    rwa [h.store, h.registry] at hstaged

structure Stages (scope : Scope) (name : String) (m : Mutation) (u : WorkUnit) (s : Service)
    (set : StagedSet) (u' : WorkUnit) (s' : Service) : Prop where
  transaction : u'.transaction = u.transaction
  registry : s'.registry = s.registry
  store : s.store.Grows s'.store
  staged : ∃ target,
    Access.admission s.registry (Access.look (some set) s.store.root s.store.tree) scope name m =
      .ok target ∧ u'.staged? s' = some (set.stage (.of scope target name m))

theorem Stages.advances (h : Stages scope name m u s set u' s') :
    ∃ set', u.Advances s set u' s' set' := by
  obtain ⟨target, hadmits, hfound⟩ := h.staged
  exact ⟨_, h.transaction, h.registry, h.store, hfound, .inr ⟨scope, name, m, target, hadmits, rfl⟩⟩

theorem Stages.of_undisturbed {s₁ : Service} (h : u.Undisturbed s s₁)
    (h' : Stages scope name m u s₁ set u' s') : Stages scope name m u s set u' s' where
  transaction := h'.transaction
  registry := h'.registry.trans h.registry
  store := by
    have hgrows := h'.store
    rwa [h.store] at hgrows
  staged := by
    have hstaged := h'.staged
    rwa [h.store, h.registry] at hstaged

theorem stage_eq_ok (hset : u.staged? s = some set) (hr : s.store.Unfailing .read)
    (h : u.stage scope name m s = (.ok u', s')) : Stages scope name m u s set u' s' := by
  obtain ⟨change, s₁, hprepare, hpush⟩ := bind_eq_ok h
  obtain ⟨hsame, target, hadmits, rfl⟩ := prepare_eq_ok hset hr hprepare
  obtain ⟨ht, hstore, hregistry, hfound⟩ := push_eq_ok (hsame.staged.trans hset) hpush
  exact ⟨ht, hregistry.trans hsame.registry, hstore ▸ hsame.store ▸ .refl _, target, hadmits,
    hfound⟩

theorem revert_advances {reverted : Bool} (hset : u.staged? s = some set)
    (hr : s.store.Unfailing .read) (h : u.revert scope name s = (.ok (reverted, u'), s')) :
    ∃ set', u.Advances s set u' s' set' := by
  obtain ⟨current, s₁, hget, hrest⟩ := bind_eq_ok h
  have hsame := getSection_eq_ok hset hr hget
  split at hrest
  · obtain ⟨u₂, s₂, hstage, hpure⟩ := bind_eq_ok hrest
    cases hpure
    have hstages := stage_eq_ok (hsame.staged.trans hset) (by rwa [hsame.store]) hstage
    exact (hstages.of_undisturbed hsame).advances
  · cases hrest
    exact ⟨set, hsame.advances hset⟩

structure EditsSites (edit : Sites → Except ConfigError (Site × Sites)) (u : WorkUnit) (s : Service)
    (set : StagedSet) (site : Site) (u' : WorkUnit) (s' : Service) : Prop where
  edited : ∃ before after,
    Access.sitesFrom (Access.look (some set) s.store.root s.store.tree) = .ok before ∧
      edit before = .ok (site, after) ∧
      Stages .global Registry.sitesSection (.replace after.toValue) u s set u' s'

theorem EditsSites.advances {edit : Sites → Except ConfigError (Site × Sites)} {site : Site}
    (h : EditsSites edit u s set site u' s') : ∃ set', u.Advances s set u' s' set' := by
  obtain ⟨before, after, -, -, hstages⟩ := h.edited
  exact hstages.advances

/-- Both ways to change a registered site end with staging the registry. -/
theorem editSites_eq_ok (edit : Sites → Except ConfigError (Site × Sites)) {site : Site}
    (hset : u.staged? s = some set) (hr : s.store.Unfailing .read)
    (h : (do
      let sites ← u.sites
      let (site, sites) ← Service.ofExcept (edit sites)
      pure (site, ← u.putSites sites) : ServiceM (Site × WorkUnit)) s = (.ok (site, u'), s')) :
    EditsSites edit u s set site u' s' := by
  obtain ⟨before, s₁, hsites, hrest⟩ := bind_eq_ok h
  obtain ⟨hsame, hbefore⟩ := sites_eq_ok hset hr hsites
  obtain ⟨⟨edited, after⟩, s₂, hstep, hrest⟩ := bind_eq_ok hrest
  obtain ⟨hedit, rfl⟩ := Prod.mk.inj hstep
  obtain ⟨u₂, s₃, hstage, hpure⟩ := bind_eq_ok hrest
  cases hpure
  have hstages := stage_eq_ok (hsame.staged.trans hset) (by rwa [hsame.store]) hstage
  exact ⟨before, after, hbefore, hedit, hstages.of_undisturbed hsame⟩

theorem createDirs_grows (dirs : List String) (s : Service) :
    ∃ store, (createDirs dirs s).2 = { s with store := store } ∧ s.store.Grows store := by
  induction dirs generalizing s with
  | nil => exact ⟨s.store, rfl, .refl _⟩
  | cons dir dirs ih =>
    have hdir : s.store.Grows (Access.onSection dir (Store.createDir dir) s.store).2 :=
      Access.preserves_onSection dir (Store.preserves_createDir s.store dir) s.store (.refl _)
    simp only [createDirs]
    rw [bind_apply, Service.onStore_apply]
    rcases hone : Access.onSection dir (Store.createDir dir) s.store with ⟨e | done, store⟩
    · rw [hone] at hdir
      exact ⟨store, rfl, hdir⟩
    · rw [hone] at hdir
      obtain ⟨store', hrest, hgrows⟩ := ih { s with store := store }
      exact ⟨store', hrest, hdir.trans hgrows⟩

theorem createSite_eq_ok {new : NewSite} {site : Site} (hset : u.staged? s = some set)
    (hr : s.store.Unfailing .read) (h : u.createSite new s = (.ok (site, u'), s')) :
    EditsSites new.register u s set site u' s' := by
  obtain ⟨before, s₁, hsites, hrest⟩ := bind_eq_ok h
  obtain ⟨hsame, hbefore⟩ := sites_eq_ok hset hr hsites
  obtain ⟨after, s₂, hstep, hrest⟩ := bind_eq_ok hrest
  obtain ⟨hadd, rfl⟩ := Prod.mk.inj hstep
  obtain ⟨change, s₃, hprepare, hrest⟩ := bind_eq_ok hrest
  obtain ⟨hsame', target, hadmits, rfl⟩ := prepare_eq_ok (hsame.staged.trans hset)
    (by rwa [hsame.store]) hprepare
  -- the edit was checked before the directories are made and is staged after that
  obtain ⟨⟨⟩, s₄, hdirs, hrest⟩ := bind_eq_ok hrest
  obtain ⟨store, hmade, hgrows⟩ := createDirs_grows (_ :: _) s₃
  rw [hdirs] at hmade
  obtain rfl : s₄ = { s₃ with store := store } := hmade
  obtain ⟨u₂, s₅, hpush, hpure⟩ := bind_eq_ok hrest
  cases hpure
  have hfound : u.staged? { s₃ with store := store } = some set :=
    (hsame'.staged.trans hsame.staged).trans hset
  obtain ⟨ht, hstore, hregistry, hfound⟩ := push_eq_ok hfound hpush
  have hstages : Stages .global Registry.sitesSection (.replace after.toValue) u s₁ set u' s' :=
    ⟨ht, hregistry.trans hsame'.registry, hstore ▸ hsame'.store ▸ hgrows, target, hadmits, hfound⟩
  have hregister : new.register before = .ok (new.withId (new.id.getD before.nextId), after) :=
    congrArg (Except.map _) hadd
  exact ⟨before, after, hbefore, hregister, hstages.of_undisturbed hsame⟩

end WorkUnit

namespace UnitCall

variable {u u' : WorkUnit} {s s' : Service} {set : StagedSet} {answer : UnitAnswer}

def isCommit : UnitCall → Bool
  | .commit => true
  | _ => false

/-- Every accepted call but the commit stages one change at most. -/
theorem advances {call : UnitCall} (hcall : call.isCommit = false) (hset : u.staged? s = some set)
    (hr : s.store.Unfailing .read) (h : call.run u s = (.ok (answer, u'), s')) :
    ∃ set', u.Advances s set u' s' set' := by
  cases call with
  | getSection scope name =>
    obtain ⟨v, s₁, hget, hpure⟩ := bind_eq_ok h
    cases hpure
    exact ⟨set, (WorkUnit.getSection_eq_ok hset hr hget).advances hset⟩
  | sites =>
    obtain ⟨v, s₁, hsites, hpure⟩ := bind_eq_ok h
    cases hpure
    exact ⟨set, (WorkUnit.sites_eq_ok hset hr hsites).1.advances hset⟩
  | getSite id =>
    obtain ⟨v, s₁, hsite, hpure⟩ := bind_eq_ok h
    cases hpure
    obtain ⟨sites, s₂, hsites, hrest⟩ := bind_eq_ok hsite
    obtain ⟨hsame, -⟩ := WorkUnit.sites_eq_ok hset hr hsites
    rcases hfind : sites.find? id with _ | site
    · rw [hfind] at hrest
      cases hrest
    · rw [hfind] at hrest
      cases hrest
      exact ⟨set, hsame.advances hset⟩
  | stage scope name m =>
    obtain ⟨v, s₁, hstage, hpure⟩ := bind_eq_ok h
    cases hpure
    exact (WorkUnit.stage_eq_ok hset hr hstage).advances
  | revert scope name =>
    obtain ⟨⟨reverted, v⟩, s₁, hrevert, hpure⟩ := bind_eq_ok h
    cases hpure
    exact WorkUnit.revert_advances hset hr hrevert
  | commit => cases hcall
  | createSite new =>
    obtain ⟨⟨site, v⟩, s₁, hcreate, hpure⟩ := bind_eq_ok h
    cases hpure
    exact (WorkUnit.createSite_eq_ok hset hr hcreate).advances
  | updateSite id update =>
    obtain ⟨⟨site, v⟩, s₁, hedit, hpure⟩ := bind_eq_ok h
    cases hpure
    exact (WorkUnit.editSites_eq_ok (·.update id update) hset hr hedit).advances
  | deleteSite id =>
    obtain ⟨⟨site, v⟩, s₁, hedit, hpure⟩ := bind_eq_ok h
    cases hpure
    exact (WorkUnit.editSites_eq_ok (·.remove id) hset hr hedit).advances

end UnitCall

end LayeredConfig
