import LayeredConfig.Proofs.Service.Readable

/-!
# Reading through staged changes, and reading after the commit

A unit bound to a transaction sees the files under the staged changes in memory. The commit writes
the changes one by one, and reads and writes its files again for each of them. What it leaves is
what the unit has seen, but for what a level file cannot hold: null members are dropped, and
integers beyond 64 bits with a sign become floats.
-/

set_option autoImplicit false

namespace LayeredConfig

open Run

namespace Service

variable {s s' : Service} {id : String} {t t' : Transaction}

theorem commit_eq_ok (h : commit id s = (.ok t', s')) :
    ∃ t store, s.find? id = some t ∧ t.state = .pending ∧
      Journal.commit s.registry t.staged.entries s.store = (.ok (), store) ∧
      s'.store = store ∧ s'.registry = s.registry := by
  obtain ⟨t, s₁, hpending, hrest⟩ := bind_eq_ok h
  obtain ⟨hf, hp, rfl⟩ := pendingTransaction_eq_ok hpending
  obtain ⟨⟨⟩, s₂, hset, hfinish⟩ := bind_eq_ok hrest
  obtain ⟨store, hcommit, rfl⟩ := applySet_eq_ok hset
  cases hfinish
  exact ⟨t, store, hf, hp, hcommit, rfl, rfl⟩

/-- What a unit sees that is bound to a pending transaction. -/
theorem overlay_bound (hf : s.find? id = some t) (hp : t.state = .pending) :
    (WorkUnit.new (some id)).overlay s =
      (.ok (some t.staged), s.put { t with lastActivity := s.now }) := by
  simp only [WorkUnit.overlay, WorkUnit.new, snapshot]
  rw [bind_apply, bind_apply, pendingTransaction_of_find? hf hp]
  rfl

theorem getSection_bound (hf : s.find? id = some t) (hp : t.state = .pending)
    (hr : s.store.Unfailing .read) (scope : Scope) (name : String) :
    (WorkUnit.new (some id)).getSection scope name s =
      (Access.sectionFrom s.registry (some t.staged)
          (Access.look (some t.staged) s.store.root s.store.tree) scope name,
        s.put { t with lastActivity := s.now }) := by
  simp only [WorkUnit.getSection]
  rw [bind_apply, overlay_bound hf hp]
  exact onStore_looking (Access.getSection_apply (some t.staged) s.registry scope name s.store hr)

theorem sites_bound (hf : s.find? id = some t) (hp : t.state = .pending)
    (hr : s.store.Unfailing .read) :
    ((WorkUnit.new (some id)).sites s).1 =
      Access.sitesFrom (Access.look (some t.staged) s.store.root s.store.tree) := by
  simp only [WorkUnit.sites]
  rw [bind_apply, overlay_bound hf hp]
  change (Access.sites (some t.staged) s.store).1 = _
  rw [Access.sites_apply (some t.staged) s.store hr]

end Service

/-- A commit that succeeds leaves what a unit bound to the transaction has read right before: a
section that it has read is read from the files with the same location, owner, locality and modes
and with the settled value, and where it has met an error the error is met again, unless it has
seen sites that do not decode. This asks nothing but that the commit carries each file over that is
looked at. -/
theorem read_through_agrees (s s₁ s₂ : Service) (id : String) (t t' : Transaction) (scope : Scope)
    (name : String) (seen : Except ConfigError SectionView)
    (ht : s.find? id = some t) (hp : t.state = .pending)
    (hread : (WorkUnit.new (some id)).getSection scope name s = (seen, s₁))
    (hcommit : Service.commit id s₁ = (.ok t', s₂))
    (hv : ∀ e ∈ t.staged.entries, e.mutation.WellFormed) (hr : s.store.Unfailing .read)
    (hfiles : ∀ file ∈ Access.filesFrom
      (Access.look (some t.staged) s.store.root s.store.tree) scope,
        t.staged.Carries s.store.root s.store.tree file) :
    let found := ((WorkUnit.new none).getSection scope name s₂).1
    (∀ v, seen = .ok v → found = .ok v.settled) ∧
    ∀ e, seen = .error e →
      (∀ why, ((WorkUnit.new (some id)).sites s).1 ≠ .error (.validation (.sites why))) →
        found = .error e := by
  intro found
  rw [Service.getSection_bound ht hp hr] at hread
  obtain ⟨rfl, rfl⟩ := Prod.mk.inj hread
  obtain ⟨u, store, hf, -, hset, rfl, hregistry⟩ := Service.commit_eq_ok hcommit
  have hput : (s.put { t with lastActivity := s.now }).find? id =
      some { t with lastActivity := s.now } := Service.find?_put ht rfl
  obtain rfl := Option.some.inj (hput.symm.trans hf)
  have hcommitted : Journal.commit s.registry t.staged.entries s.store = (.ok (), s₂.store) := hset
  have hr' : s₂.store.Unfailing .read := Journal.unfailing_of_commit hset hr
  have hsettles : Access.Settles (Access.look (some t.staged) s.store.root s.store.tree)
      (Access.look none s₂.store.root s₂.store.tree)
      (Access.filesFrom (Access.look (some t.staged) s.store.root s.store.tree) scope) := by
    intro file hfile
    rw [Journal.root_of_commit hcommitted]
    exact Journal.look_of_commit hcommitted hv (hfiles file hfile)
  have hwell : ∀ d, Access.look (some t.staged) s.store.root s.store.tree Chain.hostFile = .ok d →
      d.WellFormed := fun d hd =>
    Journal.wellFormed_of_commit hcommitted hv (hfiles _ List.mem_cons_self).way hd
  -- where the sites decode, both readings go through the same levels
  have hagree : Access.Decodes (Access.look (some t.staged) s.store.root s.store.tree) →
      found = (Access.sectionFrom s.registry (some t.staged)
        (Access.look (some t.staged) s.store.root s.store.tree) scope name).map .settled := by
    intro hdecodes
    change ((WorkUnit.new none).getSection scope name s₂).1 = _
    rw [Service.getSection_unedited scope name s₂ hr', hregistry]
    exact Access.sectionFrom_settles s.registry (some t.staged) name hsettles hwell hdecodes
  constructor
  · intro v hseen
    rw [hagree (Access.decodes_of_sectionFrom hseen), hseen]
    rfl
  · intro e hseen hsites
    rw [Service.sites_bound ht hp hr] at hsites
    rw [hagree (Access.decodes_of_sitesFrom hsites), hseen]
    rfl

def listing : Transaction :=
  ⟨"listing", .pending, 0, ⟨[⟨.global, "host", "host.toml", "directory_browse",
    .replace (.obj [("enabled", .bool false)])⟩]⟩⟩

theorem read_through_agrees_listing :
    let s := Operation.run listingStaged (.new listedDisk .builtin 900 0)
    let s₁ := ((WorkUnit.new (some "listing")).getSection .global "directory_browse" s).2
    let s₂ := (Service.commit "listing" s₁).2
    (Service.commit "listing" s₁).1.isOk = true ∧
      ((WorkUnit.new none).getSection .global "directory_browse" s₂).1.map (·.value) =
        .ok (.obj [("enabled", .bool false)]) := by
  dsimp only
  refine ⟨by decide +kernel, ?_⟩
  have hcommit : (Service.commit "listing" ((WorkUnit.new (some "listing")).getSection .global
      "directory_browse" (Operation.run listingStaged (.new listedDisk .builtin 900 0))).2).1 =
        .ok { listing with state := .committed } := by decide +kernel
  have hseen := (read_through_agrees (Operation.run listingStaged (.new listedDisk .builtin 900 0))
    _ _ "listing" listing _ .global "directory_browse" _ (by decide +kernel) rfl
    (eq_of_answer rfl) (eq_of_answer hcommit) (by decide +kernel) (by decide +kernel)
    (by decide +kernel)).1
  rw [hseen ⟨"directory_browse", .global, "host", some "host",
    .obj [("enabled", .bool false)], true, .inherit, .allow, true⟩ (by decide +kernel)]
  rfl

def nullStaged : List Operation :=
  [.create "content", .onUnit (.new (some "content")) (.stage .global "static_content"
    (.replace (.obj [("a", .null), ("b", .int 1)])))]

theorem read_through_drops_null :
    let s := Operation.run nullStaged (.new listedDisk .builtin 900 0)
    let seen := (WorkUnit.new (some "content")).getSection .global "static_content" s
    let committed := Service.commit "content" seen.2
    committed.1.isOk = true ∧
      seen.1.map (·.value) = .ok (.obj [("a", .null), ("b", .int 1)]) ∧
      ((WorkUnit.new none).getSection .global "static_content" committed.2).1.map (·.value) =
        .ok (.obj [("b", .int 1)]) := by
  decide +kernel

end LayeredConfig
