import LayeredConfig.Proofs.Commit.Bystanders
import LayeredConfig.Proofs.Service.ClaimsMirror

/-!
# Claimed sections are left alone

From the moment a transaction stages a change to a section of a file, and as long as it is
pending, it holds the claim on that section, so nobody else commits a change of the section under
that name of the file. What others commit to the same file leaves what it says about the section
as it is, as far as the file gives that back when it is read again. The claim goes by the text of
the file's name, though, and one file may have several names.
-/

set_option autoImplicit false

namespace LayeredConfig

open Run

namespace Service

def IsPending (s : Service) (id : String) : Prop := ∃ t, s.find? id = some t ∧ t.state = .pending

def HasStaged (s : Service) (id file name : String) : Prop :=
  ∃ t, s.find? id = some t ∧ t.state = .pending ∧ t.staged.contains file name = true

instance (s : Service) (id : String) : Decidable (s.IsPending id) :=
  inferInstanceAs (Decidable (∃ t, s.find? id = some t ∧ _))

instance (s : Service) (id file name : String) : Decidable (s.HasStaged id file name) :=
  inferInstanceAs (Decidable (∃ t, s.find? id = some t ∧ _))

theorem Mirrored.hasStaged_iff {s : Service} (h : s.Mirrored) (id file name : String) :
    s.HasStaged id file name ↔ ⟨file, name, id⟩ ∈ s.claims.entries := by
  rw [h.claimed]
  constructor
  · rintro ⟨t, hf, hp, hk⟩
    obtain ⟨ht, hid⟩ := (h.find?_eq_some id t).1 hf
    exact ⟨t, ht, hid, hp, hk⟩
  · rintro ⟨t, ht, hid, hp, hk⟩
    exact ⟨t, (h.find?_eq_some id t).2 ⟨ht, hid⟩, hp, hk⟩

variable {s s' : Service} {id : String} {t : Transaction}

theorem refused_of_not_isPending {α : Type} (h : ¬ s.IsPending id)
    (f : Transaction → ServiceM α) : ∃ e, (pendingTransaction id >>= f) s = (.error e, s) := by
  rw [bind_apply]
  rcases pendingTransaction_cases id s with ⟨e, he⟩ | ⟨t, hf, hp, -⟩
  · exact ⟨e, by rw [he]⟩
  · exact (h ⟨t, hf, hp⟩).elim

theorem commit_refused (h : ¬ s.IsPending id) : ∃ e, commit id s = (.error e, s) :=
  refused_of_not_isPending h _

theorem abort_refused (h : ¬ s.IsPending id) : ∃ e, abort id s = (.error e, s) :=
  refused_of_not_isPending h _

/-- A commit of a pending transaction fails with its set, or the transaction is finished. -/
theorem commit_of_pending (hf : s.find? id = some t) (hp : t.state = .pending) :
    (∃ e s₁, applySet t.staged (some id) s = (.error e, s₁) ∧ commit id s = (.error e, s₁)) ∨
      ∃ s₁, applySet t.staged (some id) s = (.ok (), s₁) ∧
        commit id s = finish t .committed t.staged s₁ := by
  simp only [commit]
  rw [bind_apply, pendingTransaction_of_find? hf hp]
  dsimp only
  rw [bind_apply]
  rcases applySet t.staged (some id) s with ⟨e | u, s₁⟩
  · exact .inl ⟨e, s₁, rfl, rfl⟩
  · exact .inr ⟨s₁, rfl, rfl⟩

theorem abort_of_pending (hf : s.find? id = some t) (hp : t.state = .pending) :
    abort id s = finish t .aborted .empty s := by
  simp only [abort]
  rw [bind_apply, pendingTransaction_of_find? hf hp]

theorem transactions_applySet {set : StagedSet} {owner : Option String}
    {r : Except ConfigError Unit} (h : applySet set owner s = (r, s')) :
    s'.transactions = s.transactions ∧ s'.claims = s.claims :=
  Prod.mk.inj ((keeps_applySet set owner).of_eq h)

def Holds (c : Claim) (s : Service) : Prop := s.Mirrored ∧ c ∈ s.claims.entries

variable {c : Claim}

theorem holds_blindToStore : BlindToStore (Holds c) := fun s store h =>
  ⟨mirrored_blindToStore s store h.1, h.2⟩

theorem holds_snapshot (id : String) : Preserves (Holds c) (snapshot id) := by
  have hclaims : Preserves (fun s => c ∈ s.claims.entries) (snapshot id) :=
    preserves_pending id _ fun _ _ hc _ _ => hc
  exact fun s h => ⟨preserves_snapshot id s h.1, hclaims s h.2⟩

theorem holds_stage (id : String) (change : Staged) : Preserves (Holds c) (stage id change) := by
  have hclaims : Preserves (fun s => s.claims.Distinct ∧ c ∈ s.claims.entries)
      (stage id change) := by
    refine preserves_pending id _ fun t s h _ _ => ?_
    rw [get_bind, bind_apply]
    rcases hc : s.claims.claim change id with e | claims
    · exact h
    · obtain ⟨hd, hmem⟩ := s.claims.claim_eq_ok claims h.1 change id hc
      exact ⟨hd, (hmem c).2 (.inl h.2)⟩
  exact fun s h => ⟨preserves_stage id change s h.1, (hclaims s ⟨h.1.distinct, h.2⟩).2⟩

theorem not_isPending_finish (t : Transaction) (state : TransactionState) (staged : StagedSet)
    (s : Service) (hstate : state ≠ .pending) : ¬ (finish t state staged s).2.IsPending t.id := by
  rintro ⟨u, hu, hp⟩
  rcases (mem_put s { t with state := state, staged := staged, lastActivity := s.now } u).1
    (List.mem_of_find?_eq_some hu) with ⟨-, hne⟩ | ⟨rfl, -⟩
  · exact hne (id_of_find? hu)
  · exact hstate hp

/-- A transaction that ends takes its own claims with it, and no others. -/
theorem claim_finish {state : TransactionState} {staged : StagedSet} (hstate : state ≠ .pending)
    (h : c ∈ s.claims.entries) (hp : (finish t state staged s).2.IsPending c.owner) :
    c ∈ (finish t state staged s).2.claims.entries := by
  refine (s.claims.mem_release t.id c).2 ⟨h, fun howner => ?_⟩
  rw [howner] at hp
  exact not_isPending_finish t state staged s hstate hp

end Service

namespace Operation

open Service

/-- A claim is held until its owner is no longer pending. -/
theorem claim_stays (op : Operation) (s : Service) (h : s.Mirrored) (c : Claim)
    (hc : c ∈ s.claims.entries) (hp : (op.apply s).IsPending c.owner) :
    c ∈ (op.apply s).claims.entries := by
  cases op with
  | create id => exact hc
  | stage id change => exact (holds_stage id change s ⟨h, hc⟩).2
  | snapshot id => exact (holds_snapshot id s ⟨h, hc⟩).2
  | commit id =>
    simp only [apply] at hp ⊢
    by_cases hpending : s.IsPending id
    · obtain ⟨t, hf, htp⟩ := hpending
      rcases commit_of_pending hf htp with ⟨e, s', ha, hcommit⟩ | ⟨s', ha, hcommit⟩
      all_goals
        rw [hcommit] at hp ⊢
        have hc' : c ∈ s'.claims.entries := (transactions_applySet ha).2 ▸ hc
      · exact hc'
      · exact claim_finish (by simp) hc' hp
    · obtain ⟨e, he⟩ := commit_refused hpending
      rw [he]
      exact hc
  | abort id =>
    simp only [apply] at hp ⊢
    by_cases hpending : s.IsPending id
    · obtain ⟨t, hf, htp⟩ := hpending
      rw [abort_of_pending hf htp] at hp ⊢
      exact claim_finish (by simp) hc hp
    · obtain ⟨e, he⟩ := abort_refused hpending
      rw [he]
      exact hc
  | sweep =>
    obtain ⟨t, hf, htp⟩ := hp
    have hm := mirrored_sweep s h
    obtain ⟨ht, hid⟩ := (hm.find?_eq_some c.owner t).1 hf
    obtain ⟨ht, hi, -⟩ := (mem_sweepList_pending s s.transactions t).1 ⟨ht, htp⟩
    change c ∈ (s.expired.foldl _ s.claims).entries
    rw [mem_foldl_release]
    refine ⟨hc, fun u hu hcu => ?_⟩
    simp only [expired, List.mem_filter, Bool.and_eq_true, beq_iff_eq] at hu
    -- the owner is still pending, so it is none of those that were idle
    rw [h.eq_of_id t u ht hu.1 (hid.trans hcu), hu.2.1] at hi
    cases hi
  | onUnit u call =>
    exact (call.preserves_run holds_blindToStore holds_snapshot holds_stage u s ⟨h, hc⟩).2
  | wait n => exact hc
  | disturb store => exact hc

def StaysPending (id : String) : List Operation → Service → Prop
  | [], _ => True
  | op :: ops, s => (op.apply s).IsPending id ∧ StaysPending id ops (op.apply s)

instance decidableStaysPending (id : String) :
    (ops : List Operation) → (s : Service) → Decidable (StaysPending id ops s)
  | [], _ => isTrue trivial
  | op :: ops, s =>
    have := decidableStaysPending id ops (op.apply s)
    inferInstanceAs (Decidable ((op.apply s).IsPending id ∧ StaysPending id ops (op.apply s)))

theorem hasStaged_run (ops : List Operation) (s : Service) (id file name : String)
    (h : s.Mirrored) (hf : FreshRun ops s) (hs : s.HasStaged id file name)
    (hp : StaysPending id ops s) : (run ops s).HasStaged id file name := by
  induction ops generalizing s with
  | nil => exact hs
  | cons op ops ih =>
    have hm := op.mirrored_apply s h hf.1
    refine ih _ hm hf.2 ?_ hp.2
    rw [hm.hasStaged_iff]
    exact op.claim_stays s h _ ((h.hasStaged_iff id file name).1 hs) hp.1

def commits? : Operation → Service → Option (StagedSet × Option String)
  | .commit id, s => (s.find? id).bind fun t =>
    if t.state = .pending then some (t.staged, some id) else none
  | .onUnit u .commit, _ =>
    if u.transaction.isSome || u.pending.isEmpty then none else some (u.pending, none)
  | _, _ => none

theorem commits?_cases {op : Operation} {s : Service} {set : StagedSet} {owner : Option String}
    (h : op.commits? s = some (set, owner)) :
    (∃ id t, op = .commit id ∧ owner = some id ∧ s.find? id = some t ∧ t.state = .pending ∧
        t.staged = set) ∨
      ∃ u : WorkUnit, op = .onUnit u .commit ∧ owner = none ∧ u.pending = set ∧
        ¬ (u.transaction.isSome || u.pending.isEmpty) = true := by
  match op, h with
  | .commit id, h =>
    obtain ⟨t, hf, h⟩ := Option.bind_eq_some_iff.mp h
    split at h
    · rename_i hp
      cases h
      exact .inl ⟨id, t, rfl, rfl, hf, hp, rfl⟩
    · cases h
  | .onUnit u .commit, h =>
    simp only [commits?] at h
    split at h
    · cases h
    · rename_i hwrites
      cases h
      exact .inr ⟨u, rfl, rfl, rfl, hwrites⟩

/-- All that a commit does to the files is to write its set. -/
theorem store_of_commits? (op : Operation) (s : Service) (set : StagedSet) (owner : Option String)
    (h : op.commits? s = some (set, owner)) :
    (op.apply s).store = (applySet set owner s).2.store := by
  rcases commits?_cases h with ⟨id, t, rfl, rfl, hf, hp, rfl⟩ | ⟨u, rfl, rfl, rfl, hwrites⟩
  · simp only [apply]
    rcases commit_of_pending hf hp with ⟨e, s', ha, hc⟩ | ⟨s', ha, hc⟩
    · rw [ha, hc]
    · rw [ha, hc]
      rfl
  · simp only [apply, UnitCall.run, WorkUnit.commit]
    rw [if_neg hwrites, bind_apply, bind_apply]
    rcases applySet u.pending none s with ⟨e | done, s'⟩
    · rfl
    · rfl

end Operation

open Journal (Clear)

theorem documentAt?_eq_ofNode? (t : FileTree) (p : Place) :
    documentAt? t p = LevelDocument.ofNode? (t.get? p.names) := by
  rcases h : t.get? p.names with _ | (_ | (text | bytes))
  all_goals simp only [documentAt?, LevelDocument.ofNode?]; rw [h]

def saidAt? (t : FileTree) (p : Place) (name : String) : Option (Option Value × OverrideMode) :=
  (documentAt? t p).map (·.about name)

def UndatedAt (t : FileTree) (p : Place) (name : String) : Prop :=
  ∀ d, documentAt? t p = some d → ∀ v, d.section? name = some v → v.isUndated = true

instance (t : FileTree) (p : Place) (name : String) : Decidable (UndatedAt t p name) :=
  inferInstanceAs (Decidable (∀ d, documentAt? t p = some d →
    ∀ v, d.section? name = some v → v.isUndated = true))

namespace Service

theorem applySet_checked (set : StagedSet) (owner : Option String) (s : Service) :
    (∃ e, applySet set owner s = (.error e, s)) ∨
      (∀ e ∈ set.entries, s.claims.check e owner = .ok ()) ∧
        applySet set owner s = onStore (Journal.commit s.registry set.entries) s := by
  simp only [applySet]
  rw [get_bind, bind_apply]
  rcases h : set.entries.forM fun e => s.claims.check e owner with e | u
  · exact .inl ⟨e, rfl⟩
  · exact .inr ⟨(forM_eq_ok_iff _ _).1 h, rfl⟩

theorem applySet_of_checked {set : StagedSet} {owner : Option String} {s : Service}
    (h : ∀ e ∈ set.entries, s.claims.check e owner = .ok ()) :
    applySet set owner s = onStore (Journal.commit s.registry set.entries) s := by
  simp only [applySet]
  rw [get_bind, bind_apply, (forM_eq_ok_iff _ _).2 h]
  rfl

/-- What somebody else has claimed is in no set that passes the claims. -/
theorem not_contains_of_check {s : Service} (h : s.Mirrored) {id file name : String}
    (hs : s.HasStaged id file name) {owner : Option String} (howner : owner ≠ some id)
    (e : Staged) (hcheck : s.claims.check e owner = .ok ()) (hfile : e.file = file) :
    e.name ≠ name := by
  intro hname
  have hholder : s.claims.holder? e.file e.name = some id := by
    rw [hfile, hname, Claims.holder?_eq_some_iff _ h.distinct, ← h.hasStaged_iff]
    exact hs
  simp only [Claims.check] at hcheck
  rw [hholder] at hcheck
  dsimp only at hcheck
  rw [if_neg howner.symm] at hcheck
  cases hcheck

/-- Whatever becomes of a set of somebody else, what its file says about a claimed section it
has said before, if the section is undated. A file that is not in the set is the same afterwards.
One whose other sections are changed says all that it has said just when it can be read and the
section is undated. -/
theorem applySet_claimed {s : Service} (h : s.Mirrored) {id file name : String}
    (hs : s.HasStaged id file name) (set : StagedSet) (owner : Option String)
    (howner : owner ≠ some id) (hwell : ∀ e ∈ set.entries, e.mutation.WellFormed) (p : Place)
    (hp : Place.ofPath? s.store.root file = some p)
    (hspares : set.SparesPlace s.store.root file p) :
    let s' := (applySet set owner s).2
    (UndatedAt s.store.tree p name → ∀ said, saidAt? s'.store.tree p name = some said →
      saidAt? s.store.tree p name = some said) ∧
    (file ∉ set.entries.map (·.file) → s'.store.tree.get? p.names = s.store.tree.get? p.names) ∧
    ((applySet set owner s).1 = .ok () → file ∈ set.entries.map (·.file) →
      (saidAt? s'.store.tree p name = saidAt? s.store.tree p name ↔
        (documentAt? s'.store.tree p).isSome = true ∧ UndatedAt s.store.tree p name)) := by
  simp only [saidAt?, UndatedAt, documentAt?_eq_ofNode?]
  rcases applySet_checked set owner s with ⟨e, he⟩ | ⟨hchecks, hcommit⟩
  · rw [he]
    exact ⟨fun _ _ hsaid => hsaid, fun _ => rfl, fun hok => by cases hok⟩
  -- the set has passed the claims, so what it has for the file is for other sections
  have hentries : ∀ e ∈ set.entries, e.mutation.WellFormed ∧
      ∀ q, Place.ofPath? s.store.root e.file = some q → q.names = p.names → e.name ≠ name := by
    intro e he
    refine ⟨hwell e he, fun q hq hpath => ?_⟩
    have hfile := hspares.oneName e.file (List.mem_map_of_mem he) q hq hpath
    exact not_contains_of_check h hs howner e (hchecks e he) hfile
  obtain ⟨hdescends, hrewritten⟩ :=
    Journal.commit_descends s.registry set.entries s.store hspares.clear hentries
  have helsewhere : file ∉ set.entries.map (·.file) →
      (Journal.commit s.registry set.entries s.store).2.tree.get? p.names =
        s.store.tree.get? p.names := by
    intro hfile
    apply Journal.commit_elsewhere s.registry set.entries s.store hspares.clear
    refine fun e he => ⟨hwell e he, fun q hq hpath => hfile ?_⟩
    rw [← hspares.oneName e.file (List.mem_map_of_mem he) q hq hpath]
    exact List.mem_map_of_mem he
  rw [hcommit, onStore_apply]
  dsimp only
  generalize (Journal.commit s.registry set.entries s.store).2.tree.get? p.names = node at *
  generalize s.store.tree.get? p.names = first at *
  refine ⟨?_, helsewhere, ?_⟩
  · intro hundated said hsaid
    obtain ⟨back, hback, rfl⟩ := Option.map_eq_some_iff.mp hsaid
    obtain ⟨d, hfirst, habout⟩ := hdescends.about_eq hback fun d v hd hv => hundated d hd v hv
    rw [hfirst, habout]
    rfl
  · intro hok hmem
    obtain ⟨e, he, hfile⟩ := List.mem_map.mp hmem
    have hr := hrewritten hok ⟨e, he, p, hfile ▸ hp, rfl⟩
    obtain ⟨d, hfirst⟩ : ∃ d, LevelDocument.ofNode? first = some d := by
      obtain ⟨d, -, -, hfirst, -⟩ := hr
      exact ⟨d, hfirst⟩
    rw [hfirst]
    rcases hback : LevelDocument.ofNode? node with _ | back
    · simp
    · simp only [Option.map_some, Option.some.injEq, Option.isSome_some, true_and]
      rw [hr.about_eq_iff hfirst hback]
      constructor
      · rintro hundated d' rfl
        exact hundated
      · exact fun hundated => hundated d rfl

end Service

/-- From the moment a transaction stages a change to a section of a file, and as long as it is
pending, the change stays staged, and no commit by anybody else changes what the file says about
the section, as long as nobody names the file otherwise or puts a lock or a temporary text there.
What the file says afterwards it has said before, if the section is undated; a file that the
commit does not name is the same; and where the commit changes other sections of the file, all
that the file has said about this one is still there just when the file can be read and the
section is undated. -/
theorem claimed_section_kept (store : Store) (registry : Registry) (idleSeconds now : Nat)
    (before after : List Operation) (id file name : String) :
    let started := Service.new store registry idleSeconds now
    let staged := Operation.run before started
    let s := Operation.run after staged
    Operation.FreshRun before started → staged.HasStaged id file name →
    Operation.FreshRun after staged → Operation.StaysPending id after staged →
    s.HasStaged id file name ∧
    ∀ (op : Operation) (set : StagedSet) (owner : Option String),
      op.commits? s = some (set, owner) → owner ≠ some id →
      (∀ e ∈ set.entries, e.mutation.WellFormed) →
      ∀ p, Place.ofPath? s.store.root file = some p → set.SparesPlace s.store.root file p →
        let tree := s.store.tree
        let tree' := (op.apply s).store.tree
        (UndatedAt tree p name →
          ∀ said, saidAt? tree' p name = some said → saidAt? tree p name = some said) ∧
        (file ∉ set.entries.map (·.file) → tree'.get? p.names = tree.get? p.names) ∧
        ((Service.applySet set owner s).1 = .ok () → file ∈ set.entries.map (·.file) →
          (saidAt? tree' p name = saidAt? tree p name ↔
            (documentAt? tree' p).isSome = true ∧ UndatedAt tree p name)) := by
  intro started staged s hbefore hstaged hafter hpending
  have hm : staged.Mirrored := Operation.mirrored_run before started
    (Service.mirrored_new store registry idleSeconds now) hbefore
  have hs : s.HasStaged id file name :=
    Operation.hasStaged_run after staged id file name hm hafter hstaged hpending
  refine ⟨hs, fun op set owner hop howner hwell p hp hspares => ?_⟩
  rw [op.store_of_commits? s set owner hop]
  exact Service.applySet_claimed (Operation.mirrored_run after staged hm hafter) hs set owner
    howner hwell p hp hspares

def listedDisk : Store :=
  ⟨["srv"], (FileTree.empty.set ["srv"] .directory).set ["srv", "host.toml"]
    (.file (.text "[sections.directory_browse]\nenabled = true\n")), []⟩

def listingStaged : List Operation :=
  [.create "listing", .onUnit (.new (some "listing")) (.stage .global "directory_browse"
    (.replace (.obj [("enabled", .bool false)])))]

def neighbourEdit : StagedSet :=
  ⟨[⟨.global, "host", "host.toml", "default_document", .replace (.obj [("enabled", .bool true)])⟩]⟩

def hostPlace : Place := ⟨["srv", "host.toml"], .plain, "/srv/host.toml"⟩

theorem claimed_section_kept_neighbour :
    let s := Operation.run [.wait 1] (Operation.run listingStaged (.new listedDisk .builtin 900 0))
    let s' := (Operation.onUnit ⟨none, neighbourEdit⟩ .commit).apply s
    (Service.applySet neighbourEdit none s).1 = .ok () ∧
      saidAt? s'.store.tree hostPlace "directory_browse" =
        saidAt? s.store.tree hostPlace "directory_browse" := by
  dsimp only
  have hkept := (claimed_section_kept listedDisk .builtin 900 0 listingStaged [.wait 1]
    "listing" "host.toml" "directory_browse" (by decide +kernel) (by decide +kernel)
    (by decide +kernel) (by decide +kernel)).2 (.onUnit ⟨none, neighbourEdit⟩ .commit)
    neighbourEdit none (by decide +kernel) (by decide) (by decide +kernel) hostPlace
    (by decide +kernel) (by decide +kernel)
  refine ⟨by decide +kernel, (hkept.2.2 (by decide +kernel) (by decide +kernel)).2 ?_⟩
  decide +kernel

def otherName : StagedSet :=
  ⟨[⟨.file "./host.toml", "./host.toml", "./host.toml", "directory_browse",
    .replace (.obj [("enabled", .bool false)])⟩]⟩

theorem claimed_section_lost :
    let s := Operation.run listingStaged (.new listedDisk .builtin 900 0)
    Operation.FreshRun listingStaged (.new listedDisk .builtin 900 0) ∧
      s.HasStaged "listing" "host.toml" "directory_browse" ∧
      Place.ofPath? s.store.root "host.toml" = some hostPlace ∧
      Scope.ofFile "./host.toml" = .ok (.file "./host.toml") ∧
      (WorkUnit.stage (.new none) (.file "./host.toml") "directory_browse"
        (.replace (.obj [("enabled", .bool false)])) s).1 = .ok ⟨none, otherName⟩ ∧
      (WorkUnit.commit ⟨none, otherName⟩ s).1 = .ok ⟨none, .empty⟩ ∧
      saidAt? s.store.tree hostPlace "directory_browse" =
        some (some (.obj [("enabled", .bool true)]), .inherit) ∧
      saidAt? ((Operation.onUnit ⟨none, otherName⟩ .commit).apply s).store.tree
        hostPlace "directory_browse" = some (some (.obj [("enabled", .bool false)]), .inherit) := by
  decide +kernel

end LayeredConfig
