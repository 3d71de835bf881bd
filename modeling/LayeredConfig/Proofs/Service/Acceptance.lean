import LayeredConfig.Proofs.Commit.Admitted
import LayeredConfig.Proofs.Service.Readable
import LayeredConfig.Proofs.Service.Staging

/-!
# What staging accepts and what a commit accepts

Staging checks an edit as seen through all edits before it and merges it into the entry for the
same section, which keeps its place in the set. The commit checks each merged entry at that place.
As long as no edit changes an entry that is staged already, the two checks are the same.
-/

set_option autoImplicit false

namespace LayeredConfig

open Run

namespace StagedSet

/-- A change that leaves the entries before it as they are changes nothing or comes last. -/
theorem stageIn_of_prefix (later : Staged) (entries : List Staged)
    (h : entries <+: stageIn later entries) :
    stageIn later entries = entries ∨ stageIn later entries = entries ++ [later] := by
  induction entries with
  | nil => exact .inr rfl
  | cons s rest ih =>
    simp only [stageIn] at h ⊢
    split
    · rename_i hkey
      rw [if_pos hkey] at h
      obtain ⟨hsame, -⟩ := List.cons_prefix_cons.mp h
      exact .inl (congrArg (· :: rest) hsame.symm)
    · rename_i hkey
      rw [if_neg hkey] at h
      rcases ih (List.cons_prefix_cons.mp h).2 with hstays | hlast
      · exact .inl (congrArg (s :: ·) hstays)
      · exact .inr (congrArg (s :: ·) hlast)

end StagedSet

namespace Staged

variable {good better : List Staged → Staged → Prop} {before rest : List Staged}

theorem Stepwise.imp (h : Stepwise good before rest)
    (himp : ∀ before e, good before e → better before e) : Stepwise better before rest := by
  induction rest generalizing before with
  | nil => exact trivial
  | cons e rest ih => exact ⟨himp before e h.1, ih h.2⟩

theorem Stepwise.concat {e : Staged} (h : Stepwise good before rest)
    (he : good (before ++ rest) e) : Stepwise good before (rest ++ [e]) := by
  induction rest generalizing before with
  | nil => exact ⟨by rwa [List.append_nil] at he, trivial⟩
  | cons first rest ih => exact ⟨h.1, ih h.2 (by rwa [← List.append_cons])⟩

def Admitted (registry : Registry) (root : Names) (t : FileTree) (before : List Staged)
    (e : Staged) : Prop :=
  ∃ v, FileTree.Rooted v ∧ FileTree.Grown v t ∧ ∃ target : LevelRef, target.file = e.file ∧
    Access.admission registry (Access.look (some ⟨before⟩) root v) e.scope e.name e.mutation =
      .ok target

def Legible (root : Names) (t : FileTree) (before : List Staged) (e : Staged) : Prop :=
  ∀ file ∈ Access.filesFrom (foreseen root t before) e.scope,
    (foreseen root t before file).isOk = true

instance (root : Names) (t : FileTree) (before : List Staged) (e : Staged) :
    Decidable (Legible root t before e) :=
  inferInstanceAs (Decidable (∀ file ∈ _, _))

variable {registry : Registry} {root : Names} {t u : FileTree} {e : Staged}

theorem Admitted.grown (h : Admitted registry root t before e) (hg : FileTree.Grown t u) :
    Admitted registry root u before e := by
  obtain ⟨v, hrooted, hgrown, htarget⟩ := h
  exact ⟨v, hrooted, hgrown.trans hg, htarget⟩

theorem Admitted.storable (h : Admitted registry root t before e) (hv : e.mutation.WellFormed) :
    e.mutation.Storable := by
  obtain ⟨v, -, -, target, -, hadmits⟩ := h
  obtain ⟨definition, -, -, hcheck, -⟩ := Access.admission_eq_ok hadmits
  exact fun value hvalue =>
    ⟨hv.value value hvalue, Journal.checkMutation_content hcheck value hvalue⟩

theorem look_storable (hbefore : ∀ e ∈ before, e.mutation.Storable) {file : String}
    {d : LevelDocument} (h : Access.look (some ⟨before⟩) root t file = .ok d) : d.Storable := by
  obtain ⟨former, hread, rfl⟩ := Access.look_eq_ok h
  exact overlayAll_storable _ former (fun e he => hbefore e (List.mem_filter.mp he).1)
    (Store.documentIn_stays hread).1

/-- An entry that was admitted passes its check later, if the files can still be read. -/
theorem Admitted.passes (h : Admitted registry root t before e)
    (hbefore : ∀ e ∈ before, e.mutation.Storable) (hl : Legible root t before e) :
    Passes registry root t before e := by
  obtain ⟨v, hrooted, hgrown, target, htarget, hadmits⟩ := h
  obtain ⟨definition, chain, -, -, hlevels, -⟩ := Access.admission_eq_ok hadmits
  have hagain : ∀ file d, Access.look (some ⟨before⟩) root v file = .ok d →
      (foreseen root t before file).isOk = true →
      foreseen root t before file = .ok d.settled := by
    intro file d hd hok
    obtain ⟨former, hthen, rfl⟩ := Access.look_eq_ok hd
    obtain ⟨back, hback⟩ := exists_of_isOk hok
    obtain ⟨seen, hseen, rfl⟩ := answer_of_map hback
    obtain ⟨latter, hnow, rfl⟩ := Access.look_eq_ok hseen
    rw [hback, Store.documentIn_grown hrooted hgrown hthen hnow]
  have hwell : ∀ d, Access.look (some ⟨before⟩) root v Chain.hostFile = .ok d → d.WellFormed :=
    fun d hd => (look_storable hbefore hd).toWellFormed
  -- the sites of the global file say which files are looked at, so these are the same as then
  have hsettles := Access.settles_of_found hlevels hagain hl hwell
  simp only [Passes]
  rw [Access.admission_settles registry e.name e.mutation hsettles hwell
    (Access.decodes_of_admission hadmits), hadmits]
  exact congrArg Except.ok htarget

theorem stepwise_passes (h : Stepwise (Admitted registry root t) before rest)
    (hbefore : ∀ e ∈ before, e.mutation.Storable) (hv : ∀ e ∈ rest, e.mutation.WellFormed)
    (hl : Stepwise (Legible root t) before rest) :
    Stepwise (Passes registry root t) before rest := by
  induction rest generalizing before with
  | nil => exact trivial
  | cons e rest ih =>
    refine ⟨h.1.passes hbefore hl.1, ih h.2 ?_ (fun e he => hv e (List.mem_cons_of_mem _ he)) hl.2⟩
    intro c hc
    rcases List.mem_append.mp hc with hc | hc
    · exact hbefore c hc
    · obtain rfl := List.mem_singleton.mp hc
      exact h.1.storable (hv c List.mem_cons_self)

end Staged

namespace WorkUnit

/-- Accepted calls of a unit one after another, none of them a commit, with the staged changes
after each. Between the calls others may do whatever leaves the store and these changes alone. -/
inductive Edits : WorkUnit → Service → List StagedSet → WorkUnit → Service → Prop
  | done {u : WorkUnit} {s s' : Service} : u.Undisturbed s s' → Edits u s [] u s'
  | call {u u₁ u' : WorkUnit} {s s₁ s₂ s' : Service} {call : UnitCall} {answer : UnitAnswer}
      {set : StagedSet} {history : List StagedSet} :
      u.Undisturbed s s₁ → call.isCommit = false → call.run u s₁ = (.ok (answer, u₁), s₂) →
        u₁.staged? s₂ = some set → Edits u₁ s₂ history u' s' → Edits u s (set :: history) u' s'

variable {u u' : WorkUnit} {s s' : Service} {history : List StagedSet} {set set' : StagedSet}

/-- A call that changes no staged entry leaves entries that were admitted as seen through those
before them. -/
theorem Advances.admitted (h : u.Advances s set u' s' set')
    (hrooted : FileTree.Rooted s.store.tree) (hstays : set.entries <+: set'.entries)
    (hold : Staged.Stepwise (Staged.Admitted s.registry s.store.root s.store.tree) []
      set.entries) :
    Staged.Stepwise (Staged.Admitted s'.registry s'.store.root s'.store.tree) [] set'.entries := by
  have hgrown := hold.imp fun before e he => he.grown h.store.tree
  rw [h.registry, h.store.root]
  rcases h.staged with rfl | ⟨scope, name, m, target, hadmits, rfl⟩
  · exact hgrown
  · simp only [StagedSet.stage]
    rcases StagedSet.stageIn_of_prefix _ _ hstays with hsame | hlast
    · rwa [hsame]
    · -- the new entry comes last, so it was seen through all the others
      rw [hlast]
      exact hgrown.concat ⟨s.store.tree, hrooted, h.store.tree, target, rfl, hadmits⟩

/-- All that accepted edits change besides the staged changes are directories. -/
theorem Edits.kept (h : Edits u s history u' s') (hset : u.staged? s = some set)
    (hr : s.store.Unfailing .read) :
    u'.transaction = u.transaction ∧ s'.registry = s.registry ∧ s.store.Grows s'.store := by
  induction h generalizing set with
  | done hsame => exact ⟨rfl, hsame.registry, hsame.store ▸ .refl _⟩
  | call hsame hcall hrun hfound _ ih =>
    obtain ⟨set', hcalled⟩ := UnitCall.advances hcall (hsame.staged.trans hset)
      (by rwa [hsame.store]) hrun
    have hstep := Advances.of_undisturbed hsame hcalled
    obtain ⟨ht, hregistry, hstore⟩ := ih hfound (hstep.store.unfailing _ hr)
    exact ⟨ht.trans hstep.transaction, hregistry.trans hstep.registry, hstep.store.trans hstore⟩

/-- Where no edit changes what is staged already, each entry was admitted as seen through those
before it. -/
theorem Edits.admitted (h : Edits u s history u' s') (hset : u.staged? s = some set)
    (hset' : u'.staged? s' = some set') (hr : s.store.Unfailing .read)
    (hrooted : FileTree.Rooted s.store.tree)
    (hstays : (set :: history).IsChain fun a b => a.entries <+: b.entries)
    (hstart : Staged.Stepwise (Staged.Admitted s.registry s.store.root s.store.tree) []
      set.entries) :
    Staged.Stepwise (Staged.Admitted s'.registry s'.store.root s'.store.tree) [] set'.entries := by
  induction h generalizing set with
  | done hsame =>
    rw [hsame.staged, hset] at hset'
    obtain rfl := Option.some.inj hset'
    rwa [hsame.store, hsame.registry]
  | call hsame hcall hrun hfound _ ih =>
    obtain ⟨set₂, hcalled⟩ := UnitCall.advances hcall (hsame.staged.trans hset)
      (by rwa [hsame.store]) hrun
    obtain rfl := Option.some.inj (hfound.symm.trans hcalled.found)
    have hstep := Advances.of_undisturbed hsame hcalled
    obtain ⟨hnext, hrest⟩ := List.isChain_cons_cons.mp hstays
    exact ih hfound hset' (hstep.store.unfailing _ hr) (hrooted.grown hstep.store.tree) hrest
      (hstep.admitted hrooted hnext hstart)

def conclude (u : WorkUnit) : ServiceM Unit :=
  match u.transaction with
  | none => do
    let _ ← u.commit
    pure ()
  | some id => do
    let _ ← Service.commit id
    pure ()

theorem applySet_ok_iff {owner : Option String}
    (h : ∀ e ∈ set.entries, s.claims.check e owner = .ok ()) :
    (Service.applySet set owner s).1 = .ok () ↔
      ∃ store, Journal.commit s.registry set.entries s.store = (.ok (), store) := by
  rw [Service.applySet_of_checked h, Service.onStore_apply]
  exact ⟨fun hok => ⟨_, eq_of_answer hok⟩, fun ⟨_, hok⟩ => congrArg Prod.fst hok⟩

theorem conclude_ok_iff (hset : u.staged? s = some set)
    (hclaims : ∀ e ∈ set.entries, s.claims.check e u.transaction = .ok ()) :
    (u.conclude s).1 = .ok () ↔
      ∃ store, Journal.commit s.registry set.entries s.store = (.ok (), store) := by
  rw [← applySet_ok_iff hclaims]
  simp only [conclude]
  rcases hu : u.transaction with _ | id
  · obtain rfl := Option.some.inj (hset.symm.trans (staged?_of_none hu s))
    by_cases hempty : u.pending.isEmpty = true
    · have hentries : u.pending.entries = [] := List.isEmpty_iff.mp hempty
      simp only [WorkUnit.commit, Service.applySet]
      rw [hu, hempty, hentries]
      exact ⟨fun _ => rfl, fun _ => rfl⟩
    · simp only [WorkUnit.commit]
      rw [hu, if_neg (by simpa using hempty), bind_apply, bind_apply]
      rcases Service.applySet u.pending none s with ⟨e | done, s'⟩
      · exact ⟨fun h => (by cases h), fun h => (by cases h)⟩
      · exact ⟨fun _ => rfl, fun _ => rfl⟩
  · obtain ⟨t, hf, hp, rfl⟩ := pending_of_staged? hu hset
    simp only [Service.commit]
    rw [bind_apply, bind_apply, Service.pendingTransaction_of_find? hf hp]
    dsimp only
    rw [bind_apply]
    rcases Service.applySet t.staged (some id) s with ⟨e | done, s'⟩
    · exact ⟨fun h => (by cases h), fun h => (by cases h)⟩
    · exact ⟨fun _ => rfl, fun _ => rfl⟩

end WorkUnit

/-- Edits that a unit, or the units of a transaction, have staged one after another are committed
just when each staged entry, at its place in the set and with the scope it got last, passes the
check that staging makes as seen through the entries before it. So they are committed if no edit
changes an entry that is staged already and the files that are looked at can still be read. This
is said of sets whose entries leave what is foreseen in the files, in a store where their files
can be written and no call fails. -/
theorem staged_edits_commit (u u' : WorkUnit) (s s' : Service) (history : List StagedSet)
    (set : StagedSet) (hedits : u.Edits s history u' s') (hstart : u.staged? s = some .empty)
    (hset : u'.staged? s' = some set) (hs : ∀ kind, s.store.Unfailing kind)
    (hclaims : ∀ e ∈ set.entries, s'.claims.check e u.transaction = .ok ())
    (hv : ∀ e ∈ set.entries, e.mutation.WellFormed)
    (hw : s'.store.Writable (set.entries.map (·.file)))
    (hc : Staged.Stepwise (Staged.Clear s'.store.root s'.store.tree) [] set.entries) :
    ((u'.conclude s').1 = .ok () ↔
      Staged.Stepwise (Staged.Passes s'.registry s'.store.root s'.store.tree) [] set.entries) ∧
    (s.store.tree.Rooted →
      Staged.Stepwise (Staged.Legible s'.store.root s'.store.tree) [] set.entries →
      ((.empty :: history).IsChain fun a b : StagedSet => a.entries <+: b.entries) →
        (u'.conclude s').1 = .ok ()) := by
  obtain ⟨ht, -, hgrows⟩ := hedits.kept hstart (hs .read)
  have hgiven : Journal.Given s'.store set.entries :=
    ⟨hw, fun kind => hgrows.unfailing kind (hs kind), hv⟩
  have hiff : (u'.conclude s').1 = .ok () ↔
      Staged.Stepwise (Staged.Passes s'.registry s'.store.root s'.store.tree) [] set.entries := by
    rw [WorkUnit.conclude_ok_iff hset (by rwa [ht]), Journal.commit_ok_iff hgiven hc]
  refine ⟨hiff, fun hrooted hlegible hstays => hiff.2 ?_⟩
  have hadmitted := hedits.admitted hstart hset (hs .read) hrooted hstays trivial
  exact Staged.stepwise_passes hadmitted (fun e he => by cases he) hv hlegible

def newShop : NewSite := ⟨none, "shop", "/shop", true, []⟩

def shopEdits : StagedSet :=
  ⟨oneSite.entries ++ [⟨.site 1 "/", "shop", "shop/web.toml", "directory_browse",
    .replace (.obj [("enabled", .bool false)])⟩]⟩

def shopDisk : Store := { listedDisk with tree := listedDisk.tree.set ["srv", "shop"] .directory }

theorem staged_edits_commit_newShop :
    let s := Service.new listedDisk .builtin 900 0
    let s' := Service.new shopDisk .builtin 900 0
    let created := (WorkUnit.new none).createSite newShop s
    let edited := WorkUnit.stage ⟨none, oneSite⟩ (.site 1 "/") "directory_browse"
      (.replace (.obj [("enabled", .bool false)])) s'
    created.1 = .ok (newShop.withId 1, ⟨none, oneSite⟩) ∧ created.2 = s' ∧
      edited.1 = .ok ⟨none, shopEdits⟩ ∧ edited.2 = s' ∧
      (WorkUnit.conclude ⟨none, shopEdits⟩ s').1 = .ok () := by
  intro s s' created edited
  have hcreate : created.1 = .ok (newShop.withId 1, ⟨none, oneSite⟩) ∧ created.2 = s' := by
    decide +kernel
  have hedit : edited.1 = .ok ⟨none, shopEdits⟩ ∧ edited.2 = s' := by decide +kernel
  have hcreated : (UnitCall.createSite newShop).run (.new none) s =
      (.ok (.site (newShop.withId 1), ⟨none, oneSite⟩), s') := by
    have hboth : (WorkUnit.new none).createSite newShop s =
        (.ok (newShop.withId 1, ⟨none, oneSite⟩), s') := Prod.ext hcreate.1 hcreate.2
    simp only [UnitCall.run]
    rw [bind_apply, hboth]
    rfl
  have hstaged : (UnitCall.stage (.site 1 "/") "directory_browse"
      (.replace (.obj [("enabled", .bool false)]))).run ⟨none, oneSite⟩ s' =
        (.ok (.done, ⟨none, shopEdits⟩), s') := by
    have hboth : WorkUnit.stage ⟨none, oneSite⟩ (.site 1 "/") "directory_browse"
        (.replace (.obj [("enabled", .bool false)])) s' = (.ok ⟨none, shopEdits⟩, s') :=
      Prod.ext hedit.1 hedit.2
    simp only [UnitCall.run]
    rw [bind_apply, hboth]
    rfl
  have hedits : WorkUnit.Edits (.new none) s [oneSite, shopEdits] ⟨none, shopEdits⟩ s' :=
    .call (.refl _ _) rfl hcreated rfl (.call (.refl _ _) rfl hstaged rfl (.done (.refl _ _)))
  refine ⟨hcreate.1, hcreate.2, hedit.1, hedit.2, ?_⟩
  refine (staged_edits_commit (.new none) ⟨none, shopEdits⟩ s s' _ shopEdits hedits rfl rfl
    (fun _ fault hfault => List.not_mem_nil.elim hfault) (by decide +kernel) (by decide +kernel)
    (by decide +kernel) (by decide +kernel)).2 ?_ (by decide +kernel) (by decide +kernel)
  exact FileTree.rooted_of_entries (by decide +kernel)

def deniedDisk : Store :=
  ⟨["srv"], (FileTree.empty.set ["srv"] .directory).set ["srv", "host.toml"]
    (.file (.text "[override_modes]\ndirectory_browse = \"deny\"\n")), []⟩

def allowed : StagedSet :=
  ⟨[⟨.global, "host", "host.toml", "directory_browse", .setMode .allow⟩]⟩

def allowedAndStored : StagedSet :=
  ⟨[⟨.global, "host", "host.toml", "directory_browse",
    ⟨some (.replace (.obj [("enabled", .bool false)])), some .allow⟩⟩]⟩

theorem staged_edits_refused :
    let s := Service.new deniedDisk .builtin 900 0
    let allowing := WorkUnit.stage (.new none) .global "directory_browse" (.setMode .allow) s
    let storing := WorkUnit.stage ⟨none, allowed⟩ .global "directory_browse"
      (.replace (.obj [("enabled", .bool false)])) s
    allowing.1 = .ok ⟨none, allowed⟩ ∧ allowing.2 = s ∧
      storing.1 = .ok ⟨none, allowedAndStored⟩ ∧ storing.2 = s ∧
      s.claims = .empty ∧ s.store.faults = [] ∧
      s.store.Writable (allowedAndStored.entries.map (·.file)) ∧
      (WorkUnit.conclude ⟨none, allowedAndStored⟩ s).1 =
        .error (.locked "host/directory_browse" .denied) := by
  decide +kernel

end LayeredConfig
