import LayeredConfig.Proofs.Commit.Written
import LayeredConfig.Proofs.Document.Representable
import LayeredConfig.Proofs.Service.Isolation

/-!
# What is accepted can be rendered

A document can be rendered when each of its sections has a counterpart in a file. Documents that
were read have that, and accepted changes keep it. An entry of a commit is checked before its change
is made to the document of its file, so the new document always has a text. What a commit would do
about a document without one is made a parameter here: it makes no difference.
-/

set_option autoImplicit false

namespace LayeredConfig

open Run

namespace LevelDocument

def Renders (d : LevelDocument) : Prop := ∀ e ∈ d.sections, e.2.isRepresentable = true

variable {d : LevelDocument}

theorem render_eq_ok_iff : (∃ text, d.render = .ok text) ↔ d.Renders := by
  simp only [Renders, LevelDocument.render, toToml]
  rw [← sectionTables_eq_ok_iff]
  rcases sectionTables d.sections with fault | tables
  · constructor
    · rintro ⟨text, h⟩
      cases h
    · rintro ⟨tables, h⟩
      cases h
  · exact ⟨fun _ => ⟨tables, rfl⟩, fun _ => ⟨_, rfl⟩⟩

theorem renders_empty : empty.Renders := fun e he => by cases he

theorem renders_of_parse {source : String} (h : parse source = .ok d) : d.Renders :=
  (storable_of_parse source d h).representable

end LevelDocument

namespace Mutation

def Holds (m : Mutation) : Prop :=
  ∀ v, m.content = some (.replace v) → v.isObject = true ∧ v.isRepresentable = true

variable {m : Mutation} {d : LevelDocument}

theorem Holds.renders_apply (hm : m.Holds) (h : d.Renders) (name : String) :
    (m.apply name d).Renders := by
  intro e he
  rw [apply_sections] at he
  simp only [applyContent] at he
  split at he
  · rename_i v hv
    rcases Table.mem_insert d.sections name v e he with rfl | he
    · exact (hm v hv).2
    · exact h e he
  · exact h e ((Table.erase_sublist d.sections name).subset he)
  · exact h e he

theorem renders_applyAll {changes : List (String × Mutation)} (h : ∀ c ∈ changes, c.2.Holds)
    (hd : d.Renders) : (changes.foldl (fun d c => c.2.apply c.1 d) d).Renders := by
  induction changes generalizing d with
  | nil => exact hd
  | cons c changes ih =>
    have hfirst := (h c List.mem_cons_self).renders_apply hd c.1
    exact ih (fun c hc => h c (List.mem_cons_of_mem _ hc)) hfirst

def Accepted (name : String) (m : Mutation) : Prop :=
  ∃ (registry : Registry) (overlay : Option StagedSet) (scope : Scope) (s : Store)
    (target : LevelRef), (Access.checkWrite registry overlay scope name m s).1 = .ok target

theorem Accepted.holds {name : String} (h : m.Accepted name) : m.Holds := by
  obtain ⟨registry, overlay, scope, s, target, hcheck⟩ := h
  exact Journal.checkWrite_content (eq_of_answer hcheck)

end Mutation

theorem Access.gives_load (file : String) :
    Gives LevelDocument.Renders (Access.load none file) := by
  have hstore : Gives LevelDocument.Renders (Store.load file) := by
    refine gives_bind (gives_any _) fun text _ => ?_
    cases text with
    | none => exact gives_pure LevelDocument.renders_empty
    | some text =>
      dsimp only
      rcases hparse : LevelDocument.parse text with fault | d
      · exact gives_throw _
      · exact gives_pure (LevelDocument.renders_of_parse hparse)
  have hsection : Gives LevelDocument.Renders (onSection file (Store.load file)) := by
    intro s d s' h
    rw [onSection_apply] at h
    rcases hload : Store.load file s with ⟨e | d', s₁⟩
    · rw [hload] at h
      cases h
    · rw [hload] at h
      cases h
      exact hstore s _ _ hload
  exact gives_bind hsection fun d hd => gives_pure hd

namespace Journal

abbrev Fallback := Staged → LevelRef → DocumentFault → CommitM Unit

def draft (registry : Registry) (s : Staged) : CommitM (LevelRef × Lease × LevelDocument) := do
  let target ← onStore (Access.checkWrite registry none s.scope s.name s.mutation)
  if target.file ≠ s.file then
    throw (.scopeNotFound s!"{s.scope.text} no longer resolves to {s.file}")
  let lease ← lease s.sectionPath target.file
  let d ← onStore (Access.load none target.file)
  pure (target, lease, s.mutation.apply s.name d)

def applyEntryOr (fallback : Fallback) (registry : Registry) (s : Staged) : CommitM Unit := do
  let (target, lease, d) ← draft registry s
  match d.render with
  | .error fault => fallback s target fault
  | .ok text => onStore (Access.onSection s.sectionPath (Store.write lease text))

def report : Fallback := fun s target fault =>
  throw (.ofStore s.sectionPath (.parse target.file fault))

theorem applyEntryOr_report (registry : Registry) (s : Staged) :
    applyEntryOr report registry s = applyEntry registry s := by
  simp only [applyEntryOr, draft, applyEntry, bind_assoc]
  congr 1
  funext target
  by_cases htarget : target.file ≠ s.file
  · rw [if_pos htarget, if_pos htarget]
    rfl
  · rw [if_neg htarget, if_neg htarget]
    simp only [bind_assoc, pure_bind]
    rfl

theorem gives_onStore {α : Type} {right : α → Prop} {x : ConfigM α} (h : Gives right x) :
    Gives right (onStore x) := by
  intro p a p' hx
  rw [onStore_apply] at hx
  rcases hs : x p.store with ⟨r, s'⟩
  rw [hs] at hx
  cases hx
  exact h p.store a s' hs

/-- The new document of an entry that passes its check can be rendered. -/
theorem draft_renders (registry : Registry) (s : Staged) :
    Gives (fun drafted => ∃ text, drafted.2.2.render = .ok text) (draft registry s) := by
  have hcheck : Gives (fun _ => s.mutation.Holds)
      (onStore (Access.checkWrite registry none s.scope s.name s.mutation)) :=
    gives_onStore fun store target store' h => checkWrite_content h
  refine gives_bind hcheck fun target hholds => ?_
  by_cases htarget : target.file ≠ s.file
  · rw [if_pos htarget]
    exact fun p drafted p' h => by cases h
  · rw [if_neg htarget]
    refine gives_bind (gives_any _) fun lease _ => ?_
    refine gives_bind (gives_onStore (Access.gives_load target.file)) fun d hd => gives_pure ?_
    exact LevelDocument.render_eq_ok_iff.2 (hholds.renders_apply hd s.name)

theorem applyEntryOr_eq (fallback : Fallback) (registry : Registry) (s : Staged) :
    applyEntryOr fallback registry s = applyEntry registry s := by
  rw [← applyEntryOr_report]
  funext p
  simp only [applyEntryOr]
  rw [bind_apply, bind_apply]
  rcases hdraft : draft registry s p with ⟨e | ⟨target, lease, d⟩, p'⟩
  · rfl
  · obtain ⟨text, htext⟩ := draft_renders registry s p _ p' hdraft
    dsimp only at htext ⊢
    rw [htext]

def applyEntriesOr (fallback : Fallback) (registry : Registry) : List Staged → CommitM Unit
  | [] => pure ()
  | s :: rest => do
    applyEntryOr fallback registry s
    applyEntriesOr fallback registry rest

theorem applyEntriesOr_eq (fallback : Fallback) (registry : Registry) (entries : List Staged) :
    applyEntriesOr fallback registry entries = applyEntries registry entries := by
  induction entries with
  | nil => rfl
  | cons s rest ih => rw [applyEntriesOr, applyEntries, applyEntryOr_eq, ih]

def commitOr (fallback : Fallback) (registry : Registry) (entries : List Staged) : ConfigM Unit :=
  fun s => match applyEntriesOr fallback registry entries ⟨s, []⟩ with
  | (.ok (), p) => (.ok (), releaseAll p.journal p.store)
  | (.error e, p) => (.error e, rollback p.journal p.store)

theorem commitOr_eq (fallback : Fallback) (registry : Registry) (entries : List Staged) :
    commitOr fallback registry entries = commit registry entries := by
  funext s
  have hsame := congrFun (applyEntriesOr_eq fallback registry entries) ⟨s, []⟩
  rcases hrun : applyEntries registry entries ⟨s, []⟩ with ⟨e | done, p⟩
  · simp only [commitOr, commit, hsame, hrun]
  · simp only [commitOr, commit, hsame, hrun]

end Journal

open Journal (Fallback)

namespace Service

def applySetOr (fallback : Fallback) (set : StagedSet) (owner : Option String) :
    ServiceM Unit := do
  let s ← get
  ofExcept (set.entries.forM fun e => s.claims.check e owner)
  onStore (Journal.commitOr fallback s.registry set.entries)

def commitOr (fallback : Fallback) (id : String) : ServiceM Transaction := do
  let t ← pendingTransaction id
  applySetOr fallback t.staged (some id)
  finish t .committed t.staged

theorem applySetOr_eq (fallback : Fallback) (set : StagedSet) (owner : Option String) :
    applySetOr fallback set owner = applySet set owner := by
  simp only [applySetOr, applySet, Journal.commitOr_eq]

theorem commitOr_eq (fallback : Fallback) (id : String) : commitOr fallback id = commit id := by
  simp only [commitOr, commit, applySetOr_eq]

end Service

def WorkUnit.commitOr (fallback : Fallback) (u : WorkUnit) : ServiceM WorkUnit :=
  if u.transaction.isSome || u.pending.isEmpty then pure u
  else do
    Service.applySetOr fallback u.pending none
    pure { u with pending := .empty }

theorem WorkUnit.commitOr_eq (fallback : Fallback) (u : WorkUnit) :
    u.commitOr fallback = u.commit := by
  simp only [commitOr, commit, Service.applySetOr_eq]

def UnitCall.runOr (fallback : Fallback) (u : WorkUnit) :
    UnitCall → ServiceM (UnitAnswer × WorkUnit)
  | .commit => do pure (.done, ← u.commitOr fallback)
  | call => call.run u

theorem UnitCall.runOr_eq (fallback : Fallback) (u : WorkUnit) (call : UnitCall) :
    call.runOr fallback u = call.run u := by
  cases call with
  | commit => simp only [runOr, run, WorkUnit.commitOr_eq]
  | _ => rfl

namespace Operation

def applyOr (fallback : Fallback) : Operation → Service → Service
  | .commit id, s => (Service.commitOr fallback id s).2
  | .onUnit u call, s => (call.runOr fallback u s).2
  | op, s => op.apply s

theorem applyOr_eq (fallback : Fallback) (op : Operation) (s : Service) :
    op.applyOr fallback s = op.apply s := by
  cases op with
  | commit id => rw [applyOr, apply, Service.commitOr_eq]
  | onUnit u call => rw [applyOr, apply, UnitCall.runOr_eq]
  | _ => rfl

/-- A run in which the commits do what is said with documents that cannot be rendered. -/
def runOr (fallback : Fallback) : List Operation → Service → Service
  | [], s => s
  | op :: ops, s => runOr fallback ops (op.applyOr fallback s)

theorem runOr_eq (fallback : Fallback) (ops : List Operation) (s : Service) :
    runOr fallback ops s = run ops s := by
  induction ops generalizing s with
  | nil => rfl
  | cons op ops ih => rw [runOr, run, applyOr_eq, ih]

end Operation

/-- A section accepts just the objects that have no null item at any depth. Whatever accepted
changes are made to a document that was read, it can be rendered. So can the new document of every
entry of a commit, in whatever state of the commit, once the entry has passed its check and the file
has been read; and whatever a commit were to do with documents that cannot be rendered, all runs and
all answers to commits would be the same. -/
theorem accepted_values_render :
    (∀ (definition : SectionDefinition) (v : Value),
      definition.validate v = .ok () ↔ v.isObject = true ∧ ¬ v.NullItem) ∧
    (∀ (source : String) (d : LevelDocument) (changes : List (String × Mutation)),
      LevelDocument.parse source = .ok d → (∀ c ∈ changes, c.2.Accepted c.1) →
        ∃ text, (changes.foldl (fun d c => c.2.apply c.1 d) d).render = .ok text) ∧
    (∀ (registry : Registry) (e : Staged) (p p' : Progress) (target : LevelRef) (l : Lease)
      (d : LevelDocument), Journal.draft registry e p = (.ok (target, l, d), p') →
        ∃ text, d.render = .ok text) ∧
    ∀ fallback : Fallback,
      (∀ registry e, Journal.applyEntryOr fallback registry e = Journal.applyEntry registry e) ∧
      (∀ id, Service.commitOr fallback id = Service.commit id) ∧
      (∀ (u : WorkUnit) (call : UnitCall), call.runOr fallback u = call.run u) ∧
      ∀ (ops : List Operation) (s : Service),
        Operation.runOr fallback ops s = Operation.run ops s := by
  refine ⟨fun definition v => SectionDefinition.validate_eq_ok_iff, ?_, ?_, ?_⟩
  · intro source d changes hparse haccepted
    have hholds : ∀ c ∈ changes, c.2.Holds := fun c hc => (haccepted c hc).holds
    exact LevelDocument.render_eq_ok_iff.2
      (Mutation.renders_applyAll hholds (LevelDocument.renders_of_parse hparse))
  · intro registry e p p' target l d hdraft
    exact Journal.draft_renders registry e p _ p' hdraft
  · intro fallback
    exact ⟨Journal.applyEntryOr_eq fallback, Service.commitOr_eq fallback,
      UnitCall.runOr_eq fallback, Operation.runOr_eq fallback⟩

def datedText : String :=
  "[sections.static_content]\nsince = 1979-05-27\nsteps = [[1.5], []]\n"

def datedDocument : LevelDocument :=
  ⟨[], [("static_content", .obj [("since", .str "1979-05-27"),
    ("steps", .arr [.arr [.float ⟨0x3ff8000000000000⟩], .arr []])])]⟩

def nullMember : Mutation := .replace (.obj [("enabled", .bool true), ("sort", .null)])

def nullMemberStaged : Staged := ⟨.global, "host", "host.toml", "directory_browse", nullMember⟩

theorem accepted_values_render_dated :
    LevelDocument.parse datedText = .ok datedDocument ∧
      (Access.checkWrite .builtin none .global "directory_browse" nullMember bareDisk).1 =
        .ok ⟨"host", "host.toml"⟩ ∧
      (∃ text, (nullMember.apply "directory_browse" datedDocument).render = .ok text) ∧
      ∃ text, (nullMember.apply "directory_browse" .empty).render = .ok text := by
  have hparse : LevelDocument.parse datedText = .ok datedDocument := by decide +kernel
  have hcheck : (Access.checkWrite .builtin none .global "directory_browse" nullMember
      bareDisk).1 = .ok ⟨"host", "host.toml"⟩ := by decide +kernel
  have hdraft : (Journal.draft .builtin nullMemberStaged ⟨bareDisk, []⟩).1 =
      .ok (⟨"host", "host.toml"⟩, ⟨"host.toml", ["srv", "host.toml.lock"]⟩,
        nullMember.apply "directory_browse" .empty) := by decide +kernel
  have haccepted : nullMember.Accepted "directory_browse" := ⟨_, _, _, _, _, hcheck⟩
  obtain ⟨-, hread, hdrafted, -⟩ := accepted_values_render
  refine ⟨hparse, hcheck, ?_, ?_⟩
  · refine hread datedText datedDocument [("directory_browse", nullMember)] hparse fun c hc => ?_
    rw [List.mem_singleton.mp hc]
    exact haccepted
  · exact hdrafted _ _ _ _ _ _ _ (eq_of_answer hdraft)

end LayeredConfig
