import LayeredConfig.Http.Router
import LayeredConfig.Proofs.Service.Staging

/-!
# Requests that edit sections and sites

Five routes edit: a section is changed or dropped, a site is created, changed or deleted. Each of
them first reads the request, which does not look at the service at all. Then it makes one call of a
new unit, commits the unit and tells what has become of the section or site.
-/

set_option autoImplicit false

namespace LayeredConfig

open Run

namespace Http

def edit? (r : Request) (query : String) :
    Route → String → Option (ApiM (WorkUnit × UnitCall))
  | .sectionNamed raw, "PATCH" => some do
    let u ← unitOf r
    let name ← segment raw
    let q ← scopeQuery query
    let v ← body patchSchema r
    let scope ← q.scope
    if (patchMutation v).isEmpty then
      refuse (.error (.badRequest "expected 'value' or 'metadata.override_mode'"))
    pure (u, .stage scope name (patchMutation v))
  | .sectionNamed raw, "DELETE" => some do
    let u ← unitOf r
    let name ← segment raw
    let q ← scopeQuery query
    let scope ← q.scope
    pure (u, .revert scope name)
  | .sites, "POST" => some do
    let u ← unitOf r
    let v ← body NewSite.schema r
    pure (u, .createSite (NewSite.ofValue v))
  | .site raw, "PATCH" => some do
    let u ← unitOf r
    let id ← idSegment raw
    let v ← body SiteUpdate.schema r
    pure (u, .updateSite id (SiteUpdate.ofValue v))
  | .site raw, "DELETE" => some do
    let u ← unitOf r
    let id ← idSegment raw
    pure (u, .deleteSite id)
  | _, _ => none

/-- What a client is told after an edit. A section that was changed is shown, which means that it
is read once more. -/
def report (u : WorkUnit) : UnitCall → UnitAnswer → ServiceM Answer
  | .stage scope name _, _ => do pure (json (sectionValue (← u.getSection scope name)))
  | .createSite _, .site site => pure ⟨201, .data site.toValue⟩
  | .updateSite _ _, .site site => pure (json site.toValue)
  | _, _ => pure noContent

def carryOut (u : WorkUnit) (edit : UnitCall) : ServiceM Answer := do
  let (answer, u) ← edit.run u
  let u ← u.commit
  report u edit answer

def Request.edit? (r : Request) : Option (ApiM (WorkUnit × UnitCall)) :=
  (Route.ofPath? (Target.ofText r.target).path).bind fun route =>
    Http.edit? r (Target.ofText r.target).query route r.method

theorem call_bind {α β : Type} (x : ServiceM α) (f : α → ServiceM β) :
    call (x >>= f) = call x >>= fun a => call (f a) := by
  funext s
  rw [bind_apply]
  simp only [call, callWith]
  rw [bind_apply]
  rcases x s with ⟨e | a, s₁⟩
  · rfl
  · rfl

theorem call_pure {α : Type} (a : α) : call (pure a : ServiceM α) = pure a := rfl

variable {freshId query method : String} {r : Request} {route : Route}
  {x : ApiM (WorkUnit × UnitCall)}

/-- Each of the five routes reads the edit and carries it out. -/
theorem handler?_of_edit (h : edit? r query route method = some x) :
    handler? freshId r query route method =
      some (x >>= fun (u, edit) => call (carryOut u edit)) := by
  simp only [edit?] at h
  split at h
  all_goals cases h
  · simp only [handler?, patchSection, bind_assoc]
    refine congrArg some (bind_congr fun u => bind_congr fun name => bind_congr fun q =>
      bind_congr fun v => bind_congr fun scope => ?_)
    split
    · rfl
    · simp only [carryOut, report, UnitCall.run, call_bind, call_pure, bind_assoc, pure_bind]
  · simp only [handler?, deleteSection, carryOut, report, UnitCall.run, call_bind, call_pure,
      bind_assoc, pure_bind]
  · simp only [handler?, createSite, carryOut, report, UnitCall.run, call_bind, call_pure,
      bind_assoc, pure_bind]
  · simp only [handler?, patchSite, carryOut, report, UnitCall.run, call_bind, call_pure,
      bind_assoc, pure_bind]
  · simp only [handler?, deleteSite, carryOut, report, UnitCall.run, call_bind, call_pure,
      bind_assoc, pure_bind]

structure Reads {α : Type} (right : α → Prop) (x : ApiM α) : Prop where
  keeps : Keeps id x
  gives : Gives right x

section Reads

variable {α β : Type} {right : α → Prop} {later : β → Prop}

theorem reads_pure {a : α} (h : right a) : Reads right (pure a : ApiM α) :=
  ⟨keeps_pure a, gives_pure h⟩

theorem reads_refuse (e : Refusal) : Reads right (refuse e : ApiM α) :=
  ⟨keeps_throw e, gives_throw e⟩

theorem reads_reject (status : Nat) : Reads right (reject status : ApiM α) :=
  reads_refuse (.rejected status)

theorem reads_bind {x : ApiM α} {f : α → ApiM β} (hx : Reads right x)
    (hf : ∀ a, right a → Reads later (f a)) : Reads later (x >>= f) := by
  refine ⟨fun s => ?_, gives_bind hx.gives fun a ha => (hf a ha).gives⟩
  rw [bind_apply]
  have hsame := hx.keeps s
  rcases h : x s with ⟨e | a, s₁⟩
  all_goals rw [h] at hsame
  · exact hsame
  · exact ((hf a (hx.gives s a s₁ h)).keeps s₁).trans hsame

theorem reads_unitOf (r : Request) : Reads (fun u => u.pending = .empty) (unitOf r) := by
  simp only [unitOf]
  split
  · exact reads_pure rfl
  · split
    · exact reads_refuse _
    · exact reads_pure rfl

theorem reads_segment (raw : String) : Reads (fun _ => True) (segment raw) := by
  simp only [segment]
  split
  · exact reads_pure trivial
  · exact reads_reject 400

theorem reads_idSegment (raw : String) : Reads (fun _ => True) (idSegment raw) := by
  refine reads_bind (reads_segment raw) fun text _ => ?_
  split
  · exact reads_pure trivial
  · exact reads_reject 400

theorem reads_parameter (pairs : List (String × String)) (name : String) :
    Reads (fun _ => True) (parameter pairs name) := by
  simp only [parameter]
  split
  · exact reads_pure trivial
  · exact reads_pure trivial
  · exact reads_reject 400

theorem reads_scopeQuery (query : String) : Reads (fun _ => True) (scopeQuery query) := by
  refine reads_bind (reads_parameter _ _) fun siteId _ => ?_
  refine reads_bind (reads_parameter _ _) fun path _ => ?_
  refine reads_bind (reads_parameter _ _) fun file _ => ?_
  split
  · exact reads_pure trivial
  · split
    · exact reads_pure trivial
    · exact reads_reject 400

theorem reads_scope (q : ScopeQuery) : Reads (fun _ => True) q.scope := by
  refine ⟨fun s => ?_, gives_any _⟩
  simp only [ScopeQuery.scope, call, callWith, Service.ofExcept]
  rcases Scope.ofParts q.siteId q.path q.file with e | scope
  · rfl
  · rfl

theorem reads_body (schema : Schema) (r : Request) : Reads (fun _ => True) (body schema r) := by
  simp only [body]
  split
  · exact reads_reject 415
  · split
    · exact reads_reject 413
    · split
      · exact reads_pure trivial
      · exact reads_reject 400
      · exact reads_reject 422

end Reads

structure Asked (method : String) (asked : WorkUnit × UnitCall) : Prop where
  new : asked.1.pending = .empty
  edits : asked.2.isCommit = false
  makes : asked.2.makesDirs = true → method = "POST"

/-- Reading an edit does not touch the service. -/
theorem reads_edit (h : edit? r query route method = some x) : Reads (Asked method) x := by
  simp only [edit?] at h
  split at h
  all_goals cases h
  all_goals refine reads_bind (reads_unitOf r) fun u hu => ?_
  · refine reads_bind (reads_segment _) fun name _ => ?_
    refine reads_bind (reads_scopeQuery query) fun q _ => ?_
    refine reads_bind (reads_body _ r) fun v _ => ?_
    refine reads_bind (reads_scope q) fun scope _ => ?_
    split
    · exact reads_bind (@reads_refuse Unit (fun _ => True) _) fun _ _ =>
        reads_pure ⟨hu, rfl, fun h => nomatch h⟩
    · exact reads_pure ⟨hu, rfl, fun h => nomatch h⟩
  · refine reads_bind (reads_segment _) fun name _ => ?_
    refine reads_bind (reads_scopeQuery query) fun q _ => ?_
    exact reads_bind (reads_scope q) fun scope _ => reads_pure ⟨hu, rfl, fun h => nomatch h⟩
  · exact reads_bind (reads_body _ r) fun v _ => reads_pure ⟨hu, rfl, fun _ => rfl⟩
  · refine reads_bind (reads_idSegment _) fun id _ => ?_
    exact reads_bind (reads_body _ r) fun v _ => reads_pure ⟨hu, rfl, fun h => nomatch h⟩
  · exact reads_bind (reads_idSegment _) fun id _ => reads_pure ⟨hu, rfl, fun h => nomatch h⟩

def Answer.IsSuccess (a : Answer) : Prop := 200 ≤ a.status ∧ a.status < 300

instance (a : Answer) : Decidable a.IsSuccess := inferInstanceAs (Decidable (_ ∧ _))

theorem isSuccess_of_report {u : WorkUnit} {edit : UnitCall} {answer : UnitAnswer} {a : Answer}
    {s s' : Service} (h : report u edit answer s = (.ok a, s')) : a.IsSuccess := by
  simp only [report] at h
  split at h
  · obtain ⟨v, s₁, -, h⟩ := bind_eq_ok h
    cases h
    simp [Answer.IsSuccess, json]
  all_goals
    cases h
    simp [Answer.IsSuccess, json, noContent]

/-- A request for an edit is refused as it is read, or it is answered as the edit turns out. -/
theorem answer_of_edit (freshId : String) (hedit : r.edit? = some x) (s : Service) :
    (∃ refusal, x s = (.error refusal, s) ∧ answer freshId r s = (refusal.answer, s)) ∨
      ∃ u edit, x s = (.ok (u, edit), s) ∧ Asked r.method (u, edit) ∧
        answer freshId r s = match carryOut u edit s with
          | (.ok a, s') => (a, s')
          | (.error e, s') => ((ApiError.ofConfig e).answer, s') := by
  obtain ⟨route, hroute, hedit⟩ := Option.bind_eq_some_iff.mp hedit
  have hmethod : r.method ≠ "OPTIONS" ∧ r.method ≠ "HEAD" := by
    constructor
    all_goals
      intro hmethod
      rw [hmethod] at hedit
      simp [Http.edit?] at hedit
  simp only [answer]
  rw [if_neg hmethod.1, if_neg hmethod.2, hroute]
  dsimp only
  rw [handler?_of_edit hedit]
  dsimp only
  rw [bind_apply]
  have hreads := reads_edit hedit
  rcases hx : x s with ⟨refusal | ⟨u, edit⟩, s₁⟩
  all_goals obtain rfl : s₁ = s := hreads.keeps.of_eq hx
  · refine .inl ⟨refusal, rfl, ?_⟩
    dsimp only
    rw [if_neg hmethod.2]
  · refine .inr ⟨u, edit, rfl, hreads.gives s₁ (u, edit) s₁ hx, ?_⟩
    simp only [call, callWith]
    rcases carryOut u edit s₁ with ⟨e | a, s'⟩
    · dsimp only
      rw [if_neg hmethod.2]
      rfl
    · dsimp only
      rw [if_neg hmethod.2]

end Http

end LayeredConfig
