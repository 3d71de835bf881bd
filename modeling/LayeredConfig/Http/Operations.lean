import LayeredConfig.Http.Request

/-!
# Operations on resources

What the requests for transactions, sections and sites do, and the data that they are
answered with. Each reads its request in the same order: the transaction, the path,
the query, the body. Edits are written at once, unless the request is bound to a
transaction.
-/

set_option autoImplicit false

namespace LayeredConfig.Http

def modeNames : List String := ["allow", "deny", "inherit"]

def patchSchema : Schema :=
  .record "patch" [("value", .nullable, .any),
    ("metadata", .nullable, .record "metadata" [("override_mode", .nullable, .word modeNames)])]

/-- The mutation of a patch; null counts as absent. -/
def patchMutation (v : Value) : Mutation :=
  let content := match v.get? "value" with
    | none | some .null => none
    | some value => some (.replace value)
  let mode := ((v.get? "metadata").bind (·.get? "override_mode")).bind fun m =>
    m.str?.bind OverrideMode.ofName?
  ⟨content, mode⟩

def stateSchema : Schema :=
  .record "transaction" [("state", .required, .word ["pending", "committed", "aborted"])]

def json (v : Value) : Answer := ⟨200, .data v⟩

def noContent : Answer := ⟨204, .empty⟩

/-- A transaction as it is shown, but for its two times, `created_at` and `last_activity`, which
depend on the clock of the day. -/
def transactionValue (t : Transaction) : Value :=
  .obj [("id", .str t.id), ("staged", .int t.staged.size), ("state", .str t.state.name)]

def sectionValue (s : SectionView) : Value :=
  let owner := (s.owner.map fun o => ("owning_location", Value.str o)).toList
  let metadata := [("dirty", .bool s.dirty), ("is_local", .bool s.isLocal),
    ("override_mode", .str s.mode.name), ("override_mode_effective", .str s.effective.name)] ++ owner
  .obj [("location", .str s.location), ("metadata", .obj metadata), ("name", .str s.name),
    ("value", s.value)]

def definitionValue (d : SectionDefinition) : Value :=
  .obj [("allow_definition", .str d.allow.name), ("default", d.default),
    ("description", .str d.description), ("name", .str d.name)]

def version : String := "0.1.0"

def health : Answer := json (.obj [("status", .str "ok"), ("version", .str version)])

def listTransactions : ApiM Answer := do
  pure (json (.obj [("transactions", .arr ((← get).listPending.map transactionValue))]))

def createTransaction (freshId : String) : ApiM Answer := do
  let t ← call (Service.create freshId)
  pure ⟨201, .data (transactionValue t)⟩

def getTransaction (raw : String) : ApiM Answer := do
  pure (json (transactionValue (← call (Service.getTransaction (← segment raw)))))

/-- End a transaction. That it is not known is told before anything is written. -/
def patchTransaction (r : Request) (raw : String) : ApiM Answer := do
  let id ← segment raw
  let v ← body stateSchema r
  let state := ((v.get? "state").bind (·.str?)).getD ""
  if state = "committed" then
    let _ ← call (Service.getTransaction id)
    pure (json (transactionValue (← callWith .ofCommit (Service.commit id))))
  else if state = "aborted" then
    pure (json (transactionValue (← call (Service.abort id))))
  else refuse (.error (.badRequest "state must be 'committed' or 'aborted'"))

def listSections : ApiM Answer := do
  pure (json (.obj [("sections", .arr ((← get).registry.list.map definitionValue))]))

def getSection (r : Request) (raw query : String) : ApiM Answer := do
  let u ← unitOf r
  let name ← segment raw
  let q ← scopeQuery query
  let scope ← q.scope
  pure (json (sectionValue (← call (u.getSection scope name))))

def patchSection (r : Request) (raw query : String) : ApiM Answer := do
  let u ← unitOf r
  let name ← segment raw
  let q ← scopeQuery query
  let v ← body patchSchema r
  let scope ← q.scope
  let m := patchMutation v
  if m.isEmpty then refuse (.error (.badRequest "expected 'value' or 'metadata.override_mode'"))
  let u ← call (u.stage scope name m)
  let u ← call u.commit
  pure (json (sectionValue (← call (u.getSection scope name))))

def deleteSection (r : Request) (raw query : String) : ApiM Answer := do
  let u ← unitOf r
  let name ← segment raw
  let q ← scopeQuery query
  let scope ← q.scope
  let (_, u) ← call (u.revert scope name)
  let _ ← call u.commit
  pure noContent

def listSites (r : Request) : ApiM Answer := do
  let u ← unitOf r
  let sites ← call u.sites
  pure (json (.obj [("sites", .arr (sites.entries.map Site.toValue))]))

def getSite (r : Request) (raw : String) : ApiM Answer := do
  let u ← unitOf r
  let id ← idSegment raw
  pure (json (Site.toValue (← call (u.getSite id))))

def createSite (r : Request) : ApiM Answer := do
  let u ← unitOf r
  let v ← body NewSite.schema r
  let (site, u) ← call (u.createSite (NewSite.ofValue v))
  let _ ← call u.commit
  pure ⟨201, .data site.toValue⟩

def patchSite (r : Request) (raw : String) : ApiM Answer := do
  let u ← unitOf r
  let id ← idSegment raw
  let v ← body SiteUpdate.schema r
  let (site, u) ← call (u.updateSite id (SiteUpdate.ofValue v))
  let _ ← call u.commit
  pure (json site.toValue)

def deleteSite (r : Request) (raw : String) : ApiM Answer := do
  let u ← unitOf r
  let id ← idSegment raw
  let (_, u) ← call (u.deleteSite id)
  let _ ← call u.commit
  pure noContent

end LayeredConfig.Http
