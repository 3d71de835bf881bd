import LayeredConfig.Service

/-!
# Units of work

A unit gathers the edits of one request. By itself it keeps them and writes them all
at once when it commits; bound to a transaction it stages them there, reads through
what is staged there, and leaves the commit to the transaction. An edit that is
refused leaves the unit as it was.
-/

set_option autoImplicit false

namespace LayeredConfig

structure WorkUnit where
  transaction : Option String
  pending : StagedSet
  deriving DecidableEq, Repr

namespace WorkUnit

def new (transaction : Option String) : WorkUnit := ⟨transaction, .empty⟩

def overlay (u : WorkUnit) : ServiceM (Option StagedSet) :=
  match u.transaction with
  | some id => do pure (some (← Service.snapshot id))
  | none => pure (if u.pending.isEmpty then none else some u.pending)

def getSection (u : WorkUnit) (scope : Scope) (name : String) : ServiceM SectionView := do
  let overlay ← u.overlay
  Service.onStore (Access.getSection (← get).registry overlay scope name)

def prepare (u : WorkUnit) (scope : Scope) (name : String) (m : Mutation) : ServiceM Staged := do
  let overlay ← u.overlay
  let target ← Service.onStore (Access.checkWrite (← get).registry overlay scope name m)
  let change := Staged.of scope target name m
  Service.ofExcept ((← get).claims.check change u.transaction)
  pure change

def push (u : WorkUnit) (change : Staged) : ServiceM WorkUnit :=
  match u.transaction with
  | none => pure { u with pending := u.pending.stage change }
  | some id => do
    Service.stage id change
    pure u

def stage (u : WorkUnit) (scope : Scope) (name : String) (m : Mutation) : ServiceM WorkUnit := do
  let change ← u.prepare scope name m
  u.push change

def revert (u : WorkUnit) (scope : Scope) (name : String) : ServiceM (Bool × WorkUnit) := do
  let current ← u.getSection scope name
  if current.isLocal then
    pure (true, ← u.stage scope name .revert)
  else pure (false, u)

def commit (u : WorkUnit) : ServiceM WorkUnit :=
  if u.transaction.isSome || u.pending.isEmpty then pure u
  else do
    Service.applySet u.pending none
    pure { u with pending := .empty }

def sites (u : WorkUnit) : ServiceM Sites := do
  let overlay ← u.overlay
  Service.onStore (Access.sites overlay)

def getSite (u : WorkUnit) (id : Int) : ServiceM Site := do
  match (← u.sites).find? id with
  | some site => pure site
  | none => throw (.notFound (.site id))

def putSites (u : WorkUnit) (sites : Sites) : ServiceM WorkUnit :=
  u.stage .global Registry.sitesSection (.replace sites.toValue)

def createDirs : List String → ServiceM Unit
  | [] => pure ()
  | dir :: dirs => do
    Service.onStore (Access.onSection dir (Store.createDir dir))
    createDirs dirs

/-- Register a site and create its directories. These are created at once, before
the registry is written, once it is known that it could be. -/
def createSite (u : WorkUnit) (new : NewSite) : ServiceM (Site × WorkUnit) := do
  let sites ← u.sites
  let site := new.withId (new.id.getD sites.nextId)
  let sites ← Service.ofExcept (sites.add site)
  let change ← u.prepare .global Registry.sitesSection (.replace sites.toValue)
  createDirs (site.physicalPath :: site.applications.map (·.physicalPath))
  pure (site, ← u.push change)

def updateSite (u : WorkUnit) (id : Int) (update : SiteUpdate) : ServiceM (Site × WorkUnit) := do
  let sites ← u.sites
  let (site, sites) ← Service.ofExcept (sites.update id update)
  pure (site, ← u.putSites sites)

def deleteSite (u : WorkUnit) (id : Int) : ServiceM (Site × WorkUnit) := do
  let sites ← u.sites
  let (site, sites) ← Service.ofExcept (sites.remove id)
  pure (site, ← u.putSites sites)

end WorkUnit

end LayeredConfig
