import LayeredConfig.Path
import LayeredConfig.Text.Blank
import LayeredConfig.Error
import LayeredConfig.Value

/-!
# The sites registry

A site has a root directory and applications with directories of their own; each
directory owns a level file. Adding and updating keep what `validate` demands of a
site, and that no two sites share an id or, up to ASCII case, a name. All checks of a
call come before its change.
-/

set_option autoImplicit false

namespace LayeredConfig

structure Application where
  path : String
  physicalPath : String
  deriving DecidableEq, Repr

structure Site where
  id : Int
  name : String
  physicalPath : String
  autoStart : Bool
  applications : List Application
  deriving DecidableEq, Repr

/-- A site to be created; without an id it gets the next one. -/
structure NewSite where
  id : Option Int
  name : String
  physicalPath : String
  autoStart : Bool
  applications : List Application
  deriving DecidableEq, Repr

structure SiteUpdate where
  name : Option String
  physicalPath : Option String
  autoStart : Option Bool
  applications : Option (List Application)
  deriving DecidableEq, Repr

def NewSite.withId (s : NewSite) (id : Int) : Site :=
  ⟨id, s.name, s.physicalPath, s.autoStart, s.applications⟩

def SiteUpdate.apply (u : SiteUpdate) (s : Site) : Site :=
  { s with
    name := u.name.getD s.name
    physicalPath := u.physicalPath.getD s.physicalPath
    autoStart := u.autoStart.getD s.autoStart
    applications := u.applications.getD s.applications }

namespace Site

def validateDirectory (path : String) : Except ConfigError Unit :=
  match Path.normalize? path with
  | none => .error (.validation (.parentSegment path))
  | some normal => if normal = "/" then .error (.validation .physicalPath) else .ok ()

def validateApplication (a : Application) : Except ConfigError Unit :=
  match Path.normalize? a.path with
  | none => .error (.validation (.parentSegment a.path))
  | some normal =>
    if normal = "/" then .error (.validation .applicationPath)
    else validateDirectory a.physicalPath

def validate (s : Site) : Except ConfigError Unit := do
  if s.id ≤ 0 then .error (.validation .siteId)
  if (Text.trim s.name).isEmpty then .error (.validation .siteName)
  validateDirectory s.physicalPath
  s.applications.forM validateApplication

end Site

def sameName (a b : String) : Bool :=
  a.toList.map Char.toLower == b.toList.map Char.toLower

structure Sites where
  entries : List Site
  deriving DecidableEq, Repr

namespace Sites

def empty : Sites := ⟨[]⟩

def find? (s : Sites) (id : Int) : Option Site := s.entries.find? (·.id == id)

def greatestId (s : Sites) : Int :=
  match s.entries.map (·.id) with
  | [] => 0
  | id :: ids => ids.foldl max id

/-- One more than the greatest id, in 64-bit arithmetic. -/
def nextId (s : Sites) : Int := Int.bmod (s.greatestId + 1) Decimal.wordCount

def replace (id : Int) (site : Site) : List Site → List Site
  | [] => []
  | s :: rest => if s.id = id then site :: rest else s :: replace id site rest

def setAutoStart (s : Sites) (id : Int) (value : Bool) : Option Sites :=
  (s.find? id).map fun site => ⟨replace id { site with autoStart := value } s.entries⟩

end Sites

/-- A call on a registry leaves one behind whether it succeeds or fails. -/
abbrev SitesM := ExceptT ConfigError (StateM Sites)

namespace SitesM

def check (x : Except ConfigError Unit) : SitesM Unit := fun s => (x, s)

def add (site : Site) : SitesM Unit := do
  check site.validate
  let s ← get
  if (s.find? site.id).isSome then throw (.alreadyExists (.siteId site.id))
  if s.entries.any (sameName ·.name site.name) then throw (.alreadyExists (.siteName site.name))
  set (Sites.mk (s.entries ++ [site]))

def update (id : Int) (u : SiteUpdate) : SitesM Site := do
  let s ← get
  match s.find? id with
  | none => throw (.notFound (.site id))
  | some old =>
    let site := u.apply old
    check site.validate
    if s.entries.any fun other => other.id != id && sameName other.name site.name then
      throw (.alreadyExists (.siteName site.name))
    set (Sites.mk (Sites.replace id site s.entries))
    pure site

def remove (id : Int) : SitesM Site := do
  let s ← get
  match s.find? id with
  | none => throw (.notFound (.site id))
  | some site =>
    set (Sites.mk (s.entries.eraseP (·.id == id)))
    pure site

/-- The answer of a call with the registry that it leaves, for who has no use for the registry
after an error. -/
def answer {α : Type} (x : SitesM α) (s : Sites) : Except ConfigError (α × Sites) :=
  match x s with
  | (.ok a, s') => .ok (a, s')
  | (.error e, _) => .error e

end SitesM

namespace Sites

def add (s : Sites) (site : Site) : Except ConfigError Sites :=
  ((SitesM.add site).answer s).map Prod.snd

def update (s : Sites) (id : Int) (u : SiteUpdate) : Except ConfigError (Site × Sites) :=
  (SitesM.update id u).answer s

def remove (s : Sites) (id : Int) : Except ConfigError (Site × Sites) :=
  (SitesM.remove id).answer s

end Sites

end LayeredConfig
