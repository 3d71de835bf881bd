import LayeredConfig.Scope
import LayeredConfig.Sites.Basic

/-!
# Level chains

The levels that bear on a scope, from the global level to the most specific one: for
a path in a site these are the site and every application whose path covers it, the
shorter first. A path between two applications belongs to the one above it.
-/

set_option autoImplicit false

namespace LayeredConfig

structure LevelRef where
  location : String
  file : String
  deriving DecidableEq, Repr

namespace Chain

def hostLocation : String := "host"

def hostFile : String := "host.toml"

def levelFileName : String := "web.toml"

def levelFile (directory : String) : String :=
  let directory := Text.trimBy (· == '/') directory
  if directory.isEmpty then levelFileName else s!"{directory}/{levelFileName}"

def normalApplication (a : Application) : Except ConfigError (String × Application) :=
  match Path.normalize? a.path with
  | some path => .ok (path, a)
  | none => .error (.validation (.parentSegment a.path))

/-- The applications that cover a path, by the depth of their paths; of equal paths
the order of the registry stays. -/
def boundaries (path : String) (applications : List (String × Application)) :
    List (String × Application) :=
  (applications.filter fun (above, _) => above != "/" && Path.covers above path).mergeSort
    fun a b => Path.depth a.1 ≤ Path.depth b.1

def applicationLevel (site : Site) (a : String × Application) : LevelRef :=
  ⟨site.name ++ a.1, levelFile a.2.physicalPath⟩

def siteLevels (site : Site) (path : String) : Except ConfigError (List LevelRef) := do
  let applications ← site.applications.mapM normalApplication
  pure (⟨site.name, levelFile site.physicalPath⟩ ::
    (boundaries path applications).map (applicationLevel site))

def hostLevel (host : String) : LevelRef := ⟨hostLocation, host⟩

/-- The chain of a scope, never empty; `host` is the file of the global level. -/
def resolve (host : String) (scope : Scope) (sites : Sites) : Except ConfigError (List LevelRef) :=
  match scope with
  | .file name => .ok [if name = host then hostLevel host else ⟨name, name⟩]
  | .global => .ok [hostLevel host]
  | .site id path =>
    match sites.find? id with
    | none => .error (.notFound (.site id))
    | some site => do pure (hostLevel host :: (← siteLevels site path))

end Chain

end LayeredConfig
