import LayeredConfig.Path
import LayeredConfig.Text.Blank
import LayeredConfig.Error
import LayeredConfig.Decimal.Layout

/-!
# Scopes

A scope is the address of a place in the configuration: the global level, a path
inside a site, or one level file named directly. The path of a site scope is
normal.
-/

set_option autoImplicit false

namespace LayeredConfig

inductive Scope where
  | global
  | site (id : Int) (path : String)
  | file (name : String)
  deriving DecidableEq, Repr

namespace Scope

def siteId? : Scope → Option Int
  | .site id _ => some id
  | _ => none

def path : Scope → String
  | .site _ path => path
  | _ => "/"

def file? : Scope → Option String
  | .file name => some name
  | _ => none

def text : Scope → String
  | .global => "global"
  | .site id path => s!"site:{Decimal.intText id}{path}"
  | .file name => s!"file:{name}"

def inSite (id : Int) (path : String) : Except ConfigError Scope :=
  match Path.normalize? path with
  | some path => .ok (.site id path)
  | none => .error (.validation (.parentSegment path))

/-- The name of a level file: blanks around it and slashes before it do not count. -/
def trimFile (name : String) : String :=
  Text.trimStartBy (· == '/') (Text.trim name)

def ofFile (name : String) : Except ConfigError Scope :=
  let name := trimFile name
  if name.isEmpty then .error (.validation .emptyFile)
  else if Path.hasParent name then .error (.validation (.parentSegment name))
  else .ok (.file name)

/-- The scope of optional request parameters. A path besides the root needs a site,
and a file goes with nothing else. -/
def ofParts (siteId : Option Int) (path file : Option String) : Except ConfigError Scope :=
  let rootOnly := path.all Path.isRoot
  match siteId, file with
  | some _, some _ => .error (.validation .fileWithSite)
  | none, some file => if rootOnly then ofFile file else .error (.validation .fileWithPath)
  | some id, none => inSite id (path.getD "/")
  | none, none => if rootOnly then .ok .global else .error (.validation .pathWithoutSite)

end Scope

end LayeredConfig
