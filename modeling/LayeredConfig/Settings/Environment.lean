/-!
# Environments

The variables that a program is started with, and the two directories that it takes
from them. A variable that is set to the empty text counts as set, but names no
directory.
-/

set_option autoImplicit false

namespace LayeredConfig

structure Environment where
  entries : List (String × String)
  deriving DecidableEq, Repr

namespace Environment

def valueIn? (name : String) : String × String → Option String
  | (key, value) =>
    let start := (name ++ "=").toList
    let entry := (key ++ "=" ++ value).toList
    if start.isPrefixOf entry then some (String.ofList (entry.drop start.length)) else none

/-- The value of a variable. Since an entry is searched as a whole, the name may itself
hold equals signs. -/
def get? (e : Environment) (name : String) : Option String :=
  if name = "" then none else e.entries.findSome? (valueIn? name)

def directory? (e : Environment) (name : String) : Option String :=
  (e.get? name).filter (· != "")

def defaultHome : String := "/root"

def home (e : Environment) : String := (e.directory? "HOME").getD defaultHome

def configHome? (e : Environment) : Option String := e.directory? "XDG_CONFIG_HOME"

end Environment

end LayeredConfig
