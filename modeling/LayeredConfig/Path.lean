import LayeredConfig.Text.Split

/-!
# Request paths

A path is read as its segments: the pieces between slashes of either direction
that are neither empty nor a single dot. Two paths with the same segments are the
same path. A path with a parent segment `..` has no normal form.
-/

set_option autoImplicit false

namespace LayeredConfig.Path

def isSeparator (c : Char) : Bool := c = '/' || c = '\\'

def pieces (path : String) : List (List Char) := Text.splitOn isSeparator path.toList

def hasParent (path : String) : Bool := (pieces path).contains ['.', '.']

def segments (path : String) : List (List Char) :=
  (pieces path).filter fun piece => piece != [] && piece != ['.']

def ofSegments (segments : List (List Char)) : String :=
  String.ofList ('/' :: Text.join '/' segments)

def normalize? (path : String) : Option String :=
  if hasParent path then none else some (ofSegments (segments path))

def isRoot (path : String) : Bool := normalize? path == some "/"

def covers (above path : String) : Bool :=
  path == above || (above.toList ++ ['/']).isPrefixOf path.toList

def depth (path : String) : Nat := path.toList.count '/'

end LayeredConfig.Path
