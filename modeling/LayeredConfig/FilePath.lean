import LayeredConfig.Text.Split

/-!
# Paths of files

A path is a text of pieces between slashes. Empty pieces and single dots add nothing,
except for an empty first piece, which is the root, and a first piece that is a dot.
-/

set_option autoImplicit false

namespace LayeredConfig.FilePath

def pieces (path : String) : List String :=
  (Text.splitOn (· == '/') path.toList).map String.ofList

def isAbsolute (path : String) : Bool := path.toList.head? == some '/'

def addsNothing (piece : String) : Bool := piece = "" || piece = "."

def trimReverse : List String → List String
  | piece :: next :: rest =>
    if addsNothing piece then trimReverse (next :: rest) else piece :: next :: rest
  | pieces => pieces

def significant (path : String) : List String := trimReverse (pieces path).reverse

def ofPieces (pieces : List String) : String := "/".intercalate pieces

def join (dir name : String) : String :=
  if dir = "" || dir.toList.getLast? = some '/' then dir ++ name else dir ++ "/" ++ name

/-- The directory that holds what a path names. The root and the empty path have none. -/
def parent? (path : String) : Option String :=
  match significant path with
  | [] | [""] => none
  | _ :: above =>
    match trimReverse above with
    | [""] => some "/"
    | above => some (ofPieces above.reverse)

def addExtension? (path ext : String) : Option String :=
  match significant path with
  | [] => none
  | last :: above =>
    if addsNothing last || last = ".." then none
    else some (ofPieces ((last ++ "." ++ ext) :: above).reverse)

example : parent? "/a//b/" = some "/a" ∧ parent? "/a" = some "/" ∧ parent? "a" = some "" := by
  decide +kernel
example : parent? "/" = none ∧ parent? "./a" = some "." ∧ parent? "." = some "" := by decide +kernel
example : addExtension? "/a/b/" "x" = some "/a/b.x" ∧ addExtension? "/a/.." "x" = none := by
  decide +kernel

end LayeredConfig.FilePath
