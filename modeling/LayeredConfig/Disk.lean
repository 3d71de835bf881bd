import LayeredConfig.FilePath
import LayeredConfig.FileTree
import LayeredConfig.Text.Utf8

/-!
# Disks

What the program itself does with files, whose paths are texts. The operations are a
record, so the same program runs on a file tree and on the files of a machine.
`FileTree.disk` is the disk of a tree with a working directory. A piece of two dots
leads from a directory, which has to be there, to the one that holds it.
-/

set_option autoImplicit false

namespace LayeredConfig

structure Disk (m : Type → Type) where
  isFile : String → m Bool
  isDirectory : String → m Bool
  isThere : String → m Bool
  /-- The text of a file, in which bytes that are no text are replaced. -/
  read? : String → m (Option String)
  createDirectories : String → m Bool
  write : String → String → m Bool

namespace FileTree

open FilePath (addsNothing)

def pathEnding (path : String) : Ending :=
  match ((FilePath.pieces path).filter (· != "")).getLast? with
  | some "." => .dot
  | _ => if (FilePath.pieces path).getLast? = some "" then .slash else .plain

def start (cwd : Names) (path : String) : Names := if FilePath.isAbsolute path then [] else cwd

def follow (t : FileTree) (here : Names) : List String → Option Names
  | [] => some here
  | ".." :: rest => if (t.walk [] here).isOk then t.follow here.dropLast rest else none
  | piece :: rest => t.follow (if addsNothing piece then here else here ++ [piece]) rest

def isPath (path : String) : Bool := path != "" && (pathFault? path).isNone

def locate? (t : FileTree) (cwd : Names) (path : String) : Option Names :=
  if isPath path then t.follow (start cwd path) (FilePath.pieces path) else none

def nodeAt? (t : FileTree) (cwd : Names) (path : String) : Option Node := do
  let names ← t.locate? cwd path
  (t.lookup names (pathEnding path).asDirectory).toOption

def contentText : Content → String
  | .text s => s
  | .binary bytes => Text.utf8Lossy bytes

def createAlong (t : FileTree) (here : Names) : List String → FileTree × Bool
  | [] => (t, true)
  | ".." :: rest => t.createAlong here.dropLast rest
  | piece :: rest =>
    if addsNothing piece then t.createAlong here rest
    else match t.createDirs here [piece] with
      | (t, none) => t.createAlong (here ++ [piece]) rest
      | (t, some _) => (t, false)

/-- A path that ends in a dot has to be there already; its parents are created
nonetheless. -/
def createPath (t : FileTree) (cwd : Names) (path : String) : FileTree × Bool :=
  let pieces := (FilePath.pieces path).filter fun piece => !addsNothing piece
  if path = "" then (t, true)
  else if !isPath path then (t, false)
  else if pathEnding path = .dot && t.nodeAt? cwd path != some .directory then
    ((t.createAlong (start cwd path) pieces.dropLast).1, false)
  else t.createAlong (start cwd path) pieces

def writePath (t : FileTree) (cwd : Names) (path s : String) : Option FileTree := do
  let names ← t.locate? cwd path
  if pathEnding path = .plain then (t.writeText names s).toOption else none

def disk (cwd : Names) : Disk (StateM FileTree) where
  isFile path := do
    match (← get).nodeAt? cwd path with
    | some (.file _) => pure true
    | _ => pure false
  isDirectory path := do pure ((← get).nodeAt? cwd path == some .directory)
  isThere path := do pure ((← get).nodeAt? cwd path).isSome
  read? path := do
    match (← get).nodeAt? cwd path with
    | some (.file content) => pure (some (contentText content))
    | _ => pure none
  createDirectories path := modifyGet fun t => ((t.createPath cwd path).2, (t.createPath cwd path).1)
  write path s := modifyGet fun t =>
    match t.writePath cwd path s with
    | some t => (true, t)
    | none => (false, t)

end FileTree

end LayeredConfig
