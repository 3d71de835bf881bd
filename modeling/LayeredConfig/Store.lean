import LayeredConfig.FilePath
import LayeredConfig.FileTree
import LayeredConfig.LevelDocument
import LayeredConfig.Text.Blank
import LayeredConfig.Text.Split

/-!
# The store of level files

Level files lie below one directory of a file tree. A file is replaced under a
lease, which is a lock file beside it; the new text goes into a temporary file, also
beside it, that then takes its place. A schedule of faults says which of the coming
calls fail before they do anything; without one, a store is as good as its tree.
-/

set_option autoImplicit false

namespace LayeredConfig

inductive StoreCall where
  | read
  | acquire
  | write
  | remove
  | createDir
  deriving DecidableEq, Repr

inductive FaultKind where
  | io
  | locked
  | missing
  deriving DecidableEq, Repr

/-- The `after`-th coming call of a kind fails, counted from one. -/
structure Fault where
  call : StoreCall
  after : Nat
  kind : FaultKind
  deriving DecidableEq, Repr

def FaultKind.error (kind : FaultKind) (path : String) : StoreError :=
  match kind with
  | .io => .io .diskFull
  | .locked => .locked path
  | .missing => .missing path

structure Lease where
  file : String
  lock : Names
  deriving DecidableEq, Repr

structure Store where
  root : Names
  tree : FileTree
  faults : List Fault
  deriving DecidableEq, Repr

abbrev StoreM := ExceptT StoreError (StateM Store)

structure Place where
  names : Names
  ending : FileTree.Ending
  text : String
  deriving DecidableEq, Repr

namespace Place

def relative (path : String) : String := Text.trimStartBy (· == '/') path

def isName (piece : String) : Bool := piece != "" && piece != "."

def endingOf (pieces : List String) : FileTree.Ending :=
  if (pieces.filter (· != "")).getLast? == some "." then .dot
  else if pieces.getLast? == some "" then .slash
  else .plain

def rootText (root : Names) : String := String.join (root.map ("/" ++ ·))

def ofPath? (root : Names) (path : String) : Option Place :=
  let pieces := FilePath.pieces (relative path)
  if pieces.contains ".." then none
  else some ⟨root ++ pieces.filter isName, endingOf pieces, rootText root ++ "/" ++ relative path⟩

def sibling (p : Place) (suffix : String) : Place :=
  let name := p.names.getLast?.getD "" ++ suffix
  ⟨p.names.dropLast ++ [name], .plain, FilePath.join ((FilePath.parent? p.text).getD "") name⟩

def fault? (p : Place) : Option IoFault := FileTree.pathFault? p.text

end Place

namespace Store

def strike (call : StoreCall) : List Fault → List Fault × Option FaultKind
  | [] => ([], none)
  | f :: rest =>
    let (rest, hit) := strike call rest
    if f.call != call then (f :: rest, hit)
    else match f.after with
      | 0 => (f :: rest, hit)
      | 1 => (rest, some f.kind)
      | n + 2 => ({ f with after := n + 1 } :: rest, hit)

def tick (call : StoreCall) (path : String) : StoreM Unit := do
  let s ← get
  let (faults, hit) := strike call s.faults
  set { s with faults := faults }
  match hit with
  | some kind => throw (kind.error path)
  | none => pure ()

def place (path : String) : StoreM Place := do
  match Place.ofPath? (← get).root path with
  | some p => pure p
  | none => throw (.invalidPath path)

def change (onFault : IoFault → StoreError) (p : Place)
    (f : FileTree → Except IoFault FileTree) : StoreM Unit := do
  let s ← get
  if let some e := p.fault? then throw (onFault e)
  match f s.tree with
  | .ok tree => set { s with tree := tree }
  | .error e => throw (onFault e)

def ioError (e : IoFault) : StoreError := .io e

def missingOr (file : String) : IoFault → StoreError
  | .notFound => .missing file
  | e => .io e

def read (file : String) : StoreM (Option String) := do
  tick .read file
  let p ← place file
  if let some e := p.fault? then throw (.io e)
  match (← get).tree.readText p.names p.ending.asDirectory with
  | .ok s => pure (some s)
  | .error .notFound => pure none
  | .error e => throw (.io e)

def load (file : String) : StoreM LevelDocument := do
  match ← read file with
  | none => pure .empty
  | some text =>
    match LevelDocument.parse text with
    | .ok d => pure d
    | .error fault => throw (.parse file fault)

def acquireError (file : String) : IoFault → StoreError
  | .present => .locked file
  | e => missingOr file e

def acquire (file : String) : StoreM Lease := do
  tick .acquire file
  let p ← place file
  let lock := p.sibling ".lock"
  change (acquireError file) lock (·.createNew lock.names)
  pure ⟨file, lock.names⟩

/-- Give a lease up. The lock may have gone before. -/
def release (lease : Lease) : StoreM Unit := do
  let s ← get
  match s.tree.removeFile lease.lock false with
  | .ok tree => set { s with tree := tree }
  | .error _ => pure ()

/-- Replace the text of a leased file. A fault of the schedule strikes before anything is written.
That the disk breaks off in the middle of the temporary text, which then stays beside the file, is
not modelled. -/
def write (lease : Lease) (text : String) : StoreM Unit := do
  tick .write lease.file
  let p ← place lease.file
  let temporary := p.sibling ".tmp"
  change (missingOr lease.file) temporary (·.writeText temporary.names text)
  let s ← get
  match p.fault?, s.tree.rename temporary.names p.names p.ending with
  | none, .ok tree => set { s with tree := tree }
  | some e, _ | none, .error e =>
    set { s with tree := s.tree.erase temporary.names }
    throw (missingOr lease.file e)

def remove (lease : Lease) : StoreM Unit := do
  tick .remove lease.file
  let p ← place lease.file
  let s ← get
  if let some e := p.fault? then throw (.io e)
  match s.tree.removeFile p.names p.ending.asDirectory with
  | .ok tree => set { s with tree := tree }
  | .error .notFound => pure ()
  | .error e => throw (.io e)

def createDir (dir : String) : StoreM Unit := do
  tick .createDir dir
  let p ← place dir
  if let some e := p.fault? then throw (.io e)
  let s ← get
  let (tree, fault) := s.tree.createDirAll p.names p.ending
  set { s with tree := tree }
  match fault with
  | some e => throw (.io e)
  | none => pure ()

end Store

end LayeredConfig
