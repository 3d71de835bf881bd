import LayeredConfig.Error

/-!
# File trees

A tree of directories and files without links, as a map from absolute paths to what
is there, kept apart by depth below the root. The root always exists. A path that is too long as a whole is refused at once.
Otherwise a call looks its path up name by name: a name that is missing, is no directory,
or is too long stops it, whichever comes first.
`get?_set` and `get?_erase` say what the two updates do to the view `get?`; every
call that changes the tree is built from them.
-/

set_option autoImplicit false

namespace LayeredConfig

inductive Content where
  | text (s : String)
  | binary (bytes : List UInt8)
  deriving DecidableEq, Repr

inductive Node where
  | directory
  | file (content : Content)
  deriving DecidableEq, Repr

abbrev Names := List String

abbrev Floor := List (Names × Node)

structure FileTree where
  floors : List Floor
  deriving DecidableEq, Repr

namespace FileTree

def empty : FileTree := ⟨[]⟩

def entries (t : FileTree) : List (Names × Node) := t.floors.flatten

def find? (path : Names) : Floor → Option Node
  | [] => none
  | (p, node) :: rest => if p = path then some node else find? path rest

def floor (floors : List Floor) (depth : Nat) : Floor := floors[depth]?.getD []

def onFloor (f : Floor → Floor) : Nat → List Floor → List Floor
  | 0, [] => [f []]
  | 0, here :: below => f here :: below
  | depth + 1, [] => [] :: onFloor f depth []
  | depth + 1, here :: below => here :: onFloor f depth below

def get? (t : FileTree) (path : Names) : Option Node :=
  if path = [] then some .directory else find? path (floor t.floors path.length)

def without (path : Names) (here : Floor) : Floor := here.filter fun e => e.1 != path

def set (t : FileTree) (path : Names) (node : Node) : FileTree :=
  ⟨onFloor (fun here => (path, node) :: without path here) path.length t.floors⟩

def erase (t : FileTree) (path : Names) : FileTree :=
  ⟨onFloor (without path) path.length t.floors⟩

def eraseAll (t : FileTree) (path : Names) : FileTree :=
  ⟨t.floors.map (·.filter fun e => !path.isPrefixOf e.1)⟩

theorem floor_onFloor (f : Floor → Floor) (depth d : Nat) (floors : List Floor) :
    floor (onFloor f depth floors) d =
      if depth = d then f (floor floors d) else floor floors d := by
  induction depth generalizing d floors with
  | zero => cases floors <;> cases d <;> simp [onFloor, floor]
  | succ depth ih =>
    cases floors with
    | nil => cases d with
      | zero => simp [onFloor, floor]
      | succ d => simpa [onFloor, floor] using ih d []
    | cons here below => cases d with
      | zero => simp [onFloor, floor]
      | succ d => simpa [onFloor, floor] using ih d below

theorem find?_without (path p : Names) (here : Floor) :
    find? p (without path here) = if path = p then none else find? p here := by
  induction here with
  | nil => simp [without, find?]
  | cons e rest ih =>
    obtain ⟨q, node⟩ := e
    simp only [without] at ih
    by_cases hq : q = path
    · subst hq
      simp only [without, List.filter_cons, bne_self_eq_false, Bool.false_eq_true, if_false, ih,
        find?]
      split <;> rfl
    · simp only [without, List.filter_cons, bne_iff_ne, ne_eq, hq, not_false_eq_true, if_true,
        find?, ih]
      by_cases hp : q = p
      · subst hp; simp [Ne.symm hq]
      · simp [hp]

theorem get?_set (t : FileTree) (path p : Names) (node : Node) (h : path ≠ []) :
    (t.set path node).get? p = if path = p then some node else t.get? p := by
  unfold get? set
  by_cases hp : p = []
  · subst hp; simp [h]
  · simp only [hp, if_false, floor_onFloor]
    by_cases hl : path.length = p.length
    · simp only [hl, if_true, find?, find?_without]
      split <;> rfl
    · have : path ≠ p := fun e => hl (by rw [e])
      simp [hl, this]

theorem get?_erase (t : FileTree) (path p : Names) (h : path ≠ []) :
    (t.erase path).get? p = if path = p then none else t.get? p := by
  unfold get? erase
  by_cases hp : p = []
  · subst hp; simp [h]
  · simp only [hp, if_false, floor_onFloor]
    by_cases hl : path.length = p.length
    · simp only [hl, if_true, find?_without]
    · have : path ≠ p := fun e => hl (by rw [e])
      simp [hl, this]

def maxName : Nat := 255

def pathLimit : Nat := 4096

def pathFault? (path : String) : Option IoFault :=
  if path.toList.contains '\x00' then some .badName
  else if pathLimit ≤ path.utf8ByteSize then some .nameTooLong
  else none

def entry (t : FileTree) (path : Names) : Except IoFault Node :=
  if ((path.getLast?.map String.utf8ByteSize).getD 0) > maxName then .error .nameTooLong
  else match t.get? path with
    | some node => .ok node
    | none => .error .notFound

def walk (t : FileTree) (above : Names) : Names → Except IoFault Unit
  | [] => .ok ()
  | name :: names =>
    match t.entry (above ++ [name]) with
    | .error e => .error e
    | .ok (.file _) => .error .notDirectory
    | .ok .directory => t.walk (above ++ [name]) names

def lookup (t : FileTree) (path : Names) (asDirectory : Bool) : Except IoFault Node := do
  t.walk [] path.dropLast
  let node ← t.entry path
  match node, asDirectory with
  | .file _, true => .error .notDirectory
  | node, _ => .ok node

def isDirectory (t : FileTree) (path : Names) : Bool := t.get? path == some .directory

def readText (t : FileTree) (path : Names) (asDirectory : Bool) : Except IoFault String := do
  match ← t.lookup path asDirectory with
  | .directory => .error .isDirectory
  | .file (.text s) => .ok s
  | .file (.binary _) => .error .notText

def createNew (t : FileTree) (path : Names) : Except IoFault FileTree := do
  t.walk [] path.dropLast
  match t.entry path with
  | .ok _ => .error .present
  | .error .notFound => .ok (t.set path (.file (.text "")))
  | .error e => .error e

def writeText (t : FileTree) (path : Names) (s : String) : Except IoFault FileTree := do
  t.walk [] path.dropLast
  match t.entry path with
  | .ok .directory => .error .isDirectory
  | .ok (.file _) => .ok (t.set path (.file (.text s)))
  | .error .notFound => .ok (t.set path (.file (.text s)))
  | .error e => .error e

def removeFile (t : FileTree) (path : Names) (asDirectory : Bool) : Except IoFault FileTree := do
  match ← t.lookup path asDirectory with
  | .directory => .error .isDirectory
  | .file _ => .ok (t.erase path)

inductive Ending where
  | plain
  | slash
  | dot
  deriving DecidableEq, Repr

def Ending.asDirectory : Ending → Bool
  | .plain => false
  | _ => true

def rename (t : FileTree) (source target : Names) (ending : Ending) : Except IoFault FileTree := do
  let node ← t.lookup source false
  match ending with
  | .dot =>
    t.walk [] target
    .error .busy
  | .slash =>
    t.walk [] target.dropLast
    .error .notDirectory
  | .plain =>
    t.walk [] target.dropLast
    match t.entry target with
    | .ok .directory => .error .isDirectory
    | .ok (.file _) => .ok ((t.erase source).set target node)
    | .error .notFound => .ok ((t.erase source).set target node)
    | .error e => .error e

/-- Create the directories that are missing on the way from `above` down. Those made
before a failure stay. -/
def createDirs (t : FileTree) (above : Names) : Names → FileTree × Option IoFault
  | [] => (t, none)
  | name :: names =>
    let path := above ++ [name]
    match t.entry path with
    | .ok .directory => t.createDirs path names
    | .ok (.file _) => (t, some .notDirectory)
    | .error .notFound => (t.set path .directory).createDirs path names
    | .error e => (t, some e)

/-- Create a directory with its parents. A path that ends in a dot has to be there
already; its parents are created nonetheless. -/
def createDirAll (t : FileTree) (path : Names) (ending : Ending) : FileTree × Option IoFault :=
  match ending with
  | .dot =>
    match t.walk [] path with
    | .ok () => (t, none)
    | .error .notFound =>
      let (t, fault) := t.createDirs [] path.dropLast
      (t, fault.or (some .notFound))
    | .error e => (t, some e)
  | _ => t.createDirs [] path

end FileTree

end LayeredConfig
