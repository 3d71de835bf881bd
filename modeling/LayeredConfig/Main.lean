import LayeredConfig.CommandLine.Program

/-!
# The command line

Runs the program on the files of the machine. The variables are those that the process
was started with, as the system lists them.
-/

set_option autoImplicit false

namespace LayeredConfig.CommandLine

def succeeds (x : IO Unit) : IO Bool := do
  try
    x
    pure true
  catch _ => pure false

def isPresent (path : String) : IO Bool :=
  succeeds (do let _ ← IO.FS.realPath path)

/-- A directory is a path that a single dot may follow. -/
def isFolder (path : String) : IO Bool :=
  if path = "" then pure false else isPresent (FilePath.join path ".")

def isRegular (path : String) : IO Bool := do
  pure ((← isPresent path) && !(← isFolder path))

def readFile? (path : String) : IO (Option String) := do
  try
    let bytes ← IO.FS.readBinFile path
    pure (some (Text.utf8Lossy bytes.data.toList))
  catch _ => pure none

def machine : Disk IO where
  isFile := isRegular
  isDirectory := isFolder
  isThere := isPresent
  read? := readFile?
  createDirectories path := if path = "" then pure true else succeeds (IO.FS.createDirAll path)
  write path text := succeeds (IO.FS.writeFile path text)

def environmentFile : String := "/proc/self/environ"

def environment : IO Environment := do
  let listing := (← readFile? environmentFile).getD ""
  let entries := (Text.splitOn (· == '\x00') listing.toList).filter (!·.isEmpty)
  pure ⟨entries.map fun entry =>
    let (name, value) := entry.span (· != '=')
    (String.ofList name, String.ofList (value.drop 1))⟩

def start (arguments : List String) : IO UInt32 := do
  let result ← run machine (← environment) arguments
  IO.print result.output
  IO.eprint result.complaint
  pure result.code.toUInt32

end LayeredConfig.CommandLine

def main (arguments : List String) : IO UInt32 := LayeredConfig.CommandLine.start arguments
