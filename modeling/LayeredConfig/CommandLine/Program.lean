import LayeredConfig.Chain
import LayeredConfig.CommandLine.Address
import LayeredConfig.CommandLine.Arguments
import LayeredConfig.Json.Printer
import LayeredConfig.Settings.File

/-!
# The program

What each verb does, over any disk. The settings are loaded before anything else, so
a settings file that cannot be read is told even by a verb that does not need it.
-/

set_option autoImplicit false

namespace LayeredConfig.CommandLine

inductive ProgramError where
  | settings (e : SettingsError)
  | alreadyThere (file : String)
  | rootNotCreated (root : String)
  | hostFileNotWritten (file : String)
  | invalidAddress
  | notBound
  deriving DecidableEq, Repr

def ProgramError.message : ProgramError → String
  | .settings e => e.message
  | .alreadyThere file => s!"config already exists at {file} (use --force to overwrite)"
  | .rootNotCreated root => s!"creating store root {root}"
  | .hostFileNotWritten file => s!"writing {file}"
  | .invalidAddress => "invalid address"
  | .notBound => "binding to address"

structure Exit where
  code : Nat
  output : String
  complaint : String
  deriving DecidableEq, Repr

variable {m : Type → Type} [Monad m]

abbrev ProgramM (m : Type → Type) := ExceptT ProgramError m

def liftSettings {α : Type} (x : Settings.FileM m α) : ProgramM m α :=
  ExceptT.adapt ProgramError.settings x

def prepareStore (disk : Disk m) (root : String) : ProgramM m Unit := do
  if !(← disk.createDirectories root) then throw (.rootNotCreated root)
  let file := FilePath.join root Chain.hostFile
  if !(← disk.isThere file) then
    if !(← disk.write file "") then throw (.hostFileNotWritten file)

def setUp (disk : Disk m) (e : Environment) (file : String) (force : Bool) :
    ProgramM m String := do
  if (← disk.isThere file) && !force then throw (.alreadyThere file)
  liftSettings (Settings.writeNew disk file)
  let s ← liftSettings (Settings.load disk e file)
  prepareStore disk (← liftSettings (s.storeDirectory e))
  pure ""

/-- Prepare the store and see that the server can listen; it writes nothing itself. -/
def serve (disk : Disk m) (e : Environment) (s : Settings) (a : Arguments) :
    ProgramM m String := do
  let root ← liftSettings (Settings.expandPath e (a.storeRoot.getD s.storeRoot))
  prepareStore disk root
  match Address.ofHost? (a.host.getD s.host) with
  | none => throw .invalidAddress
  | some address => if address.isOwn then pure "" else throw .notBound

def showSettings (s : Settings) (json : Bool) : Except SettingsError String :=
  if json then .ok (Json.pretty s.toValue ++ "\n")
  else s.tomlText.map (· ++ "\n")

def perform (disk : Disk m) (e : Environment) (a : Arguments) : ProgramM m String := do
  let file ← liftSettings (Settings.locate disk e a.config)
  let s ← liftSettings (Settings.load disk e file)
  match a.verb with
  | .setUp => setUp disk e file a.force
  | .serve => serve disk e s a
  | .configShow => liftSettings (ExceptT.mk (pure (showSettings s a.json)))
  | _ => pure (file ++ "\n")

def versionText (verb : Verb) : String := s!"{verb.title} 0.1.0\n"

def usageText : String :=
  s!"Usage: {programName} [OPTIONS] serve|init|config show|config path\n"

/-- A run of the program. Faults of the arguments have a code of their own. -/
def run (disk : Disk m) (e : Environment) (arguments : List String) : m Exit := do
  match Arguments.read arguments with
  | .error .usage => pure ⟨2, "", usageText⟩
  | .error .help => pure ⟨0, usageText, ""⟩
  | .error (.version verb) => pure ⟨0, versionText verb, ""⟩
  | .ok a =>
    match ← perform disk e a with
    | .ok output => pure ⟨0, output, ""⟩
    | .error fault => pure ⟨1, "", fault.message ++ "\n"⟩

end LayeredConfig.CommandLine
