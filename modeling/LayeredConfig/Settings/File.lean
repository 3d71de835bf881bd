import LayeredConfig.Disk
import LayeredConfig.Settings.Expansion
import LayeredConfig.Settings.Reading
import LayeredConfig.Text.Quoted
import LayeredConfig.Toml.Printer
import LayeredConfig.Toml.Reader

/-!
# The settings file

Where the settings file lies, how it is loaded and how a new one is written. A file
that is not there is no fault; the settings are then the standard ones.
-/

set_option autoImplicit false

namespace LayeredConfig

inductive SettingsError where
  | undefinedVariable (name : String)
  | notToml (file : String)
  | wrongShape
  | tooLarge
  | directoryNotCreated (dir : String)
  | fileNotWritten (file : String)
  deriving DecidableEq, Repr

def SettingsError.message : SettingsError → String
  | .undefinedVariable _ => "expanding path"
  | .notToml file => s!"loading config from {file}"
  | .wrongShape => "deserializing configuration"
  | .tooLarge => "serializing config to TOML"
  | .directoryNotCreated dir => s!"creating config directory {Text.quoted dir}"
  | .fileNotWritten file => s!"writing config file to {file}"

namespace Settings

abbrev FileM (m : Type → Type) := ExceptT SettingsError m

variable {m : Type → Type} [Monad m]

def fileName : String := "config.toml"

def expandPath (e : Environment) (text : String) : FileM m String :=
  match e.expand text with
  | .ok path => pure path
  | .error name => throw (.undefinedVariable name)

def standardDirectory (e : Environment) : String :=
  FilePath.join (e.configHome?.getD (FilePath.join e.home ".config")) programName

def locate (disk : Disk m) (e : Environment) : Option String → FileM m String
  | none => pure (FilePath.join (standardDirectory e) fileName)
  | some text => do
    let path ← expandPath e text
    if ← disk.isDirectory path then pure (FilePath.join path fileName) else pure path

/-- The file that is read for a path: itself, or the one with an extension more. -/
def source? (disk : Disk m) (path : String) : m (Option String) := do
  if ← disk.isFile path then pure (some path)
  else match FilePath.addExtension? path "toml" with
    | none => pure none
    | some other => do if ← disk.isFile other then pure (some other) else pure none

/-- The settings file may be written in the newer form of TOML, and its keys may have
any number of parts. -/
def dialect : Toml.Dialect where
  keyParts := none
  openContainers := 80
  looseTables := true
  shortEscapes := true
  keepsCarriage := true
  negativeOverflow := false
  extendsParents := true
  times := ⟨true, true, 23, 23, 59, 1439⟩
  dateTables := none

/-- The text of the file, without a byte order mark; the text of a document may begin
with another one. -/
def fileText (disk : Disk m) (path : String) : m String := do
  match ← source? disk path with
  | none => pure ""
  | some file => do
    let text := ((← disk.read? file).getD "").toList
    pure (String.ofList (Toml.skipByteOrderMark text))

def load (disk : Disk m) (e : Environment) (path : String) : FileM m Settings := do
  let text ← (fileText disk path : m String)
  match Toml.parse? dialect text with
  | none => throw (.notToml path)
  | some file =>
    match ofLayers? file e with
    | some s => pure s
    | none => throw .wrongShape

def newFileText (path : String) : String :=
  s!"# Configuration for {programName}\n# File: {path}\n\n" ++ Toml.print standard.toToml

def writeNew (disk : Disk m) (path : String) : FileM m Unit := do
  match FilePath.parent? path with
  | none => pure ()
  | some dir => if !(← disk.createDirectories dir) then throw (.directoryNotCreated dir)
  if !(← disk.write path (newFileText path)) then throw (.fileNotWritten path)

def storeDirectory (e : Environment) (s : Settings) : FileM m String := expandPath e s.storeRoot

def tomlText (s : Settings) : Except SettingsError String :=
  if s.isWritable then .ok (Toml.print s.toToml) else .error .tooLarge

end Settings

end LayeredConfig
