import LayeredConfig.Decimal.Integer
import LayeredConfig.Settings.Layers

/-!
# Reading settings

The settings that merged layers denote. Scalars of other kinds are converted as far
as they have a meaning: an integer may be given as a truth value, a number or a text,
and a text as any scalar. A section may also be the list of its fields. Sections and
fields that are left out have their standard values, and unknown ones are passed over.
-/

set_option autoImplicit false

namespace LayeredConfig.Settings

def maxWord : Nat := Decimal.wordCount - 1

def wordOfFloat (x : Binary64) : Nat :=
  if x.isNaN then 0
  else if x.isFinite then min x.roundHalfAway.toNat maxWord
  else if x.isNegative then 0 else maxWord

def wordOfText? (s : String) : Option Nat :=
  let lower := String.ofList (s.toList.map Char.toLower)
  if ["true", "on", "yes"].contains lower then some 1
  else if ["false", "off", "no"].contains lower then some 0
  else Decimal.word64? s

def word? : Toml → Option Nat
  | .integer n => if 0 ≤ n then some n.toNat else none
  | .boolean b => some (if b then 1 else 0)
  | .float x => some (wordOfFloat x)
  | .string s => wordOfText? s
  | _ => none

def portNumber? (t : Toml) : Option Nat := (word? t).filter (· < 0x10000)

/-- The text of a number; integers have no point. -/
def floatText (x : Binary64) : String :=
  if x.isNaN then "NaN"
  else if !x.isFinite then (if x.isNegative then "-inf" else "inf")
  else
    let s := Decimal.positional x
    if s.endsWith ".0" then String.ofList (s.toList.dropLast.dropLast) else s

def text? : Toml → Option String
  | .string s => some s
  | .boolean b => some (if b then "true" else "false")
  | .integer n => some (Decimal.intText n)
  | .float x => some (floatText x)
  | .dateTime t => some t.text
  | _ => none

def fields? (names : List String) : Option Setting → Option (String → Option Setting)
  | none => some fun _ => none
  | some (.table entries) => some (Table.get? entries)
  | some (.list items) => some fun name => items[names.idxOf name]?
  | some _ => none

def field {α : Type} (read : Toml → Option α) (standard : α) : Option Setting → Option α
  | none => some standard
  | some (.scalar v) => read v
  | some _ => none

def ofSetting? (root : Setting) : Option Settings := do
  let section? := Table.get? root.entries
  let server ← fields? ["host", "port"] (section? "server")
  let store ← fields? ["root"] (section? "store")
  let transactions ← fields? ["idle_timeout_secs", "sweep_interval_secs"] (section? "transactions")
  let logging ← fields? ["level"] (section? "logging")
  some {
    host := ← field text? standard.host (server "host")
    portNumber := ← field portNumber? standard.portNumber (server "port")
    storeRoot := ← field text? standard.storeRoot (store "root")
    idleTimeout := ← field word? standard.idleTimeout (transactions "idle_timeout_secs")
    sweepInterval := ← field word? standard.sweepInterval (transactions "sweep_interval_secs")
    logLevel := ← field text? standard.logLevel (logging "level") }

def ofLayers? (file : List (String × Toml)) (e : Environment) : Option Settings :=
  let base := Setting.placeAll (.table []) standard.toToml
  ofSetting? (Setting.placeAll (Setting.placeAll base file) (Setting.ofEnvironment e))

end LayeredConfig.Settings
