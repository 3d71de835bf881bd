import LayeredConfig.Toml.Basic
import LayeredConfig.Value

/-!
# Settings

How the server itself is set up: where it listens, where its store lies, when pending
transactions expire and what it logs. Settings are shown in four sections, always in
the same order.
-/

set_option autoImplicit false

namespace LayeredConfig

def programName : String := "confhive"

structure Settings where
  host : String
  portNumber : Nat
  storeRoot : String
  idleTimeout : Nat
  sweepInterval : Nat
  logLevel : String
  deriving DecidableEq, Repr

namespace Settings

def standard : Settings where
  host := "127.0.0.1"
  portNumber := 8080
  storeRoot := "~/.local/share/confhive/store"
  idleTimeout := 900
  sweepInterval := 60
  logLevel := "info"

/-- The seconds between two sweeps, of which there is at least one. -/
def sweepPeriod (s : Settings) : Nat := max s.sweepInterval 1

def toToml (s : Settings) : List (String × Toml) :=
  [("server", .table [("host", .string s.host), ("port", .integer s.portNumber)]),
    ("store", .table [("root", .string s.storeRoot)]),
    ("transactions", .table [("idle_timeout_secs", .integer s.idleTimeout),
      ("sweep_interval_secs", .integer s.sweepInterval)]),
    ("logging", .table [("level", .string s.logLevel)])]

/-- The settings as data. Members are in the order of the sections here, since the
value is only printed. -/
def toValue (s : Settings) : Value :=
  .obj [("server", .obj [("host", .str s.host), ("port", .int s.portNumber)]),
    ("store", .obj [("root", .str s.storeRoot)]),
    ("transactions", .obj [("idle_timeout_secs", .int s.idleTimeout),
      ("sweep_interval_secs", .int s.sweepInterval)]),
    ("logging", .obj [("level", .str s.logLevel)])]

/-- TOML integers are signed words, so not all settings can be written. -/
def isWritable (s : Settings) : Bool :=
  Decimal.isInt64 s.idleTimeout && Decimal.isInt64 s.sweepInterval

end Settings

end LayeredConfig
