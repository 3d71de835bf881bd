/-!
# Override modes

What a level says about a section for the levels below it: they may override it,
they must not, or what holds above holds here too.
-/

set_option autoImplicit false

namespace LayeredConfig

inductive OverrideMode where
  | allow
  | deny
  | inherit
  deriving DecidableEq, Repr, Inhabited

namespace OverrideMode

def name : OverrideMode → String
  | .allow => "allow"
  | .deny => "deny"
  | .inherit => "inherit"

def ofName? (s : String) : Option OverrideMode :=
  if s = "allow" then some .allow
  else if s = "deny" then some .deny
  else if s = "inherit" then some .inherit
  else none

theorem ofName?_name (m : OverrideMode) : ofName? m.name = some m := by
  cases m <;> decide

end OverrideMode

structure Level where
  location : String
  file : String
  mode : OverrideMode
  isLocal : Bool
  parent : Option Nat
  deriving DecidableEq, Repr

namespace Level

/-- The nearest mode that is not inherited, going up from a level. A chain of
distinct parents is no longer than the list, so `steps` never runs out on one. -/
def explicitMode (levels : List Level) : Nat → Option Nat → OverrideMode
  | _, none => .allow
  | 0, some _ => .allow
  | steps + 1, some i =>
    match levels[i]? with
    | none => .allow
    | some level => if level.mode = .inherit then explicitMode levels steps level.parent else level.mode

/-- The mode in force at a level: a denial anywhere from the first level to it wins,
otherwise the nearest explicit mode above counts, and without one overriding is
allowed. -/
def effectiveMode (levels : List Level) (index : Nat) : OverrideMode :=
  if levels.isEmpty then .allow
  else
    let last := min index (levels.length - 1)
    if (levels.take (last + 1)).any (·.mode == .deny) then .deny
    else explicitMode levels levels.length (some last)

def modeAbove (levels : List Level) (index : Nat) : OverrideMode :=
  match levels[index]?.bind (·.parent) with
  | some parent => effectiveMode levels parent
  | none => .allow

end Level

end LayeredConfig
