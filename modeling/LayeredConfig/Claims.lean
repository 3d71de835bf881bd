import LayeredConfig.Section.Mutation

/-!
# Claims

A pending transaction claims the section of a file that it has staged a change to.
Nobody else may stage or write that section of that file until the claim is released.
-/

set_option autoImplicit false

namespace LayeredConfig

structure Claim where
  file : String
  name : String
  owner : String
  deriving DecidableEq, Repr

structure Claims where
  entries : List Claim
  deriving DecidableEq, Repr

namespace Claims

def empty : Claims := ⟨[]⟩

def size (c : Claims) : Nat := c.entries.length

def holder? (c : Claims) (file name : String) : Option String :=
  (c.entries.find? fun e => e.file == file && e.name == name).map (·.owner)

def check (c : Claims) (s : Staged) (caller : Option String) : Except ConfigError Unit :=
  match c.holder? s.file s.name with
  | none => .ok ()
  | some owner =>
    if some owner = caller then .ok () else .error (.locked s.sectionPath (.staged owner))

def claim (c : Claims) (s : Staged) (owner : String) : Except ConfigError Claims :=
  match c.holder? s.file s.name with
  | none => .ok ⟨c.entries ++ [⟨s.file, s.name, owner⟩]⟩
  | some other =>
    if other = owner then .ok c else .error (.locked s.sectionPath (.staged other))

def release (c : Claims) (owner : String) : Claims :=
  ⟨c.entries.filter (·.owner != owner)⟩

end Claims

end LayeredConfig
