import LayeredConfig.WorkUnit

/-!
# Runs of the service

What the outside can ask of a service, one operation after another. A unit of work is named
by its state, since any unit may ask for anything at any time. Time passes between the
operations, and others may change the files meanwhile. An operation that fails counts too:
what it has changed before it failed stays changed.
-/

set_option autoImplicit false

namespace LayeredConfig

inductive UnitCall where
  | getSection (scope : Scope) (name : String)
  | sites
  | getSite (id : Int)
  | stage (scope : Scope) (name : String) (m : Mutation)
  | revert (scope : Scope) (name : String)
  | commit
  | createSite (new : NewSite)
  | updateSite (id : Int) (update : SiteUpdate)
  | deleteSite (id : Int)

inductive UnitAnswer where
  | done
  | view (v : SectionView)
  | sites (s : Sites)
  | site (s : Site)
  | reverted (b : Bool)

namespace UnitCall

def run (u : WorkUnit) : UnitCall → ServiceM (UnitAnswer × WorkUnit)
  | .getSection scope name => do pure (.view (← u.getSection scope name), u)
  | .sites => do pure (.sites (← u.sites), u)
  | .getSite id => do pure (.site (← u.getSite id), u)
  | .stage scope name m => do pure (.done, ← u.stage scope name m)
  | .revert scope name => do
    let (reverted, u) ← u.revert scope name
    pure (.reverted reverted, u)
  | .commit => do pure (.done, ← u.commit)
  | .createSite new => do
    let (site, u) ← u.createSite new
    pure (.site site, u)
  | .updateSite id update => do
    let (site, u) ← u.updateSite id update
    pure (.site site, u)
  | .deleteSite id => do
    let (site, u) ← u.deleteSite id
    pure (.site site, u)

end UnitCall

inductive Operation where
  | create (id : String)
  | stage (id : String) (change : Staged)
  | snapshot (id : String)
  | commit (id : String)
  | abort (id : String)
  | sweep
  | onUnit (u : WorkUnit) (call : UnitCall)
  | wait (nanoseconds : Nat)
  | disturb (store : Store)

namespace Operation

def apply : Operation → Service → Service
  | .create id, s => (Service.create id s).2
  | .stage id change, s => (Service.stage id change s).2
  | .snapshot id, s => (Service.snapshot id s).2
  | .commit id, s => (Service.commit id s).2
  | .abort id, s => (Service.abort id s).2
  | .sweep, s => s.sweep.1
  | .onUnit u call, s => (call.run u s).2
  | .wait n, s => { s with now := s.now + n }
  | .disturb store, s => { s with store := store }

def Fresh : Operation → Service → Prop
  | .create id, s => s.find? id = none
  | _, _ => True

def run : List Operation → Service → Service
  | [], s => s
  | op :: ops, s => run ops (op.apply s)

theorem run_append (before after : List Operation) (s : Service) :
    run (before ++ after) s = run after (run before s) := by
  induction before generalizing s with
  | nil => rfl
  | cons op before ih => exact ih (op.apply s)

def FreshRun : List Operation → Service → Prop
  | [], _ => True
  | op :: ops, s => op.Fresh s ∧ FreshRun ops (op.apply s)

instance decidableFresh (op : Operation) (s : Service) : Decidable (op.Fresh s) :=
  match op with
  | .create _ => inferInstanceAs (Decidable (_ = _))
  | .stage .. | .snapshot _ | .commit _ | .abort _ | .sweep | .onUnit .. | .wait _ | .disturb _ =>
    inferInstanceAs (Decidable True)

instance decidableFreshRun : (ops : List Operation) → (s : Service) → Decidable (FreshRun ops s)
  | [], _ => inferInstanceAs (Decidable True)
  | op :: ops, s =>
    have := decidableFreshRun ops (op.apply s)
    inferInstanceAs (Decidable (op.Fresh s ∧ FreshRun ops (op.apply s)))

end Operation

end LayeredConfig
