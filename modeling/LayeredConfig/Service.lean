import LayeredConfig.Claims
import LayeredConfig.Journal

/-!
# The configuration service

The store with the registered sections, the transactions and their claims. A
transaction is a staged set under a name: it is pending until it is committed or
aborted, and then it never changes again. Ids and the time of day come from outside.
A pending transaction that was idle for the timeout is aborted by the next sweep;
one that ended that long ago is forgotten.
-/

set_option autoImplicit false

namespace LayeredConfig

structure Transaction where
  id : String
  state : TransactionState
  /-- When it was last used, in nanoseconds. -/
  lastActivity : Nat
  staged : StagedSet
  deriving DecidableEq, Repr

/-- Transactions are in the order of their creation. -/
structure Service where
  store : Store
  registry : Registry
  claims : Claims
  transactions : List Transaction
  /-- In nanoseconds, like the time of day. -/
  idleTimeout : Nat
  now : Nat
  deriving DecidableEq, Repr

abbrev ServiceM := ExceptT ConfigError (StateM Service)

namespace Service

def nanosPerSecond : Nat := 1000000000

def new (store : Store) (registry : Registry) (idleSeconds now : Nat) : Service :=
  ⟨store, registry, .empty, [], idleSeconds * nanosPerSecond, now⟩

def onStore {α : Type} (x : ConfigM α) : ServiceM α := fun s =>
  let (result, store) := x s.store
  (result, { s with store := store })

def ofExcept {α : Type} (x : Except ConfigError α) : ServiceM α := fun s => (x, s)

def find? (s : Service) (id : String) : Option Transaction := s.transactions.find? (·.id == id)

def put (s : Service) (t : Transaction) : Service :=
  { s with transactions := s.transactions.map fun old => if old.id = t.id then t else old }

/-- A new pending transaction; the id must be fresh. -/
def create (id : String) : ServiceM Transaction := do
  let s ← get
  let t : Transaction := ⟨id, .pending, s.now, .empty⟩
  set { s with transactions := s.transactions ++ [t] }
  pure t

def getTransaction (id : String) : ServiceM Transaction := do
  match (← get).find? id with
  | some t => pure t
  | none => throw (.notFound (.transaction id))

def pendingTransaction (id : String) : ServiceM Transaction := do
  let t ← getTransaction id
  if t.state = .pending then pure t else throw (.transactionState t.id t.state)

def listPending (s : Service) : List Transaction := s.transactions.filter (·.state == .pending)

/-- The staged set of a pending transaction. Asking for it counts as using it. -/
def snapshot (id : String) : ServiceM StagedSet := do
  let t ← pendingTransaction id
  modify fun s => s.put { t with lastActivity := s.now }
  pure t.staged

def stage (id : String) (change : Staged) : ServiceM Unit := do
  let t ← pendingTransaction id
  let claims ← ofExcept ((← get).claims.claim change id)
  modify fun s =>
    { s with claims := claims }.put { t with staged := t.staged.stage change, lastActivity := s.now }

/-- Write a staged set. No section of it may be claimed by anybody but the owner. -/
def applySet (set : StagedSet) (owner : Option String) : ServiceM Unit := do
  let s ← get
  ofExcept (set.entries.forM fun e => s.claims.check e owner)
  onStore (Journal.commit s.registry set.entries)

def finish (t : Transaction) (state : TransactionState) (staged : StagedSet) :
    ServiceM Transaction := do
  let s ← get
  let t := { t with state := state, staged := staged, lastActivity := s.now }
  set { s.put t with claims := s.claims.release t.id }
  pure t

/-- Commit a transaction. If its set cannot be written, it stays pending. -/
def commit (id : String) : ServiceM Transaction := do
  let t ← pendingTransaction id
  applySet t.staged (some id)
  finish t .committed t.staged

def abort (id : String) : ServiceM Transaction := do
  let t ← pendingTransaction id
  finish t .aborted .empty

def isIdle (s : Service) (t : Transaction) : Bool := t.lastActivity + s.idleTimeout ≤ s.now

/-- Abort what is idle and pending, forget what is idle and final. -/
def sweepList (s : Service) : List Transaction → List Transaction
  | [] => []
  | t :: rest =>
    if !s.isIdle t then t :: s.sweepList rest
    else if t.state = .pending then
      { t with state := .aborted, staged := .empty, lastActivity := s.now } :: s.sweepList rest
    else s.sweepList rest

def expired (s : Service) : List Transaction :=
  s.transactions.filter fun t => s.isIdle t && t.state == .pending

def sweep (s : Service) : Service × Nat :=
  let claims := s.expired.foldl (fun claims t => claims.release t.id) s.claims
  ({ s with transactions := s.sweepList s.transactions, claims := claims }, s.expired.length)

end Service

end LayeredConfig
