import LayeredConfig.Decimal.Integer
import LayeredConfig.Http.Answer
import LayeredConfig.Http.Body
import LayeredConfig.Http.MediaType
import LayeredConfig.Http.Percent
import LayeredConfig.Http.Target
import LayeredConfig.WorkUnit

/-!
# Requests

A request and what is read from it: the transaction that it is bound to, segments of
its path, the parameters of a scope, and the data of its body. Whatever cannot be read
refuses the request.
-/

set_option autoImplicit false

namespace LayeredConfig.Http

structure Request where
  method : String
  target : String
  transaction : Option String
  contentType : Option String
  body : String
  deriving DecidableEq, Repr

abbrev ApiM := ExceptT Refusal (StateM Service)

def refuse {α : Type} (e : Refusal) : ApiM α := throw e

def reject {α : Type} (status : Nat) : ApiM α := throw (.rejected status)

def callWith {α : Type} (f : ConfigError → ApiError) (x : ServiceM α) : ApiM α := fun s =>
  match x s with
  | (.ok a, s) => (.ok a, s)
  | (.error e, s) => (.error (.error (f e)), s)

def call {α : Type} (x : ServiceM α) : ApiM α := callWith .ofConfig x

def isVisible (c : Char) : Bool := (0x20 ≤ c.toNat && c.toNat < 0x7F) || c = '\t'

def unitOf (r : Request) : ApiM WorkUnit :=
  match r.transaction with
  | none => pure (.new none)
  | some header =>
    if !header.toList.all isVisible then
      refuse (.error (.badRequest "Transaction-Id header is not valid text"))
    else
      let id := Text.trim header
      pure (.new (if id.isEmpty then none else some id))

def segment (raw : String) : ApiM String :=
  match decodeSegment? raw with
  | some s => pure s
  | none => reject 400

def idSegment (raw : String) : ApiM Int := do
  match Decimal.int64? (← segment raw) with
  | some id => pure id
  | none => reject 400

structure ScopeQuery where
  siteId : Option Int
  path : Option String
  file : Option String
  deriving DecidableEq, Repr

def parameter (pairs : List (String × String)) (name : String) : ApiM (Option String) :=
  match pairs.filter (·.1 == name) with
  | [] => pure none
  | [(_, value)] => pure (some value)
  | _ => reject 400

def scopeQuery (query : String) : ApiM ScopeQuery := do
  let pairs := queryPairs query
  let siteId ← parameter pairs "site_id"
  let path ← parameter pairs "path"
  let file ← parameter pairs "config_path"
  match siteId with
  | none => pure ⟨none, path, file⟩
  | some text =>
    match Decimal.int64? text with
    | some id => pure ⟨some id, path, file⟩
    | none => reject 400

def ScopeQuery.scope (q : ScopeQuery) : ApiM Scope :=
  call (Service.ofExcept (Scope.ofParts q.siteId q.path q.file))

def bodyLimit : Nat := 0x200000

def body (schema : Schema) (r : Request) : ApiM Value :=
  if !(r.contentType.any isJsonType) then reject 415
  else if bodyLimit < r.body.utf8ByteSize then reject 413
  else match readBody schema r.body with
    | .ok v => pure v
    | .error .malformed => reject 400
    | .error .wrongShape => reject 422

end LayeredConfig.Http
