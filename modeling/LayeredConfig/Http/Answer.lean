import LayeredConfig.Error
import LayeredConfig.Value

/-!
# Answers

What a request is answered with, and how errors of the configuration appear to a
client. A request that cannot be read is rejected with a status alone.
-/

set_option autoImplicit false

namespace LayeredConfig.Http

inductive AnswerBody where
  | empty
  | data (v : Value)
  /-- A text for people that says why the request was rejected. -/
  | notice
  deriving DecidableEq, Repr

structure Answer where
  status : Nat
  body : AnswerBody
  deriving DecidableEq, Repr

inductive ApiError where
  | notFound (what : String)
  | badRequest (why : String)
  | locked (what : String)
  | conflict (why : String)
  | internal (why : String)
  deriving DecidableEq, Repr

namespace ApiError

def status : ApiError → Nat
  | .notFound _ => 404
  | .badRequest _ => 400
  | .locked _ => 403
  | .conflict _ => 409
  | .internal _ => 500

def code : ApiError → String
  | .notFound _ => "NOT_FOUND"
  | .badRequest _ => "BAD_REQUEST"
  | .locked _ => "LOCKED"
  | .conflict _ => "CONFLICT"
  | .internal _ => "INTERNAL_ERROR"

def title : ApiError → String
  | .notFound _ => "Not found"
  | .badRequest _ => "Invalid parameter"
  | .locked _ => "Object is locked"
  | .conflict _ => "Conflict"
  | .internal _ => "Server error"

def message : ApiError → String
  | .notFound what => s!"Resource not found: {what}"
  | .badRequest why => s!"Bad request: {why}"
  | .locked what => s!"Object is locked: {what}"
  | .conflict why => s!"Conflict: {why}"
  | .internal why => s!"Internal server error: {why}"

def answer (e : ApiError) : Answer :=
  ⟨e.status, .data (.obj [("code", .str e.code), ("error", .str e.message), ("title", .str e.title)])⟩

def ofConfig : ConfigError → ApiError
  | .locked path reason => .locked s!"{path} ({reason.message})"
  | .scopeNotFound what => .notFound s!"scope {what}"
  | .notFound what => .notFound what.message
  | .validation why => .badRequest why.message
  | .storage why => .internal why
  | e => .conflict e.message

/-- While a transaction is committed, a level that is locked or gone means that the
files have changed under it. -/
def ofCommit : ConfigError → ApiError
  | e@(.locked _ _) => .conflict s!"commit failed: {e.message}"
  | e@(.scopeNotFound _) => .conflict s!"commit failed: {e.message}"
  | e@(.notFound _) => .conflict s!"commit failed: {e.message}"
  | e => ofConfig e

end ApiError

inductive Refusal where
  | error (e : ApiError)
  | rejected (status : Nat)
  deriving DecidableEq, Repr

def Refusal.answer : Refusal → Answer
  | .error e => e.answer
  | .rejected status => ⟨status, .notice⟩

end LayeredConfig.Http
