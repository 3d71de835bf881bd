import LayeredConfig.Http.Operations

/-!
# Routes

The routes of the service and the methods that each has. A path that is no route, or a
method that its route does not have, is answered by a status alone.
-/

set_option autoImplicit false

namespace LayeredConfig.Http

inductive Route where
  | health
  | transactions
  | transaction (id : String)
  | sections
  | sectionNamed (name : String)
  | sites
  | site (id : String)
  deriving DecidableEq, Repr

namespace Route

def pieces (path : String) : List String :=
  (Text.splitOn (· == '/') path.toList).map String.ofList

/-- The route of a path. Variable segments are not decoded here. -/
def ofPath? (path : String) : Option Route :=
  match pieces path with
  | ["", "health"] => some .health
  | ["", "api", "transactions"] => some .transactions
  | ["", "api", "transactions", id] => if id = "" then none else some (.transaction id)
  | ["", "api", "sections"] => some .sections
  | ["", "api", "sections", name] => if name = "" then none else some (.sectionNamed name)
  | ["", "api", "sites"] => some .sites
  | ["", "api", "sites", id] => if id = "" then none else some (.site id)
  | _ => none

end Route

def handler? (freshId : String) (r : Request) (query : String) :
    Route → String → Option (ApiM Answer)
  | .health, "GET" => some (pure health)
  | .transactions, "GET" => some listTransactions
  | .transactions, "POST" => some (createTransaction freshId)
  | .transaction id, "GET" => some (getTransaction id)
  | .transaction id, "PATCH" => some (patchTransaction r id)
  | .sections, "GET" => some listSections
  | .sectionNamed name, "GET" => some (getSection r name query)
  | .sectionNamed name, "PATCH" => some (patchSection r name query)
  | .sectionNamed name, "DELETE" => some (deleteSection r name query)
  | .sites, "GET" => some (listSites r)
  | .sites, "POST" => some (createSite r)
  | .site id, "GET" => some (getSite r id)
  | .site id, "PATCH" => some (patchSite r id)
  | .site id, "DELETE" => some (deleteSite r id)
  | _, _ => none

/-- Answer a request. `HEAD` is answered like `GET` but without a body, and `OPTIONS`
is answered alike everywhere. The id is for a transaction that may be created. -/
def answer (freshId : String) (r : Request) (s : Service) : Answer × Service :=
  if r.method = "OPTIONS" then (⟨200, .empty⟩, s)
  else
    let target := Target.ofText r.target
    let method := if r.method = "HEAD" then "GET" else r.method
    match Route.ofPath? target.path with
    | none => (⟨404, .empty⟩, s)
    | some route =>
      match handler? freshId r target.query route method with
      | none => (⟨405, .empty⟩, s)
      | some x =>
        let (result, s) := x s
        let a := match result with
          | .ok a => a
          | .error refusal => refusal.answer
        (if r.method = "HEAD" then { a with body := .empty } else a, s)

end LayeredConfig.Http
