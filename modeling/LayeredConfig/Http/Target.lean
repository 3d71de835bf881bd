/-!
# Targets of requests

A target is a path with a query, or the same after a scheme and an authority, of which
neither chooses the route. A fragment belongs to neither path nor query.
-/

set_option autoImplicit false

namespace LayeredConfig.Http

structure Target where
  path : String
  query : String
  deriving DecidableEq, Repr

namespace Target

def isSchemeChar (c : Char) : Bool := c.isAlphanum || c = '+' || c = '-' || c = '.'

def endsAuthority (c : Char) : Bool := c = '/' || c = '?' || c = '#'

def afterAuthority? (text : List Char) : Option (List Char) :=
  match text.dropWhile isSchemeChar with
  | ':' :: '/' :: '/' :: rest => some (rest.dropWhile (!endsAuthority ·))
  | _ => none

/-- After an authority the path may be empty; it is the root then. -/
def rooted (text : List Char) : List Char :=
  if text.head? = some '/' then text else '/' :: text

def ofText (text : String) : Target :=
  let whole := ((afterAuthority? text.toList).map rooted).getD text.toList
  let (path, query) := (whole.takeWhile (· != '#')).span (· != '?')
  ⟨String.ofList path, String.ofList (query.drop 1)⟩

example : ofText "/a/b?c=d#e" = ⟨"/a/b", "c=d"⟩ := by decide +kernel
example : ofText "http://host:80?c" = ⟨"/", "c"⟩ := by decide +kernel

end Target

end LayeredConfig.Http
