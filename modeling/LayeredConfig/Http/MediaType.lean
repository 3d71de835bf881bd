/-!
# Media types

A content type names a kind and a subkind, of which the part after the last plus sign is
the suffix, and may have parameters. Whether a body is JSON depends on the names alone,
but a type with parameters that are not well formed is no type at all.
-/

set_option autoImplicit false

namespace LayeredConfig.Http

def isTokenChar (c : Char) : Bool :=
  c.isAlphanum || ['!', '#', '$', '%', '&', '\'', '*', '+', '-', '.', '^', '_', '\x60', '|', '~'].contains c

def isToken (cs : List Char) : Bool := !cs.isEmpty && cs.all isTokenChar

/-- The characters between quotation marks: visible ones, the mark included. -/
def isQuotable (c : Char) : Bool := 0x20 ≤ c.toNat && c.toNat < 0x7F

inductive ParameterPlace where
  | start
  | name
  | valueStart
  | value
  | quoteStart
  | quoted
  | quoteEnd
  deriving DecidableEq, Repr

namespace ParameterPlace

/-- Blanks stand only before a name and after a quoted value. A quoted value has at least
one character, which may be a quotation mark itself. -/
def next? : ParameterPlace → Char → Option ParameterPlace
  | .start, c => if c = ' ' then some .start else if isTokenChar c then some .name else none
  | .name, c => if c = '=' then some .valueStart else if isTokenChar c then some .name else none
  | .valueStart, c =>
    if c = '"' then some .quoteStart else if isTokenChar c then some .value else none
  | .value, c => if c = ';' then some .start else if isTokenChar c then some .value else none
  | .quoteStart, c => if isQuotable c then some .quoted else none
  | .quoted, c => if c = '"' then some .quoteEnd else if isQuotable c then some .quoted else none
  | .quoteEnd, c => if c = ';' then some .start else if c = ' ' then some .quoteEnd else none

def mayEnd : ParameterPlace → Bool
  | .start | .valueStart | .value | .quoteEnd => true
  | .name | .quoteStart | .quoted => false

end ParameterPlace

def areParameters : List Char → Bool
  | ';' :: cs => (cs.foldlM ParameterPlace.next? .start).any ParameterPlace.mayEnd
  | cs => cs.isEmpty

structure MediaType where
  kind : List Char
  subkind : List Char
  suffix : Option (List Char)
  deriving DecidableEq, Repr

namespace MediaType

/-- The names of a kind and a subkind. A plus sign at the start of the subkind belongs to
its name. -/
def ofNames (kind sub : List Char) : MediaType :=
  if (sub.drop 1).contains '+' then
    let suffix := (sub.reverse.takeWhile (· != '+')).reverse
    ⟨kind, sub.take (sub.length - suffix.length - 1), some suffix⟩
  else ⟨kind, sub, none⟩

def ofText? (text : String) : Option MediaType :=
  let (names, parameters) := (text.toList.map Char.toLower).span (· != ';')
  let (kind, sub) := names.span (· != '/')
  let sub := sub.drop 1
  if isToken kind && isToken sub && areParameters parameters then some (ofNames kind sub) else none

def isJson (t : MediaType) : Bool :=
  let json := "json".toList
  t.kind == "application".toList && (t.subkind == json || t.suffix == some json)

end MediaType

def isJsonType (text : String) : Bool := (MediaType.ofText? text).any MediaType.isJson

example : isJsonType "Application/JSON; charset=utf-8" = true := by decide +kernel
example : isJsonType "application/json+xml" = true ∧ isJsonType "application/+json" = false := by
  decide +kernel

end LayeredConfig.Http
