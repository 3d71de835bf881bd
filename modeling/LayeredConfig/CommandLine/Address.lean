import LayeredConfig.Decimal.Integer
import LayeredConfig.Text.Split

/-!
# Network addresses

A host is given by its address: four numbers with dots, or eight groups of hexadecimal
digits with colons, in brackets, where two colons stand for groups of zero and the
last two groups may be written as four numbers. Names of hosts are no addresses.
-/

set_option autoImplicit false

namespace LayeredConfig.CommandLine

inductive Address where
  | four (bytes : List Nat)
  | six (groups : List Nat)
  deriving DecidableEq, Repr

namespace Address

/-- A number below 256 without leading zeros. -/
def byte? (cs : List Char) : Option Nat :=
  if cs.length > 3 || (cs.length > 1 && cs.head? == some '0') then none
  else (Decimal.natural? cs).filter (· < 256)

def four? (cs : List Char) : Option (List Nat) := do
  let bytes ← (Text.splitOn (· == '.') cs).mapM byte?
  if bytes.length = 4 then some bytes else none

def hexDigit? (c : Char) : Option Nat :=
  if c.isDigit then some (c.toNat - 48)
  else if 'a' ≤ c ∧ c ≤ 'f' then some (c.toNat - 87)
  else if 'A' ≤ c ∧ c ≤ 'F' then some (c.toNat - 55)
  else none

def group? (cs : List Char) : Option Nat := do
  let digits ← cs.mapM hexDigit?
  if digits.isEmpty || digits.length > 4 then none
  else some (digits.foldl (fun n d => 16 * n + d) 0)

def groups? : List (List Char) → Option (List Nat)
  | [] => some []
  | [last] =>
    match four? last with
    | some [a, b, c, d] => some [256 * a + b, 256 * c + d]
    | _ => (group? last).map ([·])
  | piece :: pieces => do
    let group ← group? piece
    let groups ← groups? pieces
    some (group :: groups)

def groupList? (cs : List Char) : Option (List Nat) :=
  if cs.isEmpty then some [] else groups? (Text.splitOn (· == ':') cs)

def splitGap : List Char → List Char × Option (List Char)
  | [] => ([], none)
  | ':' :: ':' :: rest => ([], some rest)
  | c :: cs =>
    let (before, after) := splitGap cs
    (c :: before, after)

def six? (cs : List Char) : Option (List Nat) :=
  match splitGap cs with
  | (whole, none) => (groupList? whole).filter (·.length == 8)
  | (before, some after) => do
    if before.contains '.' then none
    else
      let first ← groupList? before
      let last ← groupList? after
      let gap := 8 - (first.length + last.length)
      if gap = 0 then none else some (first ++ List.replicate gap 0 ++ last)

/-- The number of a network interface may follow after a percent sign. -/
def inBrackets? (cs : List Char) : Option (List Nat) :=
  match cs.span (· != '%') with
  | (address, []) => six? address
  | (address, _ :: zone) =>
    if ((Decimal.natural? zone).filter (· < 0x100000000)).isSome then six? address else none

def ofHost? (host : String) : Option Address :=
  match host.toList with
  | '[' :: rest =>
    if rest.getLast? = some ']' then (inBrackets? rest.dropLast).map .six else none
  | cs => (four? cs).map .four

/-- Does the address belong to every machine: is it any address, or a loop back? -/
def isOwn : Address → Bool
  | .four [0, 0, 0, 0] => true
  | .four (127 :: _) => true
  | .four _ => false
  | .six groups => groups == List.replicate 8 0 || groups == List.replicate 7 0 ++ [1]

example : ofHost? "127.0.0.1" = some (.four [127, 0, 0, 1]) ∧ ofHost? "127.0.0.01" = none := by
  decide +kernel
example : (ofHost? "[::1]").map isOwn = some true ∧ ofHost? "::1" = none := by decide +kernel
example : ofHost? "[1::1.2.3.4]" = some (.six [1, 0, 0, 0, 0, 0, 258, 772]) := by decide +kernel

end Address

end LayeredConfig.CommandLine
