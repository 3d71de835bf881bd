import LayeredConfig.Toml.Dialect
import LayeredConfig.Toml.Basic

/-!
# Tables under construction

A document defines its tables piecemeal, and which pieces may be added depends on
how a table came about: by its own header, as the parent of another header, or by
a dotted key. `Outline` keeps that beside the entries. Adding a piece that is not
allowed gives `none`.
-/

set_option autoImplicit false

namespace LayeredConfig.Toml

inductive Origin where
  | header
  | parent
  | dotted
  deriving DecidableEq, Repr

inductive Outline where
  | value (v : Toml)
  | table (origin : Origin) (entries : List (String × Outline))
  | series (items : List (List (String × Outline)))
  deriving Inhabited

abbrev Entries := List (String × Outline)

namespace Outline

def put (entries : Entries) (key : String) (node : Outline) : Entries :=
  match entries with
  | [] => [(key, node)]
  | (k, v) :: rest => if k = key then (k, node) :: rest else (k, v) :: put rest key node

def updateLast (f : Entries → Option Entries) : List Entries → Option (List Entries)
  | [] => none
  | [last] => (f last).map ([·])
  | item :: items => (updateLast f items).map (item :: ·)

def update (f : Entries → Option Entries) : List String → Entries → Option Entries
  | [], entries => f entries
  | key :: path, entries =>
    match Table.get? entries key with
    | none => (update f path []).map fun inner => put entries key (.table .parent inner)
    | some (.value _) => none
    | some (.table origin inner) =>
      (update f path inner).map fun inner => put entries key (.table origin inner)
    | some (.series items) =>
      (updateLast (update f path) items).map fun items => put entries key (.series items)

/-- Open a table by its header. A table that exists only as a parent may still get
its header, and with it the place of a new one. -/
def openTable (key : String) (entries : Entries) : Option Entries :=
  match Table.get? entries key with
  | none => some (put entries key (.table .header []))
  | some (.table .parent inner) => some (Table.erase entries key ++ [(key, .table .header inner)])
  | some _ => none

def openElement (key : String) (entries : Entries) : Option Entries :=
  match Table.get? entries key with
  | none => some (put entries key (.series [[]]))
  | some (.series items) => some (put entries key (.series (items ++ [[]])))
  | some _ => none

/-- Define the value of a dotted key. The tables on the way must stem from dotted
keys, or be parents that are only passed through; the last one must not be an element
of a series, and a parent only where the dialect admits it, which makes it a table of
dotted keys. -/
def define (d : Dialect) (v : Toml) : List String → Entries → Option Entries
  | [], _ => none
  | [key], entries =>
    match Table.get? entries key with
    | none => some (put entries key (.value v))
    | some _ => none
  | key :: path, entries =>
    match Table.get? entries key with
    | none => (define d v path []).map fun inner => put entries key (.table .dotted inner)
    | some (.table .dotted inner) =>
      (define d v path inner).map fun inner => put entries key (.table .dotted inner)
    | some (.table .parent inner) =>
      if path.length = 1 ∧ !d.extendsParents then none
      else
        let origin := if path.length = 1 then .dotted else .parent
        (define d v path inner).map fun inner => put entries key (.table origin inner)
    | some (.series items) =>
      if path.length = 1 then none
      else (updateLast (define d v path) items).map fun items => put entries key (.series items)
    | some _ => none

/-- What a table denotes: its entries in key order, unless the dialect takes it for a
date-time because of its first key. Such a table must hold the text of one. -/
def tableValue? (d : Dialect) (entries : List (String × Toml)) : Option Toml :=
  match d.dateTables, entries with
  | some form, (key, v) :: rest =>
    if key = dateKey then
      match v with
      | .string s => (DateTime.ofText? form s.toList).map .dateTime
      | _ => none
    else some (.table (Table.ofList ((key, v) :: rest)))
  | _, entries => some (.table (Table.ofList entries))

mutual

def toToml? (d : Dialect) : Outline → Option Toml
  | .value v => some v
  | .table _ entries => do tableValue? d (← entriesToToml? d entries)
  | .series items => do some (.array (← itemsToToml? d items))

def entriesToToml? (d : Dialect) : Entries → Option (List (String × Toml))
  | [] => some []
  | (key, node) :: rest => do
    let v ← node.toToml? d
    let others ← entriesToToml? d rest
    some ((key, v) :: others)

def itemsToToml? (d : Dialect) : List Entries → Option (List Toml)
  | [] => some []
  | entries :: rest => do
    let v ← tableValue? d (← entriesToToml? d entries)
    let others ← itemsToToml? d rest
    some (v :: others)

end

/-- The table of inline definitions, in which only dotted keys make tables. -/
def inlineTable? (d : Dialect) (pairs : List (List String × Toml)) : Option Toml := do
  let entries ← pairs.foldlM (fun entries (path, v) => define d v path entries) []
  (Outline.table .header entries).toToml? d

end Outline

end LayeredConfig.Toml
