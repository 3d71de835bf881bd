import LayeredConfig.Decimal.Integer
import LayeredConfig.Toml.Printer
import LayeredConfig.Proofs.Toml.Outlines

/-!
# What printed values are read as

A printed value is read as itself but for one thing: where the dialect takes tables with a
certain first key for date-times, it does so with printed tables too. `inlineBack` follows
the reader through the values on the right of an equals sign. It gives nothing where such a
table holds no date-time or where containers nest too deep.
-/

set_option autoImplicit false

namespace LayeredConfig.Toml

open Table (keys Sorted)

mutual

def Printable : Toml → Prop
  | .string _ => True
  | .integer n => Decimal.isInt64 n = true
  | .float x => x.isFinite = true
  | .boolean _ => True
  | .dateTime _ => False
  | .array items => PrintableItems items
  | .table entries => Sorted entries ∧ PrintableEntries entries

def PrintableItems : List Toml → Prop
  | [] => True
  | v :: vs => Printable v ∧ PrintableItems vs

def PrintableEntries : List (String × Toml) → Prop
  | [] => True
  | (_, v) :: rest => Printable v ∧ PrintableEntries rest

end

mutual

def inlineBack (d : Dialect) (room : Nat) : Toml → Option Toml
  | .array items => if room = 0 then none else (itemsBack d (room - 1) items).map .array
  | .table entries =>
    if room = 0 then none else (pairsBack d (room - 1) entries).bind (Outline.tableValue? d)
  | v => some v

def itemsBack (d : Dialect) (room : Nat) : List Toml → Option (List Toml)
  | [] => some []
  | v :: vs => (inlineBack d room v).bind fun v => (itemsBack d room vs).map (v :: ·)

def pairsBack (d : Dialect) (room : Nat) : List (String × Toml) → Option (List (String × Toml))
  | [] => some []
  | (key, v) :: rest =>
    (inlineBack d room v).bind fun v => (pairsBack d room rest).map ((key, v) :: ·)

end

theorem keys_pairsBack (d : Dialect) (room : Nat) (pairs back : List (String × Toml))
    (h : pairsBack d room pairs = some back) : keys back = keys pairs := by
  induction pairs generalizing back with
  | nil =>
    cases h
    rfl
  | cons e rest ih =>
    obtain ⟨k, v⟩ := e
    obtain ⟨v', -, hrest⟩ := Option.bind_eq_some_iff.mp h
    obtain ⟨back', hback, rfl⟩ := Option.map_eq_some_iff.mp hrest
    exact congrArg (k :: ·) (ih back' hback)

def isHeaded (entries : List (String × Toml)) : Bool :=
  entries.isEmpty || entries.any fun e => isPlain e.2

def tableOf? (d : Dialect) (plain tables : Option (List (String × Toml))) : Option Toml :=
  plain.bind fun plain => tables.bind fun tables => Outline.tableValue? d (plain ++ tables)

def plainBack (d : Dialect) (entries : List (String × Toml)) : Option (List (String × Toml)) :=
  pairsBack d d.openContainers (entries.filter (isPlain ·.2))

mutual

def headedBack (d : Dialect) (parts : Nat) : Toml → Option Toml
  | .table entries =>
    if isHeaded entries && !d.keyParts.all (parts ≤ ·) then none
    else tableOf? d (plainBack d entries) (tablesBack d parts entries)
  | .array items => (seriesBack d parts items).map .array
  | v => some v

def tablesBack (d : Dialect) (parts : Nat) : List (String × Toml) → Option (List (String × Toml))
  | [] => some []
  | (key, v) :: rest =>
    if isPlain v then tablesBack d parts rest
    else (headedBack d (parts + 1) v).bind fun v => (tablesBack d parts rest).map ((key, v) :: ·)

def seriesBack (d : Dialect) (parts : Nat) : List Toml → Option (List Toml)
  | [] => some []
  | .table entries :: rest =>
    if !d.keyParts.all (parts ≤ ·) then none
    else (tableOf? d (plainBack d entries) (tablesBack d parts entries)).bind fun v =>
      (seriesBack d parts rest).map (v :: ·)
  | v :: rest => (seriesBack d parts rest).map (v :: ·)

end

def reread (d : Dialect) (root : List (String × Toml)) : Option (List (String × Toml)) :=
  (plainBack d root).bind fun plain => (tablesBack d 0 root).map fun tables =>
    Table.ofList (plain ++ tables)

end LayeredConfig.Toml
