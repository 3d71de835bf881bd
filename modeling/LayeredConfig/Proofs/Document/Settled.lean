import LayeredConfig.Section.Representable
import LayeredConfig.Proofs.Toml.Undated

/-!
# Values that a level file gives back

A level file keeps all of a value but its null members and the exact value of integers beyond
64 bits with a sign. `settled` is the value without them: what is written of a value is what is
written of the settled one, and reading that gives the settled value.
-/

set_option autoImplicit false

namespace LayeredConfig

namespace Value

open Table (keys Sorted)

mutual

def WellFormed : Value → Prop
  | .int n => -0x8000000000000000 ≤ n ∧ n < 0x10000000000000000
  | .float x => x.isFinite = true
  | .arr items => WellFormedItems items
  | .obj members => Sorted members ∧ WellFormedMembers members
  | _ => True

def WellFormedItems : List Value → Prop
  | [] => True
  | v :: vs => WellFormed v ∧ WellFormedItems vs

def WellFormedMembers : List (String × Value) → Prop
  | [] => True
  | (_, v) :: rest => WellFormed v ∧ WellFormedMembers rest

end

mutual

def decidableWellFormed : (v : Value) → Decidable v.WellFormed
  | .int n => inferInstanceAs (Decidable (-0x8000000000000000 ≤ n ∧ n < 0x10000000000000000))
  | .float x => inferInstanceAs (Decidable (x.isFinite = true))
  | .arr items => decidableWellFormedItems items
  | .obj members => @instDecidableAnd _ _ _ (decidableWellFormedMembers members)
  | .null => isTrue trivial
  | .bool _ => isTrue trivial
  | .str _ => isTrue trivial

def decidableWellFormedItems : (items : List Value) → Decidable (WellFormedItems items)
  | [] => isTrue trivial
  | v :: vs => @instDecidableAnd _ _ (decidableWellFormed v) (decidableWellFormedItems vs)

def decidableWellFormedMembers :
    (members : List (String × Value)) → Decidable (WellFormedMembers members)
  | [] => isTrue trivial
  | (_, v) :: rest =>
    @instDecidableAnd _ _ (decidableWellFormed v) (decidableWellFormedMembers rest)

end

instance (v : Value) : Decidable v.WellFormed := decidableWellFormed v

instance (members : List (String × Value)) : Decidable (WellFormedMembers members) :=
  decidableWellFormedMembers members

mutual

def settled : Value → Value
  | .int n => if Decimal.isInt64 n then .int n else .float (Binary64.ofInt n)
  | .arr items => .arr (settledItems items)
  | .obj members => .obj (settledMembers members)
  | v => v

def settledItems : List Value → List Value
  | [] => []
  | v :: vs => settled v :: settledItems vs

def settledMembers : List (String × Value) → List (String × Value)
  | [] => []
  | (_, .null) :: rest => settledMembers rest
  | (key, v) :: rest => (key, settled v) :: settledMembers rest

end

theorem settledMembers_cons (key : String) (v : Value) (rest : List (String × Value))
    (hv : v ≠ .null) :
    settledMembers ((key, v) :: rest) = (key, settled v) :: settledMembers rest := by
  cases v with
  | null => exact absurd rfl hv
  | _ => rfl

theorem settled_ne_null (v : Value) (hv : v ≠ .null) : settled v ≠ .null := by
  cases v with
  | null => exact absurd rfl hv
  | int n =>
    rw [settled]
    split
    · exact fun h => by cases h
    · exact fun h => by cases h
  | _ => exact fun h => by cases h

theorem wellFormedMembers_iff (members : List (String × Value)) :
    WellFormedMembers members ↔ ∀ e ∈ members, e.2.WellFormed := by
  induction members with
  | nil => exact ⟨fun _ e he => (List.not_mem_nil he).elim, fun _ => trivial⟩
  | cons e rest ih => rw [WellFormedMembers, ih, List.forall_mem_cons]

theorem settledItems_eq_map (items : List Value) : settledItems items = items.map settled := by
  induction items with
  | nil => rfl
  | cons v vs ih => rw [settledItems, List.map_cons, ih]

theorem WellFormedItems.mem {items : List Value} (h : WellFormedItems items) :
    ∀ v ∈ items, v.WellFormed := by
  induction items with
  | nil => exact fun v hv => by cases hv
  | cons v vs ih =>
    intro w hw
    rcases List.mem_cons.mp hw with rfl | hw
    · exact h.1
    · exact ih h.2 w hw

theorem getD_settledMembers (members : List (String × Value)) (hs : Sorted members)
    (key : String) : (Table.get? (settledMembers members) key).getD .null =
      ((Table.get? members key).getD .null).settled := by
  induction members with
  | nil => rfl
  | cons e rest ih =>
    obtain ⟨k, v⟩ := e
    have hfirst : k ∉ keys rest := (List.nodup_cons.mp hs.nodup).1
    have hrest := ((Table.sorted_cons k v rest).1 hs).2
    by_cases hv : v = .null
    · subst hv
      change (Table.get? (settledMembers rest) key).getD .null = _
      rw [ih hrest, Table.get?]
      split
      · rename_i heq
        rw [(Table.get?_eq_none_iff rest key).2 (heq ▸ hfirst)]
        rfl
      · rfl
    · rw [settledMembers_cons k v rest hv, Table.get?, Table.get?]
      split
      · rfl
      · exact ih hrest

theorem contains_settledMembers (members : List (String × Value)) (key : String) (v : Value)
    (h : Table.get? members key = some v) (hv : v ≠ .null) :
    Table.contains (settledMembers members) key = true := by
  induction members with
  | nil => cases h
  | cons e rest ih =>
    obtain ⟨k, w⟩ := e
    rw [Table.get?] at h
    split at h
    · rename_i heq
      cases h
      rw [settledMembers_cons k v rest hv, Table.contains, Table.get?, if_pos heq]
      rfl
    · rename_i hne
      by_cases hw : w = .null
      · subst hw
        exact ih h
      · rw [settledMembers_cons k w rest hw, Table.contains, Table.get?, if_neg hne]
        exact ih h

mutual

@[simp] theorem settled_settled : ∀ v : Value, v.settled.settled = v.settled
  | .int n => by
    rw [settled]
    by_cases hn : Decimal.isInt64 n = true
    · rw [if_pos hn, settled, if_pos hn]
    · rw [if_neg hn]
      rfl
  | .arr items => congrArg Value.arr (settledItems_settled items)
  | .obj members => congrArg Value.obj (settledMembers_settled members)
  | .null => rfl
  | .bool _ => rfl
  | .float _ => rfl
  | .str _ => rfl

theorem settledItems_settled : ∀ items : List Value,
    settledItems (settledItems items) = settledItems items
  | [] => rfl
  | v :: vs => by
    rw [settledItems, settledItems, settled_settled v, settledItems_settled vs]

theorem settledMembers_settled : ∀ members : List (String × Value),
    settledMembers (settledMembers members) = settledMembers members
  | [] => rfl
  | (key, v) :: rest => by
    by_cases hnull : v = .null
    · subst hnull
      exact settledMembers_settled rest
    · rw [settledMembers_cons key v rest hnull,
        settledMembers_cons key v.settled _ (settled_ne_null v hnull), settled_settled v,
        settledMembers_settled rest]

end

mutual

def objectCount : Value → Nat
  | .arr items => objectCountItems items
  | .obj members => objectCountMembers members + 1
  | _ => 0

def objectCountItems : List Value → Nat
  | [] => 0
  | v :: vs => objectCount v + objectCountItems vs

def objectCountMembers : List (String × Value) → Nat
  | [] => 0
  | (_, v) :: rest => objectCount v + objectCountMembers rest

end

mutual

theorem objectCount_settled : ∀ v : Value, v.settled.objectCount = v.objectCount
  | .int n => by
    rw [settled]
    split
    · rfl
    · rfl
  | .arr items => objectCountItems_settled items
  | .obj members => congrArg (· + 1) (objectCountMembers_settled members)
  | .null => rfl
  | .bool _ => rfl
  | .float _ => rfl
  | .str _ => rfl

theorem objectCountItems_settled : ∀ items : List Value,
    objectCountItems (settledItems items) = objectCountItems items
  | [] => rfl
  | v :: vs => by
    rw [settledItems, objectCountItems, objectCountItems, objectCount_settled v,
      objectCountItems_settled vs]

theorem objectCountMembers_settled : ∀ members : List (String × Value),
    objectCountMembers (settledMembers members) = objectCountMembers members
  | [] => rfl
  | (key, v) :: rest => by
    by_cases hnull : v = .null
    · subst hnull
      exact (objectCountMembers_settled rest).trans (Nat.zero_add _).symm
    · rw [settledMembers_cons key v rest hnull, objectCountMembers, objectCountMembers,
        objectCount_settled v, objectCountMembers_settled rest]

end

end Value

namespace Toml

open Table (keys Sorted)

theorem ofMembers?_cons (key : String) (v : Value) (rest : List (String × Value)) (hv : v ≠ .null) :
    ofMembers? ((key, v) :: rest) =
      (ofValue? v).bind fun t => (ofMembers? rest).bind fun ts => some ((key, t) :: ts) := by
  cases v with
  | null => exact absurd rfl hv
  | _ => rfl

mutual

/-- What is written of a value is read as the settled value. -/
theorem ofValue?_settles : ∀ (v : Value) (t : Toml), v.WellFormed → ofValue? v = some t →
    Printable t ∧ toValue? t = some v.settled
  | .null, t, _, h => by cases h
  | .bool b, t, _, h => by
    cases h
    exact ⟨trivial, rfl⟩
  | .int n, t, hv, h => by
    rw [ofValue?, Option.some_inj] at h
    rw [Value.settled, ← h]
    by_cases hn : Decimal.isInt64 n = true
    · rw [if_pos hn, if_pos hn]
      exact ⟨hn, rfl⟩
    · have hfinite := Binary64.ofInt_isFinite n hv.1 hv.2
      rw [if_neg hn, if_neg hn, toValue?, if_pos hfinite]
      exact ⟨hfinite, rfl⟩
  | .float x, t, hv, h => by
    cases h
    have hfinite : x.isFinite = true := hv
    rw [toValue?, if_pos hfinite]
    exact ⟨hfinite, rfl⟩
  | .str s, t, _, h => by
    cases h
    exact ⟨trivial, rfl⟩
  | .arr items, t, hv, h => by
    obtain ⟨ts, hts, rfl⟩ := Option.map_eq_some_iff.mp h
    obtain ⟨hprintable, hback⟩ := ofItems?_settles items ts hv hts
    rw [toValue?, hback]
    exact ⟨hprintable, rfl⟩
  | .obj members, t, hv, h => by
    obtain ⟨ts, hts, rfl⟩ := Option.map_eq_some_iff.mp h
    obtain ⟨hprintable, hback, hkeys⟩ := ofMembers?_settles members ts hv.2 hts
    rw [toValue?, hback]
    exact ⟨⟨List.Pairwise.sublist hkeys hv.1, hprintable⟩, rfl⟩

theorem ofItems?_settles : ∀ (items : List Value) (ts : List Toml), Value.WellFormedItems items →
    ofItems? items = some ts →
      PrintableItems ts ∧ toItems? ts = some (Value.settledItems items)
  | [], ts, _, h => by
    cases h
    exact ⟨trivial, rfl⟩
  | v :: vs, ts, hv, h => by
    obtain ⟨t, ht, h⟩ := Option.bind_eq_some_iff.mp h
    obtain ⟨rest, hrest, h⟩ := Option.bind_eq_some_iff.mp h
    cases h
    obtain ⟨hprintable, hback⟩ := ofValue?_settles v t hv.1 ht
    obtain ⟨hprintables, hbacks⟩ := ofItems?_settles vs rest hv.2 hrest
    rw [toItems?, hback, hbacks]
    exact ⟨⟨hprintable, hprintables⟩, rfl⟩

theorem ofMembers?_settles : ∀ (members : List (String × Value)) (ts : List (String × Toml)),
    Value.WellFormedMembers members → ofMembers? members = some ts →
      PrintableEntries ts ∧ toMembers? ts = some (Value.settledMembers members) ∧
        (keys ts).Sublist (keys members)
  | [], ts, _, h => by
    cases h
    exact ⟨trivial, rfl, List.Sublist.slnil⟩
  | (key, v) :: rest, ts, hv, h => by
    by_cases hnull : v = .null
    · subst hnull
      obtain ⟨hprintable, hback, hkeys⟩ := ofMembers?_settles rest ts hv.2 h
      exact ⟨hprintable, hback, hkeys.cons key⟩
    · rw [ofMembers?_cons key v rest hnull] at h
      obtain ⟨t, ht, h⟩ := Option.bind_eq_some_iff.mp h
      obtain ⟨others, hothers, h⟩ := Option.bind_eq_some_iff.mp h
      cases h
      obtain ⟨hprintable, hback⟩ := ofValue?_settles v t hv.1 ht
      obtain ⟨hprintables, hbacks, hkeys⟩ := ofMembers?_settles rest others hv.2 hothers
      rw [toMembers?, hback, hbacks, Value.settledMembers_cons key v rest hnull]
      exact ⟨⟨hprintable, hprintables⟩, rfl, hkeys.cons_cons key⟩

end

mutual

theorem ofValue?_settled : ∀ v : Value, ofValue? v.settled = ofValue? v
  | .null => rfl
  | .bool _ => rfl
  | .int n => by
    rw [Value.settled]
    by_cases hn : Decimal.isInt64 n = true
    · rw [if_pos hn]
    · rw [if_neg hn, ofValue?, ofValue?, if_neg hn]
  | .float _ => rfl
  | .str _ => rfl
  | .arr items => congrArg (Option.map Toml.array) (ofItems?_settled items)
  | .obj members => congrArg (Option.map Toml.table) (ofMembers?_settled members)

theorem ofItems?_settled : ∀ items : List Value,
    ofItems? (Value.settledItems items) = ofItems? items
  | [] => rfl
  | v :: vs => by
    rw [Value.settledItems, ofItems?, ofItems?, ofValue?_settled v, ofItems?_settled vs]

theorem ofMembers?_settled : ∀ members : List (String × Value),
    ofMembers? (Value.settledMembers members) = ofMembers? members
  | [] => rfl
  | (key, v) :: rest => by
    by_cases hnull : v = .null
    · subst hnull
      exact ofMembers?_settled rest
    · rw [Value.settledMembers_cons key v rest hnull,
        ofMembers?_cons _ _ _ (Value.settled_ne_null v hnull), ofMembers?_cons key v rest hnull,
        ofValue?_settled v, ofMembers?_settled rest]

end

mutual

/-- Objects come from tables, one from one. -/
theorem objectCount_of_toValue? : ∀ (t : Toml) (v : Value), toValue? t = some v →
    v.objectCount = tableCount t
  | .string _, v, h => by cases h; rfl
  | .integer _, v, h => by cases h; rfl
  | .float x, v, h => by
    rw [toValue?] at h
    split at h
    · cases h; rfl
    · cases h
  | .boolean _, v, h => by cases h; rfl
  | .dateTime _, v, h => by cases h; rfl
  | .array items, v, h => by
    obtain ⟨vs, hvs, rfl⟩ := Option.map_eq_some_iff.mp h
    exact objectCount_of_toItems? items vs hvs
  | .table entries, v, h => by
    obtain ⟨vs, hvs, rfl⟩ := Option.map_eq_some_iff.mp h
    exact congrArg (· + 1) (objectCount_of_toMembers? entries vs hvs)

theorem objectCount_of_toItems? : ∀ (items : List Toml) (vs : List Value),
    toItems? items = some vs → Value.objectCountItems vs = tableCountItems items
  | [], vs, h => by cases h; rfl
  | t :: ts, vs, h => by
    obtain ⟨w, hw, h⟩ := Option.bind_eq_some_iff.mp h
    obtain ⟨ws, hws, h⟩ := Option.bind_eq_some_iff.mp h
    cases h
    rw [Value.objectCountItems, tableCountItems, objectCount_of_toValue? t w hw,
      objectCount_of_toItems? ts ws hws]

theorem objectCount_of_toMembers? : ∀ (entries : List (String × Toml)) (vs : List (String × Value)),
    toMembers? entries = some vs → Value.objectCountMembers vs = tableCountEntries entries
  | [], vs, h => by cases h; rfl
  | (key, t) :: rest, vs, h => by
    obtain ⟨w, hw, h⟩ := Option.bind_eq_some_iff.mp h
    obtain ⟨ws, hws, h⟩ := Option.bind_eq_some_iff.mp h
    cases h
    rw [Value.objectCountMembers, tableCountEntries, objectCount_of_toValue? t w hw,
      objectCount_of_toMembers? rest ws hws]

end

end Toml

end LayeredConfig
