import LayeredConfig.Section.Access
import LayeredConfig.Proofs.Document.Changes

/-!
# Registries of sites that are written and read again

A value that has the shape of a registry of sites has that shape also when it is settled, and is
the same registry. So the registry that is seen through staged changes is the one that the global
file gives back. The converse fails: a null in the place of a field that may be left out is
dropped.
-/

set_option autoImplicit false

namespace LayeredConfig

namespace Schema

theorem andThen_eq_ok {x y : Except String Unit} :
    (do x; y) = .ok () ↔ x = .ok () ∧ y = .ok () := by
  rcases x with e | u
  · exact ⟨fun h => (by cases h), fun h => (by cases h.1)⟩
  · exact ⟨fun h => ⟨rfl, h⟩, fun h => h.2⟩

mutual

def isStrict : Schema → Bool
  | .any => false
  | .list inner => isStrict inner
  | .record _ fields => areStrict fields
  | .int64 | .string | .boolean | .word _ => true

def areStrict : List (String × Presence × Schema) → Bool
  | [] => true
  | (_, presence, inner) :: rest => !presence.allowsNull && isStrict inner && areStrict rest

end

theorem areStrict_cons (name : String) (presence : Presence) (inner : Schema) (rest : Fields) :
    areStrict ((name, presence, inner) :: rest) = true ↔
      presence.allowsNull = false ∧ isStrict inner = true ∧ areStrict rest = true := by
  rw [areStrict, Bool.and_eq_true, Bool.and_eq_true, Bool.not_eq_true', and_assoc]

theorem field?_cons (name key : String) (part : Presence × Schema) (rest : Fields) :
    field? ((name, part) :: rest) key = if name = key then some part else field? rest key := by
  simp only [field?, List.find?_cons]
  by_cases h : name = key
  · rw [if_pos h, beq_iff_eq.mpr h]
    rfl
  · rw [if_neg h, beq_eq_false_iff_ne.mpr h]

theorem strict_of_field? {fields : Fields} (h : areStrict fields = true) {key : String}
    {presence : Presence} {inner : Schema} (hf : field? fields key = some (presence, inner)) :
    presence.allowsNull = false ∧ isStrict inner = true := by
  induction fields with
  | nil => cases hf
  | cons e rest ih =>
    obtain ⟨name, presence', inner'⟩ := e
    obtain ⟨hnull, hinner, hrest⟩ := (areStrict_cons _ _ _ _).1 h
    rw [field?_cons] at hf
    split at hf
    · cases hf
      exact ⟨hnull, hinner⟩
    · exact ih hrest hf

theorem ne_null_of_check {schema : Schema} (h : isStrict schema = true) {v : Value}
    (hc : check schema v = .ok ()) : v ≠ .null := by
  rintro rfl
  cases schema with
  | any => cases h
  | _ => cases hc

theorem checkMembers_cons (fields : Fields) (key : String) (v : Value)
    (rest : List (String × Value)) :
    checkMembers fields ((key, v) :: rest) = .ok () ↔
      (∀ presence inner, field? fields key = some (presence, inner) →
        presence.allowsNull = true ∧ v = .null ∨ check inner v = .ok ()) ∧
      checkMembers fields rest = .ok () := by
  rw [checkMembers]
  rcases field? fields key with _ | ⟨presence, inner⟩
  · exact ⟨fun h => ⟨fun _ _ hf => (by cases hf), h⟩, fun h => h.2⟩
  · dsimp only
    by_cases hnull : presence.allowsNull = true ∧ v = .null
    · rw [if_pos (by rw [Bool.and_eq_true, beq_iff_eq]; exact hnull)]
      refine ⟨fun h => ⟨fun p i hf => .inl ?_, h⟩, fun h => h.2⟩
      cases hf
      exact hnull
    · rw [if_neg (by rw [Bool.and_eq_true, beq_iff_eq]; exact hnull)]
      rw [andThen_eq_ok]
      constructor
      · rintro ⟨hv, hrest⟩
        refine ⟨fun p i hf => .inr ?_, hrest⟩
        cases hf
        exact hv
      · rintro ⟨hv, hrest⟩
        exact ⟨(hv presence inner rfl).resolve_left hnull, hrest⟩

theorem checkItems_cons (inner : Schema) (v : Value) (vs : List Value) :
    checkItems inner (v :: vs) = .ok () ↔
      check inner v = .ok () ∧ checkItems inner vs = .ok () := by
  rw [checkItems, andThen_eq_ok]

theorem checkItems_iff (inner : Schema) (items : List Value) :
    checkItems inner items = .ok () ↔ ∀ v ∈ items, check inner v = .ok () := by
  induction items with
  | nil => exact ⟨fun _ v hv => (by cases hv), fun _ => rfl⟩
  | cons v vs ih => rw [checkItems_cons, ih, List.forall_mem_cons]

theorem checkPositions_cons (name key : String) (count position : Nat) (presence : Presence)
    (inner : Schema) (fields : Fields) (v : Value) (vs : List Value) :
    checkPositions name count position ((key, presence, inner) :: fields) (v :: vs) = .ok () ↔
      (presence.allowsNull = true ∧ v = .null ∨ check inner v = .ok ()) ∧
      checkPositions name count (position + 1) fields vs = .ok () := by
  rw [checkPositions]
  by_cases hnull : presence.allowsNull = true ∧ v = .null
  · rw [if_pos (by rw [Bool.and_eq_true, beq_iff_eq]; exact hnull)]
    exact ⟨fun h => ⟨.inl hnull, h⟩, fun h => h.2⟩
  · rw [if_neg (by rw [Bool.and_eq_true, beq_iff_eq]; exact hnull), andThen_eq_ok,
      or_iff_right hnull]

theorem check_record_obj (name : String) (fields : Fields) (members : List (String × Value)) :
    check (.record name fields) (.obj members) = .ok () ↔
      checkMembers fields members = .ok () ∧ missingField? fields members = none := by
  rw [check, andThen_eq_ok]
  apply and_congr_right
  intro _
  rcases missingField? fields members with _ | missing
  · exact ⟨fun _ => rfl, fun _ => rfl⟩
  · exact ⟨fun h => (by cases h), fun h => (by cases h)⟩

theorem check_of_member {fields : Fields} {members : List (String × Value)}
    (h : checkMembers fields members = .ok ()) {key : String} {v : Value}
    (hv : Table.get? members key = some v) {presence : Presence} {inner : Schema}
    (hf : field? fields key = some (presence, inner)) :
    presence.allowsNull = true ∧ v = .null ∨ check inner v = .ok () := by
  induction members with
  | nil => cases hv
  | cons e rest ih =>
    obtain ⟨k, w⟩ := e
    obtain ⟨hfirst, hrest⟩ := (checkMembers_cons _ _ _ _).1 h
    rw [Table.get?] at hv
    split at hv
    · rename_i heq
      cases hv
      exact hfirst presence inner (heq ▸ hf)
    · exact ih hrest hv

theorem ne_null_of_member {fields : Fields} (hs : areStrict fields = true)
    {members : List (String × Value)} (h : checkMembers fields members = .ok ()) {key : String}
    {v : Value} (hv : Table.get? members key = some v) {presence : Presence} {inner : Schema}
    (hf : field? fields key = some (presence, inner)) : v ≠ .null := by
  obtain ⟨hnull, hinner⟩ := strict_of_field? hs hf
  rcases check_of_member h hv hf with ⟨hallowed, -⟩ | hcheck
  · cases hnull.symm.trans hallowed
  · exact ne_null_of_check hinner hcheck

theorem check_of_position {fields : Fields} (name : String) (count position : Nat)
    {items : List Value} (h : checkPositions name count position fields items = .ok ())
    {key : String} {v : Value} (hv : items[fields.findIdx (·.1 == key)]? = some v)
    {presence : Presence} {inner : Schema} (hf : field? fields key = some (presence, inner)) :
    v = .null ∨ check inner v = .ok () := by
  induction fields generalizing items position with
  | nil => cases hf
  | cons e rest ih =>
    obtain ⟨k, presence', inner'⟩ := e
    cases items with
    | nil => cases hv
    | cons w ws =>
      obtain ⟨hfirst, hrest⟩ := (checkPositions_cons _ _ _ _ _ _ _ _ _).1 h
      rw [field?_cons] at hf
      rw [List.findIdx_cons] at hv
      by_cases heq : k = key
      · rw [if_pos heq] at hf
        cases hf
        rw [beq_iff_eq.mpr heq] at hv
        cases hv
        exact hfirst.imp_left And.right
      · rw [if_neg heq] at hf
        rw [beq_eq_false_iff_ne.mpr heq] at hv
        exact ih (position + 1) hrest hv hf

theorem check_fieldOf {name : String} {fields : Fields} {v : Value}
    (h : check (.record name fields) v = .ok ()) {key : String} {presence : Presence}
    {inner : Schema} (hf : field? fields key = some (presence, inner)) :
    fieldOf fields v key = .null ∨ check inner (fieldOf fields v key) = .ok () := by
  cases v with
  | arr items =>
    rw [check] at h
    simp only [fieldOf]
    rcases Option.eq_none_or_eq_some (items[fields.findIdx (·.1 == key)]?) with hv | ⟨w, hv⟩
    · rw [hv]
      exact .inl rfl
    · rw [hv]
      exact check_of_position name _ _ h hv hf
  | obj members =>
    simp only [fieldOf, Value.get?]
    rcases hv : Table.get? members key with _ | w
    · exact .inl rfl
    · exact (check_of_member ((check_record_obj _ _ _).1 h).1 hv hf).imp_left And.right
  | _ => exact .inl rfl

theorem missingField?_cons (name : String) (presence : Presence) (inner : Schema) (fields : Fields)
    (members : List (String × Value)) :
    missingField? ((name, presence, inner) :: fields) members = none ↔
      (presence.mayBeNoMember = true ∨ Table.contains members name = true) ∧
        missingField? fields members = none := by
  simp only [missingField?, List.find?_cons, Option.map_eq_none_iff]
  rcases presence.mayBeNoMember with _ | _
  · rcases Table.contains members name with _ | _
    · simp
    · simp
  · simp

theorem field?_isSome {fields : Fields} {name : String} {part : Presence × Schema}
    (h : (name, part) ∈ fields) : ∃ part', field? fields name = some part' := by
  induction fields with
  | nil => cases h
  | cons e rest ih =>
    obtain ⟨k, part'⟩ := e
    rw [field?_cons]
    rcases List.mem_cons.mp h with heq | hmem
    · cases heq
      exact ⟨part, if_pos rfl⟩
    · split
      · exact ⟨part', rfl⟩
      · exact ih hmem

theorem missingField?_settled {fields : Fields} (hs : areStrict fields = true)
    {members : List (String × Value)} (hmembers : checkMembers fields members = .ok ())
    (part : Fields) (hpart : ∀ e ∈ part, e ∈ fields) (h : missingField? part members = none) :
    missingField? part (Value.settledMembers members) = none := by
  induction part with
  | nil => rfl
  | cons e rest ih =>
    obtain ⟨name, presence, inner⟩ := e
    obtain ⟨hthere, hrest⟩ := (missingField?_cons _ _ _ _ _).1 h
    refine (missingField?_cons _ _ _ _ _).2 ⟨hthere.imp_right fun hcontains => ?_,
      ih (fun e he => hpart e (List.mem_cons_of_mem _ he)) hrest⟩
    obtain ⟨v, hv⟩ := Option.isSome_iff_exists.mp hcontains
    obtain ⟨⟨presence', inner'⟩, hf⟩ := field?_isSome (hpart _ List.mem_cons_self)
    exact Value.contains_settledMembers members name v hv (ne_null_of_member hs hmembers hv hf)

mutual

/-- A value of a strict shape has it also when it is settled. -/
theorem check_settled : ∀ (v : Value) (schema : Schema), isStrict schema = true →
    check schema v = .ok () → check schema v.settled = .ok ()
  | .null, _, _, h => h
  | .bool _, _, _, h => h
  | .float _, _, _, h => h
  | .str _, _, _, h => h
  | .int n, schema, hs, h => by
    by_cases hn : Decimal.isInt64 n = true
    · rw [Value.settled, if_pos hn]
      exact h
    · cases schema with
      | any => cases hs
      | int64 =>
        rw [check, if_neg hn] at h
        cases h
      | _ => cases h
  | .arr items, schema, hs, h => by
    cases schema with
    | any => cases hs
    | list inner => exact checkItems_settled items inner hs h
    | record name fields => exact checkPositions_settled items name _ 0 fields hs h
    | _ => cases h
  | .obj members, schema, hs, h => by
    cases schema with
    | any => cases hs
    | record name fields =>
      obtain ⟨hmembers, hmissing⟩ := (check_record_obj _ _ _).1 h
      apply (check_record_obj _ _ _).2
      refine ⟨checkMembers_settled members fields hs hmembers, ?_⟩
      exact missingField?_settled hs hmembers fields (fun _ he => he) hmissing
    | _ => cases h

theorem checkItems_settled : ∀ (items : List Value) (inner : Schema), isStrict inner = true →
    checkItems inner items = .ok () → checkItems inner (Value.settledItems items) = .ok ()
  | [], _, _, _ => rfl
  | v :: vs, inner, hs, h => by
    obtain ⟨hv, hvs⟩ := (checkItems_cons _ _ _).1 h
    exact (checkItems_cons _ _ _).2
      ⟨check_settled v inner hs hv, checkItems_settled vs inner hs hvs⟩

theorem checkMembers_settled : ∀ (members : List (String × Value)) (fields : Fields),
    areStrict fields = true → checkMembers fields members = .ok () →
      checkMembers fields (Value.settledMembers members) = .ok ()
  | [], _, _, _ => rfl
  | (key, v) :: rest, fields, hs, h => by
    obtain ⟨hv, hrest⟩ := (checkMembers_cons _ _ _ _).1 h
    have hsettled := checkMembers_settled rest fields hs hrest
    by_cases hnull : v = .null
    · subst hnull
      exact hsettled
    · rw [Value.settledMembers_cons key v rest hnull]
      refine (checkMembers_cons _ _ _ _).2 ⟨fun presence inner hf => .inr ?_, hsettled⟩
      have hcheck := (hv presence inner hf).resolve_left fun h => hnull h.2
      exact check_settled v inner (strict_of_field? hs hf).2 hcheck

theorem checkPositions_settled : ∀ (items : List Value) (name : String) (count position : Nat)
    (fields : Fields), areStrict fields = true →
    checkPositions name count position fields items = .ok () →
      checkPositions name count position fields (Value.settledItems items) = .ok ()
  | [], _, _, _, _, _, h => h
  | v :: vs, _, _, _, [], _, h => by cases h
  | v :: vs, name, count, position, (key, presence, inner) :: fields, hs, h => by
    obtain ⟨hnull, hinner, hfields⟩ := (areStrict_cons _ _ _ _).1 hs
    obtain ⟨hv, hvs⟩ := (checkPositions_cons _ _ _ _ _ _ _ _ _).1 h
    have hcheck := hv.resolve_left fun h => by cases hnull.symm.trans h.1
    exact (checkPositions_cons _ _ _ _ _ _ _ _ _).2 ⟨.inr (check_settled v inner hinner hcheck),
      checkPositions_settled vs name count (position + 1) fields hfields hvs⟩

end

theorem fieldOf_wellFormed (fields : Fields) {v : Value} (hv : v.WellFormed) (key : String) :
    (fieldOf fields v key).WellFormed := by
  cases v with
  | arr items =>
    simp only [fieldOf]
    rcases Option.eq_none_or_eq_some (items[fields.findIdx (·.1 == key)]?) with hnone | ⟨w, hw⟩
    · rw [hnone]
      exact trivial
    · rw [hw]
      exact Value.WellFormedItems.mem hv w (List.mem_of_getElem? hw)
  | obj members =>
    simp only [fieldOf, Value.get?]
    rcases hw : Table.get? members key with _ | w
    · exact trivial
    · exact (Value.wellFormedMembers_iff members).1 hv.2 _ (Table.mem_of_get? members key w hw)
  | _ => exact trivial

theorem fieldOf_settled (fields : Fields) {v : Value} (hv : v.WellFormed) (key : String) :
    fieldOf fields v.settled key = (fieldOf fields v key).settled := by
  cases v with
  | int n =>
    rw [Value.settled]
    split
    · rfl
    · rfl
  | arr items =>
    simp only [Value.settled, fieldOf]
    rw [Value.settledItems_eq_map, List.getElem?_map]
    exact Option.getD_map Value.settled .null _
  | obj members => exact Value.getD_settledMembers members hv.1 key
  | _ => rfl

def isScalar : Schema → Bool
  | .int64 | .string | .boolean | .word _ => true
  | _ => false

theorem settled_of_isScalar {schema : Schema} (h : schema.isScalar = true) {v : Value}
    (hc : check schema v = .ok ()) : v.settled = v := by
  cases schema with
  | int64 =>
    cases v with
    | int n =>
      rw [check] at hc
      split at hc
      · rename_i hn
        rw [Value.settled, if_pos hn]
      · cases hc
    | _ => cases hc
  | string =>
    cases v with
    | str s => rfl
    | _ => cases hc
  | boolean =>
    cases v with
    | bool b => rfl
    | _ => cases hc
  | word allowed =>
    cases v with
    | str s => rfl
    | _ => cases hc
  | _ => cases h

variable {record : String} {fields : Fields} {v : Value} {key : String} {presence : Presence}
  {inner : Schema}

/-- Settling a record leaves its scalar fields. -/
theorem fieldOf_settled_of_isScalar (hv : v.WellFormed)
    (hc : check (.record record fields) v = .ok ())
    (hf : field? fields key = some (presence, inner)) (hs : inner.isScalar = true) :
    fieldOf fields v.settled key = fieldOf fields v key := by
  rw [fieldOf_settled fields hv]
  rcases check_fieldOf hc hf with hnull | hinner
  · rw [hnull]
    rfl
  · exact settled_of_isScalar hs hinner

theorem map_arr?_fieldOf_settled {α : Type} (f : Value → α) (hv : v.WellFormed)
    (hc : check (.record record fields) v = .ok ())
    (hf : field? fields key = some (presence, .list inner))
    (hitem : ∀ w, w.WellFormed → check inner w = .ok () → f w.settled = f w) :
    (fieldOf fields v.settled key).arr?.map (·.map f) =
      (fieldOf fields v key).arr?.map (·.map f) := by
  rw [fieldOf_settled fields hv]
  have hw := fieldOf_wellFormed fields hv key
  rcases check_fieldOf hc hf with hnull | hinner
  · rw [hnull]
    rfl
  · generalize fieldOf fields v key = w at hw hinner
    cases w with
    | arr items =>
      have hchecked := (checkItems_iff inner items).1 hinner
      simp only [Value.settled, Value.arr?, Option.map_some, Option.some_inj]
      rw [Value.settledItems_eq_map, List.map_map]
      apply List.map_congr_left
      exact fun w hmem => hitem w (Value.WellFormedItems.mem hw w hmem) (hchecked w hmem)
    | _ => cases hinner

end Schema

open Schema

theorem Application.ofValue_settled (v : Value) (hv : v.WellFormed)
    (hc : check Application.schema v = .ok ()) :
    Application.ofValue v.settled = Application.ofValue v := by
  simp only [Application.ofValue]
  rw [fieldOf_settled_of_isScalar hv hc rfl rfl, fieldOf_settled_of_isScalar hv hc rfl rfl]

theorem Site.ofValue_settled (v : Value) (hv : v.WellFormed)
    (hc : check Site.schema v = .ok ()) : Site.ofValue v.settled = Site.ofValue v := by
  simp only [Site.ofValue, applicationsOf]
  rw [fieldOf_settled_of_isScalar hv hc rfl rfl, fieldOf_settled_of_isScalar hv hc rfl rfl,
    fieldOf_settled_of_isScalar hv hc rfl rfl, fieldOf_settled_of_isScalar hv hc rfl rfl,
    map_arr?_fieldOf_settled Application.ofValue hv hc rfl Application.ofValue_settled]

namespace Sites

theorem ofValue?_eq_ok {v : Value} {s : Sites} :
    ofValue? v = .ok s ↔ check schema v = .ok () ∧ ofValue v = s := by
  simp only [ofValue?]
  rcases check schema v with why | u
  · exact ⟨fun h => (by cases h), fun h => (by cases h.1)⟩
  · exact ⟨fun h => ⟨rfl, Except.ok.inj h⟩, fun h => congrArg Except.ok h.2⟩

/-- A registry that can be read is read the same when its value is settled. -/
theorem ofValue?_settled {v : Value} (hv : v.WellFormed) {s : Sites} (h : ofValue? v = .ok s) :
    ofValue? v.settled = .ok s := by
  obtain ⟨hc, rfl⟩ := ofValue?_eq_ok.1 h
  refine ofValue?_eq_ok.2 ⟨check_settled v schema rfl hc, ?_⟩
  have hfield : field? fields "entries" = some (.defaulted, .list Site.schema) := rfl
  have hentries := map_arr?_fieldOf_settled Site.ofValue hv hc hfield Site.ofValue_settled
  have hlist : ∀ o : Option (List Value),
      (o.getD []).map Site.ofValue = (o.map (·.map Site.ofValue)).getD [] :=
    fun o => (Option.getD_map (List.map Site.ofValue) [] o).symm
  simp only [ofValue]
  rw [hlist, hlist, hentries]

end Sites

theorem Access.sitesOf_settled {d : LevelDocument} (hd : d.WellFormed) {s : Sites}
    (h : sitesOf d = .ok s) : sitesOf d.settled = .ok s := by
  simp only [sitesOf] at h ⊢
  rw [LevelDocument.section?_settled]
  rcases hv : d.section? Registry.sitesSection with _ | v
  · rw [hv] at h
    exact h
  · rw [hv] at h
    have hmem := Table.mem_of_get? d.sections _ v hv
    have hwell := (Value.wellFormedMembers_iff d.sections).1 hd.sections_wellFormed _ hmem
    exact Sites.ofValue?_settled hwell h

end LayeredConfig
