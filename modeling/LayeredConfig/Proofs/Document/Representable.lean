import LayeredConfig.Proofs.Document.Settled
import LayeredConfig.Section.Registry

/-!
# Values without null items

Null members of an object are left out of a level file, at any depth, but nothing stands for a null
item of a list. The objects that a section accepts are therefore those that have no null item
anywhere.
-/

set_option autoImplicit false

namespace LayeredConfig

namespace Value

inductive NullItem : Value → Prop where
  | here {items : List Value} (h : .null ∈ items) : NullItem (.arr items)
  | item {items : List Value} {v : Value} (hv : v ∈ items) (h : NullItem v) : NullItem (.arr items)
  | member {members : List (String × Value)} {key : String} {v : Value}
      (hv : (key, v) ∈ members) (h : NullItem v) : NullItem (.obj members)

theorem nullItem_arr_iff {items : List Value} :
    NullItem (.arr items) ↔ ∃ v ∈ items, v = .null ∨ NullItem v := by
  constructor
  · rintro (h | ⟨hv, h⟩ | _)
    · exact ⟨.null, h, .inl rfl⟩
    · exact ⟨_, hv, .inr h⟩
  · rintro ⟨v, hv, rfl | h⟩
    · exact .here hv
    · exact .item hv h

theorem nullItem_obj_iff {members : List (String × Value)} :
    NullItem (.obj members) ↔ ∃ e ∈ members, NullItem e.2 := by
  constructor
  · rintro (_ | _ | ⟨hv, h⟩)
    exact ⟨_, hv, h⟩
  · rintro ⟨⟨key, v⟩, hv, h⟩
    exact .member hv h

end Value

namespace Toml

open Value

mutual

/-- Null alone and values with a null item have no counterpart in a file. -/
theorem ofValue?_eq_none_iff : ∀ v : Value, ofValue? v = none ↔ v = .null ∨ v.NullItem
  | .null => ⟨fun _ => .inl rfl, fun _ => rfl⟩
  | .bool _ | .int _ | .float _ | .str _ =>
    ⟨fun h => (by cases h), fun h => h.elim (fun h => by cases h) fun h => by cases h⟩
  | .arr items => by
    rw [ofValue?, Option.map_eq_none_iff, ofItems?_eq_none_iff items, nullItem_arr_iff]
    exact ⟨.inr, fun h => h.resolve_left fun h => by cases h⟩
  | .obj members => by
    rw [ofValue?, Option.map_eq_none_iff, ofMembers?_eq_none_iff members, nullItem_obj_iff]
    exact ⟨.inr, fun h => h.resolve_left fun h => by cases h⟩

theorem ofItems?_eq_none_iff : ∀ items : List Value,
    ofItems? items = none ↔ ∃ v ∈ items, v = .null ∨ v.NullItem
  | [] => ⟨fun h => (by cases h), fun ⟨_, hv, _⟩ => (by cases hv)⟩
  | v :: vs => by
    have hfirst := ofValue?_eq_none_iff v
    have hrest := ofItems?_eq_none_iff vs
    rw [List.exists_mem_cons_iff, ← hfirst, ← hrest, ofItems?]
    rcases ofValue? v with _ | t
    · simp
    · rcases ofItems? vs with _ | ts
      · simp
      · simp

theorem ofMembers?_eq_none_iff : ∀ members : List (String × Value),
    ofMembers? members = none ↔ ∃ e ∈ members, e.2.NullItem
  | [] => ⟨fun h => (by cases h), fun ⟨_, he, _⟩ => (by cases he)⟩
  | (key, v) :: rest => by
    have hrest := ofMembers?_eq_none_iff rest
    rw [List.exists_mem_cons_iff, ← hrest]
    by_cases hnull : v = .null
    · subst hnull
      rw [ofMembers?]
      exact ⟨.inr, fun h => h.resolve_left fun h => by cases h⟩
    · have hfirst : ofValue? v = none ↔ v.NullItem :=
        (ofValue?_eq_none_iff v).trans ⟨fun h => h.resolve_left hnull, .inr⟩
      rw [ofMembers?_cons key v rest hnull, ← hfirst]
      rcases ofValue? v with _ | t
      · simp
      · rcases ofMembers? rest with _ | ts
        · simp
        · simp

end

end Toml

theorem Value.isRepresentable_iff {v : Value} :
    v.isRepresentable = true ↔ v ≠ .null ∧ ¬ v.NullItem := by
  rw [Value.isRepresentable, Option.isSome_iff_ne_none, ne_eq, Toml.ofValue?_eq_none_iff, not_or]

/-- A section accepts the objects without null items. -/
theorem SectionDefinition.validate_eq_ok_iff {definition : SectionDefinition} {v : Value} :
    definition.validate v = .ok () ↔ v.isObject = true ∧ ¬ v.NullItem := by
  have hrepresentable : v.isObject = true → (v.isRepresentable = true ↔ ¬ v.NullItem) := by
    intro hobject
    rw [Value.isRepresentable_iff]
    refine and_iff_right fun h => ?_
    rw [h] at hobject
    cases hobject
  simp only [SectionDefinition.validate]
  rcases hobject : v.isObject with _ | _
  · simp
  · rw [← hrepresentable hobject]
    rcases v.isRepresentable with _ | _ <;> simp

end LayeredConfig
