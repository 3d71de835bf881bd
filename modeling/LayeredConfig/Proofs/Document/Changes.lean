import LayeredConfig.Section.Mutation
import LayeredConfig.Proofs.Document.Sections

/-!
# Changes of level documents

A mutation keeps a document well-formed and writable, if it brings only data that may be
written. Done to two documents whose sections are related, it gives such documents again.
-/

set_option autoImplicit false

namespace LayeredConfig

open Table (keys Sorted Alike)

namespace LevelDocument

structure Storable (d : LevelDocument) : Prop extends d.WellFormed where
  representable : ∀ e ∈ d.sections, e.2.isRepresentable = true

theorem sectionTables_eq_ok_iff (sections : Table Value) :
    (∃ tables, sectionTables sections = .ok tables) ↔
      ∀ e ∈ sections, e.2.isRepresentable = true := by
  induction sections with
  | nil => exact ⟨fun _ e he => (List.not_mem_nil he).elim, fun _ => ⟨[], rfl⟩⟩
  | cons e sections ih =>
    obtain ⟨name, v⟩ := e
    rw [List.forall_mem_cons, ← ih]
    constructor
    · rintro ⟨tables, h⟩
      obtain ⟨t, others, ht, hothers, -⟩ := sectionTables_cons name v sections tables h
      exact ⟨by rw [Value.isRepresentable, ht]; rfl, others, hothers⟩
    · rintro ⟨hv, others, hothers⟩
      obtain ⟨t, ht⟩ := Option.isSome_iff_exists.mp hv
      rw [sectionTables, ht, hothers]
      exact ⟨_, rfl⟩

theorem Storable.render {d : LevelDocument} (h : d.Storable) : ∃ text, d.render = .ok text := by
  obtain ⟨tables, htables⟩ := (sectionTables_eq_ok_iff d.sections).2 h.representable
  simp only [LevelDocument.render, toToml]
  rw [htables]
  exact ⟨_, rfl⟩

theorem storable_empty : empty.Storable where
  modes_sorted := Table.sorted_nil
  modes_declared := fun e he => by cases he
  sections_sorted := Table.sorted_nil
  sections_wellFormed := trivial
  sections_objects := fun e he => by cases he
  representable := fun e he => by cases he

theorem storable_of_parse (source : String) (d : LevelDocument) (h : parse source = .ok d) :
    d.Storable := by
  obtain ⟨hd, -, text, htext⟩ := parse_stays source d h
  obtain ⟨tables, htables, -⟩ := render_eq_ok htext
  obtain ⟨sections, hsections, -⟩ := toToml_eq d tables htables
  exact ⟨hd, (sectionTables_eq_ok_iff d.sections).1 ⟨sections, hsections⟩⟩

variable {d : LevelDocument}

theorem Storable.setSection (h : d.Storable) (name : String) (v : Value) (hv : v.WellFormed)
    (hobject : v.isObject = true) (hrepresentable : v.isRepresentable = true) :
    (d.setSection name v).Storable where
  modes_sorted := h.modes_sorted
  modes_declared := h.modes_declared
  sections_sorted := Table.sorted_insert d.sections name v h.sections_sorted
  sections_wellFormed := by
    have hall := (Value.wellFormedMembers_iff d.sections).1 h.sections_wellFormed
    apply (Value.wellFormedMembers_iff _).2
    intro e he
    rcases Table.mem_insert d.sections name v e he with rfl | he
    · exact hv
    · exact hall e he
  sections_objects e he := by
    rcases Table.mem_insert d.sections name v e he with rfl | he
    · exact hobject
    · exact h.sections_objects e he
  representable e he := by
    rcases Table.mem_insert d.sections name v e he with rfl | he
    · exact hrepresentable
    · exact h.representable e he

theorem Storable.removeSection (h : d.Storable) (name : String) :
    (d.removeSection name).Storable where
  modes_sorted := h.modes_sorted
  modes_declared := h.modes_declared
  sections_sorted := h.sections_sorted.sublist (Table.erase_sublist d.sections name)
  sections_wellFormed := by
    have hall := (Value.wellFormedMembers_iff d.sections).1 h.sections_wellFormed
    apply (Value.wellFormedMembers_iff _).2
    exact fun e he => hall e ((Table.erase_sublist d.sections name).subset he)
  sections_objects e he := h.sections_objects e ((Table.erase_sublist d.sections name).subset he)
  representable e he := h.representable e ((Table.erase_sublist d.sections name).subset he)

theorem Storable.setMode (h : d.Storable) (name : String) (mode : OverrideMode) :
    (d.setMode name mode).Storable where
  modes_sorted := by
    change Sorted (if mode = .inherit then _ else _)
    split
    · exact h.modes_sorted.sublist (Table.erase_sublist d.modes name)
    · exact Table.sorted_insert d.modes name mode h.modes_sorted
  modes_declared := by
    change ∀ e ∈ (if mode = .inherit then Table.erase d.modes name
      else Table.insert d.modes name mode), _
    intro e he
    split at he
    · exact h.modes_declared e ((Table.erase_sublist d.modes name).subset he)
    · rename_i hmode
      rcases Table.mem_insert d.modes name mode e he with rfl | he
      · exact hmode
      · exact h.modes_declared e he
  sections_sorted := h.sections_sorted
  sections_wellFormed := h.sections_wellFormed
  sections_objects := h.sections_objects
  representable := h.representable

end LevelDocument

namespace Mutation

def WellFormed (m : Mutation) : Prop :=
  match m.content with
  | some (.replace v) => v.WellFormed
  | _ => True

instance (m : Mutation) : Decidable m.WellFormed := by
  unfold WellFormed
  split <;> infer_instance

def Storable (m : Mutation) : Prop :=
  ∀ v, m.content = some (.replace v) →
    v.WellFormed ∧ v.isObject = true ∧ v.isRepresentable = true

variable {m : Mutation} {name : String} {d : LevelDocument}

theorem WellFormed.value (h : m.WellFormed) (v : Value) (hv : m.content = some (.replace v)) :
    v.WellFormed := by
  simp only [WellFormed] at h
  rwa [hv] at h

def applyContent (m : Mutation) (name : String) (d : LevelDocument) : LevelDocument :=
  match m.content with
  | some (.replace v) => d.setSection name v
  | some .revert => d.removeSection name
  | .none => d

@[simp] theorem applyContent_modes (m : Mutation) (name : String) (d : LevelDocument) :
    (m.applyContent name d).modes = d.modes := by
  simp only [applyContent]
  split
  · rfl
  · rfl
  · rfl

theorem apply_eq (m : Mutation) (name : String) (d : LevelDocument) :
    m.apply name d = match m.mode with
      | some mode => (m.applyContent name d).setMode name mode
      | .none => m.applyContent name d := rfl

theorem Storable.apply (hm : m.Storable) (h : d.Storable) : (m.apply name d).Storable := by
  have hcontent : (m.applyContent name d).Storable := by
    simp only [applyContent]
    split
    · rename_i v hv
      obtain ⟨hv, hobject, hrepresentable⟩ := hm v hv
      exact h.setSection name v hv hobject hrepresentable
    · exact h.removeSection name
    · exact h
  rw [apply_eq]
  split
  · exact hcontent.setMode name _
  · exact hcontent

theorem apply_modes (d' : LevelDocument) (h : d'.modes = d.modes) :
    (m.apply name d').modes = (m.apply name d).modes := by
  rw [apply_eq, apply_eq]
  split
  · unfold LevelDocument.setMode
    dsimp only
    rw [applyContent_modes, applyContent_modes, h]
  · rw [applyContent_modes, applyContent_modes, h]

@[simp] theorem apply_sections (m : Mutation) (name : String) (d : LevelDocument) :
    (m.apply name d).sections = (m.applyContent name d).sections := by
  rw [apply_eq]
  split
  · rfl
  · rfl

@[simp] theorem section?_apply_of_ne (m : Mutation) {name other : String} (h : other ≠ name)
    (d : LevelDocument) : (m.apply other d).section? name = d.section? name := by
  simp only [LevelDocument.section?]
  rw [apply_sections]
  simp only [applyContent]
  split
  · rw [LevelDocument.setSection, Table.get?_insert, if_neg h]
  · rw [LevelDocument.removeSection, Table.get?_erase, if_neg h]
  · rfl

@[simp] theorem mode_apply_of_ne (m : Mutation) {name other : String} (h : other ≠ name)
    (d : LevelDocument) : (m.apply other d).mode name = d.mode name := by
  rw [apply_eq]
  simp only [LevelDocument.mode]
  split
  · simp only [LevelDocument.setMode]
    rw [applyContent_modes]
    split
    · rw [Table.get?_erase, if_neg h]
    · rw [Table.get?_insert, if_neg h]
  · rw [applyContent_modes]

theorem mode_apply_self (m : Mutation) (name : String) (d : LevelDocument) :
    (m.apply name d).mode name = m.mode.getD (d.mode name) := by
  rw [apply_eq]
  simp only [LevelDocument.mode]
  split
  · rename_i mode hmode
    rw [hmode]
    simp only [LevelDocument.setMode]
    split
    · rename_i hinherit
      rw [Table.get?_erase, if_pos rfl, hinherit]
      rfl
    · rw [Table.get?_insert, if_pos rfl]
      rfl
  · rename_i hmode
    rw [applyContent_modes, hmode]
    rfl

/-- Sections stay related, and the one whose content changes is the same in both. -/
theorem apply_alike {P Q : String → Value → Value → Prop} (d' : LevelDocument)
    (hs : Sorted d.sections) (h : Alike P d.sections d'.sections)
    (hsame : m.content.isSome → ∀ v, Q name v v)
    (hother : ∀ k v w, (m.content.isSome → k ≠ name) → P k v w → Q k v w) :
    Alike Q (m.apply name d).sections (m.apply name d').sections := by
  rw [apply_sections, apply_sections]
  simp only [applyContent]
  split
  · rename_i v hv
    rw [hv] at hsame hother
    exact h.insert hs name v v (hsame rfl v) fun k a b hk => hother k a b fun _ => hk
  · rename_i hv
    rw [hv] at hother
    exact h.erase name fun k a b hk => hother k a b fun _ => hk
  · rename_i hv
    rw [hv] at hother
    exact h.imp fun k a b => hother k a b fun hnone => by cases hnone

end Mutation

end LayeredConfig
