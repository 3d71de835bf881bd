import Mathlib.Logic.Function.Iterate
import LayeredConfig.Proofs.Document.Rewriting

/-!
# Files rewritten in either order

Each change rewrites the whole file, so a section goes through its text once for every change that
comes after. What becomes of one section is told by the changes and by what was read of it first,
whatever the other sections are. Two lists of changes of different sections can be made in either
order just when each list leaves its own sections so that they are read as they were written.
-/

set_option autoImplicit false

namespace LayeredConfig

open Table (keys Sorted Alike)

namespace LevelDocument

theorem get?_modes_eq_some_iff {d : LevelDocument} (hd : d.WellFormed) (name : String)
    (mode : OverrideMode) :
    Table.get? d.modes name = some mode ↔ d.mode name = mode ∧ mode ≠ .inherit := by
  simp only [LevelDocument.mode]
  constructor
  · intro h
    rw [h]
    exact ⟨rfl, hd.modes_declared _ (Table.mem_of_get? d.modes name mode h)⟩
  · rintro ⟨h, hne⟩
    rcases hmode : Table.get? d.modes name with _ | declared
    · rw [hmode] at h
      exact absurd h.symm hne
    · rw [hmode] at h
      exact congrArg some h

theorem settled_eq_iff {d d' : LevelDocument} (hd : d.WellFormed) (hd' : d'.WellFormed) :
    d'.settled = d.settled ↔ (∀ name, d'.mode name = d.mode name) ∧
      ∀ name, (d'.section? name).map Value.settled = (d.section? name).map Value.settled := by
  constructor
  · intro h
    constructor
    · intro name
      rw [← mode_settled d', h, mode_settled]
    · intro name
      rw [← section?_settled, h, section?_settled]
  · rintro ⟨hmodes, hsections⟩
    have hkeys : ∀ d : LevelDocument, keys (settledSections d.sections) = keys d.sections :=
      fun d => List.map_map
    refine LevelDocument.mk.injEq _ _ _ _ ▸ ⟨?_, ?_⟩
    · refine hd'.modes_sorted.ext hd.modes_sorted fun name => Option.ext fun mode => ?_
      rw [get?_modes_eq_some_iff hd', get?_modes_eq_some_iff hd, hmodes]
    · refine (hd'.sections_sorted.of_keys (hkeys d')).ext (hd.sections_sorted.of_keys (hkeys d))
        fun name => ?_
      have hname := hsections name
      rwa [← section?_settled, ← section?_settled] at hname

/-- What is read of a section that was written depends on that section alone. -/
theorem section?_of_parse {d back : LevelDocument} {text : String} (hd : d.WellFormed)
    (hr : d.render = .ok text) (hp : parse text = .ok back) (name : String) :
    back.section? name = (d.section? name).bind Value.reread? := by
  obtain ⟨-, halike⟩ := parse_rereads d back text hd hr hp
  have hrel := halike.rel_get? name
  simp only [section?]
  generalize Table.get? d.sections name = before at hrel
  generalize Table.get? back.sections name = after at hrel
  cases hrel with
  | none => rfl
  | some h => exact h.symm

end LevelDocument

namespace Staged

def sets (e : Staged) (name : String) : Bool := e.mutation.content.isSome && e.name == name

def brings? (e : Staged) : Option Value :=
  match e.mutation.content with
  | some (.replace v) => some v
  | _ => none

def changeSection (name : String) (v : Option Value) (e : Staged) : Option Value :=
  bif e.sets name then e.brings? else v

def changeMode (name : String) (mode : OverrideMode) (e : Staged) : OverrideMode :=
  if e.name = name then e.mutation.mode.getD mode else mode

def rewriteSection (name : String) (v : Option Value) (e : Staged) : Option Value :=
  changeSection name (v.bind Value.reread?) e

def passSection (name : String) : List Staged → Option Value → Option Value
  | [], v => v
  | e :: rest, v => rest.foldl (rewriteSection name) (changeSection name v e)

variable {name : String} {e : Staged} {d : LevelDocument}

theorem changeSection_of_sets (h : e.sets name = true) (v : Option Value) :
    changeSection name v e = e.brings? := by
  simp only [changeSection]
  rw [h, cond_true]

theorem changeSection_of_not_sets (h : e.sets name = false) (v : Option Value) :
    changeSection name v e = v := by
  simp only [changeSection]
  rw [h, cond_false]

theorem section?_apply (name : String) (e : Staged) (d : LevelDocument) :
    (e.mutation.apply e.name d).section? name = changeSection name (d.section? name) e := by
  by_cases hname : e.name = name
  · subst hname
    simp only [LevelDocument.section?, changeSection, sets, brings?]
    rw [Mutation.apply_sections, Mutation.applyContent, beq_self_eq_true, Bool.and_true]
    rcases e.mutation.content with _ | (w | _)
    · rfl
    · exact (Table.get?_insert _ _ _ _).trans (if_pos rfl)
    · exact (Table.get?_erase _ _ _).trans (if_pos rfl)
  · have hsets : e.sets name = false := by simp [sets, hname]
    rw [Mutation.section?_apply_of_ne e.mutation hname, changeSection_of_not_sets hsets]

theorem mode_apply (name : String) (e : Staged) (d : LevelDocument) :
    (e.mutation.apply e.name d).mode name = changeMode name (d.mode name) e := by
  simp only [changeMode]
  split
  · rename_i h
    rw [h, Mutation.mode_apply_self]
  · rename_i h
    exact Mutation.mode_apply_of_ne e.mutation h d

theorem passSection_concat {entries : List Staged} (hne : entries ≠ []) (e : Staged)
    (v : Option Value) :
    passSection name (entries ++ [e]) v = rewriteSection name (passSection name entries v) e := by
  obtain ⟨first, rest, rfl⟩ := List.exists_cons_of_ne_nil hne
  exact List.foldl_concat _ _ _ _

theorem passSection_append {entries others : List Staged} (hne : entries ≠ []) (hne' : others ≠ [])
    (v : Option Value) : passSection name (entries ++ others) v =
      passSection name others ((passSection name entries v).bind Value.reread?) := by
  obtain ⟨first, rest, rfl⟩ := List.exists_cons_of_ne_nil hne
  obtain ⟨next, rest', rfl⟩ := List.exists_cons_of_ne_nil hne'
  exact List.foldl_append

theorem foldl_of_sets {entries : List Staged} (h : ∃ e ∈ entries, e.sets name = true)
    (v w : Option Value) :
    entries.foldl (rewriteSection name) v = entries.foldl (rewriteSection name) w := by
  induction entries generalizing v w with
  | nil =>
    obtain ⟨e, he, -⟩ := h
    cases he
  | cons first rest ih =>
    simp only [List.foldl_cons]
    by_cases hfirst : first.sets name = true
    · simp only [rewriteSection]
      rw [changeSection_of_sets hfirst, changeSection_of_sets hfirst]
    · obtain ⟨e, he, hsets⟩ := h
      rcases List.mem_cons.mp he with rfl | hrest
      · exact absurd hsets hfirst
      · exact ih ⟨e, hrest, hsets⟩ _ _

/-- A section that is set by a change does not depend on what was read of it first. -/
theorem passSection_of_sets {entries : List Staged} (h : ∃ e ∈ entries, e.sets name = true)
    (v w : Option Value) : passSection name entries v = passSection name entries w := by
  rcases entries with _ | ⟨first, rest⟩
  · obtain ⟨e, he, -⟩ := h
    cases he
  · by_cases hfirst : first.sets name = true
    · simp only [passSection]
      rw [changeSection_of_sets hfirst, changeSection_of_sets hfirst]
    · obtain ⟨e, he, hsets⟩ := h
      rcases List.mem_cons.mp he with rfl | hrest
      · exact absurd hsets hfirst
      · exact foldl_of_sets ⟨e, hrest, hsets⟩ _ _

theorem passSection_of_not_sets {entries : List Staged} (h : ∀ e ∈ entries, e.sets name = false)
    (v : Option Value) :
    passSection name entries v = (·.bind Value.reread?)^[entries.length - 1] v := by
  rcases entries with _ | ⟨first, rest⟩
  · rfl
  · simp only [passSection]
    rw [changeSection_of_not_sets (h first List.mem_cons_self), List.length_cons,
      Nat.add_sub_cancel]
    have hrest : ∀ e ∈ rest, e.sets name = false := fun e he => h e (List.mem_cons_of_mem _ he)
    clear h
    induction rest generalizing v with
    | nil => rfl
    | cons next rest ih =>
      rw [List.foldl_cons, List.length_cons, Function.iterate_succ_apply]
      simp only [rewriteSection]
      rw [changeSection_of_not_sets (hrest next List.mem_cons_self)]
      exact ih _ fun e he => hrest e (List.mem_cons_of_mem _ he)

theorem foldl_changeMode_of_ne {entries : List Staged} (h : ∀ e ∈ entries, e.name ≠ name)
    (mode : OverrideMode) : entries.foldl (changeMode name) mode = mode := by
  induction entries generalizing mode with
  | nil => rfl
  | cons e rest ih =>
    rw [List.foldl_cons]
    simp only [changeMode]
    rw [if_neg (h e List.mem_cons_self)]
    exact ih (fun e he => h e (List.mem_cons_of_mem _ he)) mode

structure Leaves (entries : List Staged) (former d : LevelDocument) : Prop where
  storable : d.Storable
  mode : ∀ name, d.mode name = entries.foldl (changeMode name) (former.mode name)
  content : ∀ name, d.section? name = passSection name entries (former.section? name)
  kept : ∀ name, (∀ e ∈ entries, e.name ≠ name) → LevelDocument.KeptFrom name former d

/-- The first change is made to what was read. -/
theorem Leaves.first (hm : e.mutation.Storable) (hd : d.Storable) :
    Leaves [e] d (e.mutation.apply e.name d) where
  storable := hm.apply hd
  mode name := mode_apply name e d
  content name := section?_apply name e d
  kept name hname := (LevelDocument.KeptFrom.refl name d).changed e.mutation
    (hname e List.mem_cons_self)

/-- Another one is made to what is read of the text that the last one left. -/
theorem Leaves.concat {entries : List Staged} {former back : LevelDocument} {text : String}
    (h : Leaves entries former d) (hne : entries ≠ []) (hm : e.mutation.Storable)
    (hr : d.render = .ok text) (hp : LevelDocument.parse text = .ok back) :
    Leaves (entries ++ [e]) former (e.mutation.apply e.name back) where
  storable := hm.apply (LevelDocument.storable_of_parse text back hp)
  mode name := by
    rw [mode_apply, List.foldl_concat, ← h.mode]
    simp only [LevelDocument.mode]
    rw [(LevelDocument.parse_rereads d back text h.storable.toWellFormed hr hp).1]
  content name := by
    rw [section?_apply, passSection_concat hne, ← h.content,
      LevelDocument.section?_of_parse h.storable.toWellFormed hr hp]
    rfl
  kept name hname := by
    obtain ⟨hmode, hcontent⟩ := (h.kept name fun e he => hname e (List.mem_append_left _ he)).reread
      h.storable.toWellFormed hr hp
    have hback : LevelDocument.KeptFrom name former back := by
      refine ⟨hmode, ?_⟩
      generalize former.section? name = v at hcontent
      generalize back.section? name = w at hcontent
      rcases hcontent with ⟨hfades⟩ | _
      · exact Option.Rel.some (.inr hfades)
      · exact Option.Rel.none
    exact hback.changed e.mutation (hname e (List.mem_append_right _ (List.mem_singleton.mpr rfl)))

theorem leaves_of_rewriteAll {entries : List Staged} (hne : entries ≠ []) {before : Option String}
    {former : LevelDocument} {final : String} (hformer : LevelDocument.ofFile before = .ok former)
    (hentries : ∀ e ∈ entries, e.mutation.Storable)
    (h : rewriteAll entries before = .ok (some final)) :
    ∃ d : LevelDocument, d.render = .ok final ∧ Leaves entries former d := by
  induction entries using List.reverseRecOn generalizing final with
  | nil => exact absurd rfl hne
  | append_singleton entries e ih =>
    obtain ⟨text, final', hall, hrewrite, heq⟩ := rewriteAll_concat_eq_ok entries e before _ h
    cases heq
    obtain ⟨d, hd, hrender⟩ := rewrite_eq_ok e text final hrewrite
    have hm := hentries e (List.mem_append_right _ (List.mem_singleton.mpr rfl))
    refine ⟨e.mutation.apply e.name d, hrender, ?_⟩
    by_cases hempty : entries = []
    · subst hempty
      cases hall
      obtain rfl := Except.ok.inj (hd.symm.trans hformer)
      exact Leaves.first hm (LevelDocument.storable_of_file before d hd)
    · obtain ⟨-, written, -, rfl⟩ := rewriteAll_eq_ok entries hempty before text hall
      obtain ⟨d', hrender', hleaves⟩ :=
        ih hempty (fun e he => hentries e (List.mem_append_left _ he)) hall
      exact hleaves.concat hempty hm hrender' hd

def SetsUndated (entries : List Staged) (text : String) : Prop :=
  ∃ d : LevelDocument, d.Storable ∧ d.render = .ok text ∧
    ∀ name v, (∃ e ∈ entries, e.sets name = true) → d.section? name = some v → v.isUndated = true

theorem setsUndated_iff {entries : List Staged} {text : String} (hd : d.Storable)
    (hr : d.render = .ok text) : SetsUndated entries text ↔
      ∀ name v, (∃ e ∈ entries, e.sets name = true) → d.section? name = some v →
        v.isUndated = true := by
  refine ⟨?_, fun h => ⟨d, hd, hr, h⟩⟩
  rintro ⟨d', hd', hr', h⟩ name v hset hv
  have hsettled := (LevelDocument.render_eq_iff d' d text text hd'.toWellFormed hd.toWellFormed hr'
    hr).1 rfl
  have hsection : (d'.section? name).map Value.settled = some v.settled := by
    rw [← LevelDocument.section?_settled, ← hsettled, LevelDocument.section?_settled, hv]
    rfl
  obtain ⟨w, hw, heq⟩ := Option.map_eq_some_iff.mp hsection
  rw [← Value.isUndated_settled, ← heq, Value.isUndated_settled]
  exact h name w hset hw

section Orders

variable {entries others : List Staged} {former former' d₁ back₁ d₁₂ d₂₁ : LevelDocument}
  {text₁ : String}

theorem Leaves.append (h₁ : Leaves entries former d₁) (hr₁ : d₁.render = .ok text₁)
    (hp₁ : LevelDocument.parse text₁ = .ok back₁) (h₁₂ : Leaves others back₁ d₁₂)
    (hne : entries ≠ []) (hne' : others ≠ []) (name : String) :
    d₁₂.mode name = (entries ++ others).foldl (changeMode name) (former.mode name) ∧
      d₁₂.section? name = passSection name (entries ++ others) (former.section? name) := by
  have hd₁ := h₁.storable.toWellFormed
  constructor
  · rw [List.foldl_append, ← h₁.mode, h₁₂.mode]
    simp only [LevelDocument.mode]
    rw [(LevelDocument.parse_rereads d₁ back₁ text₁ hd₁ hr₁ hp₁).1]
  · rw [passSection_append hne hne', ← h₁.content, h₁₂.content,
      LevelDocument.section?_of_parse hd₁ hr₁ hp₁]

/-- A section that the first changes set is the same in both orders just when it is undated. -/
theorem section_comm_iff (h₁ : Leaves entries former d₁) (hr₁ : d₁.render = .ok text₁)
    (hp₁ : LevelDocument.parse text₁ = .ok back₁) (h₁₂ : Leaves others back₁ d₁₂)
    (h₂₁ : Leaves entries former' d₂₁) (hset : ∃ e ∈ entries, e.sets name = true)
    (hother : ∀ e ∈ others, e.name ≠ name) :
    (d₁₂.section? name).map Value.settled = (d₂₁.section? name).map Value.settled ↔
      ∀ v, d₁.section? name = some v → v.isUndated = true := by
  have hlast : d₂₁.section? name = d₁.section? name := by
    rw [h₂₁.content, h₁.content]
    exact passSection_of_sets hset _ _
  rw [hlast]
  have hread := ((LevelDocument.KeptFrom.refl name d₁).reread h₁.storable.toWellFormed hr₁ hp₁).2
  have hkept := (h₁₂.kept name hother).content
  generalize d₁.section? name = v at hread
  generalize back₁.section? name = r at hread hkept
  generalize d₁₂.section? name = w at hkept
  have hrel : Option.Rel (fun v w => v.Fades w) v w := by
    rcases hread with ⟨hvr⟩ | _
    · rcases hkept with ⟨rfl | hrw⟩ | _
      · exact Option.Rel.some hvr
      · exact Option.Rel.some (hvr.trans hrw)
    · cases hkept
      exact Option.Rel.none
  rcases hrel with ⟨hfades⟩ | _
  · simpa using hfades.settled_eq_iff
  · simp

theorem name_of_sets (h : e.sets name = true) : e.name = name :=
  eq_of_beq (Bool.and_eq_true_iff.mp h).2

variable (hdisjoint : ∀ e ∈ entries, ∀ e' ∈ others, e.name ≠ e'.name)
include hdisjoint

theorem foldl_changeMode_comm (name : String) (mode : OverrideMode) :
    (entries ++ others).foldl (changeMode name) mode =
      (others ++ entries).foldl (changeMode name) mode := by
  rw [List.foldl_append, List.foldl_append]
  by_cases hname : ∃ e ∈ entries, e.name = name
  · obtain ⟨e, he, rfl⟩ := hname
    have hothers : ∀ e' ∈ others, e'.name ≠ e.name := fun e' he' => (hdisjoint e he e' he').symm
    rw [foldl_changeMode_of_ne hothers, foldl_changeMode_of_ne hothers]
  · have hentries : ∀ e ∈ entries, e.name ≠ name := fun e he heq => hname ⟨e, he, heq⟩
    rw [foldl_changeMode_of_ne hentries, foldl_changeMode_of_ne hentries]

/-- Changes of different sections, of which either list can be written first, leave the same text
in both orders just when each list, written first, leaves the sections that it sets undated. -/
theorem rewriteAll_comm_iff (hne : entries ≠ []) (hne' : others ≠ [])
    (hentries : ∀ e ∈ entries, e.mutation.Storable) (hothers : ∀ e ∈ others, e.mutation.Storable)
    {before : Option String} {text₁ text₂ text₁₂ text₂₁ : String}
    (h₁ : rewriteAll entries before = .ok (some text₁))
    (h₂ : rewriteAll others before = .ok (some text₂))
    (h₁₂ : rewriteAll others (some text₁) = .ok (some text₁₂))
    (h₂₁ : rewriteAll entries (some text₂) = .ok (some text₂₁)) :
    text₁₂ = text₂₁ ↔ SetsUndated entries text₁ ∧ SetsUndated others text₂ := by
  obtain ⟨former, -, hformer, -⟩ := rewriteAll_eq_ok entries hne before _ h₁
  obtain ⟨back₁, -, hp₁, -⟩ := rewriteAll_eq_ok others hne' (some text₁) _ h₁₂
  obtain ⟨back₂, -, hp₂, -⟩ := rewriteAll_eq_ok entries hne (some text₂) _ h₂₁
  obtain ⟨d₁, hr₁, hd₁⟩ := leaves_of_rewriteAll hne hformer hentries h₁
  obtain ⟨d₂, hr₂, hd₂⟩ := leaves_of_rewriteAll hne' hformer hothers h₂
  obtain ⟨d₁₂, hr₁₂, hd₁₂⟩ := leaves_of_rewriteAll hne' hp₁ hothers h₁₂
  obtain ⟨d₂₁, hr₂₁, hd₂₁⟩ := leaves_of_rewriteAll hne hp₂ hentries h₂₁
  have happend₁₂ := hd₁.append hr₁ hp₁ hd₁₂ hne hne'
  have happend₂₁ := hd₂.append hr₂ hp₂ hd₂₁ hne' hne
  have hmodes : ∀ name, d₁₂.mode name = d₂₁.mode name := by
    intro name
    rw [(happend₁₂ name).1, (happend₂₁ name).1]
    exact foldl_changeMode_comm hdisjoint name _
  have hfirst : ∀ name, (∃ e ∈ entries, e.sets name = true) →
      ((d₁₂.section? name).map Value.settled = (d₂₁.section? name).map Value.settled ↔
        ∀ v, d₁.section? name = some v → v.isUndated = true) := by
    rintro name ⟨e, he, hset⟩
    refine section_comm_iff hd₁ hr₁ hp₁ hd₁₂ hd₂₁ ⟨e, he, hset⟩ fun e' he' => ?_
    rw [← name_of_sets hset]
    exact (hdisjoint e he e' he').symm
  have hsecond : ∀ name, (∃ e ∈ others, e.sets name = true) →
      ((d₁₂.section? name).map Value.settled = (d₂₁.section? name).map Value.settled ↔
        ∀ v, d₂.section? name = some v → v.isUndated = true) := by
    rintro name ⟨e, he, hset⟩
    rw [eq_comm]
    refine section_comm_iff hd₂ hr₂ hp₂ hd₂₁ hd₁₂ ⟨e, he, hset⟩ fun e' he' => ?_
    rw [← name_of_sets hset]
    exact hdisjoint e' he' e he
  rw [LevelDocument.render_eq_iff d₂₁ d₁₂ text₂₁ text₁₂ hd₂₁.storable.toWellFormed
      hd₁₂.storable.toWellFormed hr₂₁ hr₁₂,
    LevelDocument.settled_eq_iff hd₂₁.storable.toWellFormed hd₁₂.storable.toWellFormed,
    setsUndated_iff hd₁.storable hr₁, setsUndated_iff hd₂.storable hr₂]
  constructor
  · rintro ⟨-, hsections⟩
    exact ⟨fun name v hset => (hfirst name hset).1 (hsections name) v,
      fun name v hset => (hsecond name hset).1 (hsections name) v⟩
  · rintro ⟨hundated, hundated'⟩
    refine ⟨hmodes, fun name => ?_⟩
    by_cases hset : ∃ e ∈ entries, e.sets name = true
    · exact (hfirst name hset).2 fun v => hundated name v hset
    by_cases hset' : ∃ e ∈ others, e.sets name = true
    · exact (hsecond name hset').2 fun v => hundated' name v hset'
    -- a section that is not set is read again equally often in both orders
    have hnone : ∀ e ∈ entries ++ others, e.sets name = false := by
      intro e he
      rw [Bool.eq_false_iff]
      rcases List.mem_append.mp he with he | he
      · exact fun h => hset ⟨e, he, h⟩
      · exact fun h => hset' ⟨e, he, h⟩
    rw [(happend₁₂ name).2, (happend₂₁ name).2, passSection_of_not_sets hnone,
      passSection_of_not_sets fun e he =>
        hnone e (List.mem_append.mpr (List.mem_append.mp he).symm),
      List.length_append, List.length_append, Nat.add_comm]

end Orders

end Staged

end LayeredConfig
