import LayeredConfig.Proofs.Document.Parsed

/-!
# Reading back what was written of a level document

Within the limits of the reader, a rendered document is read as the settled document just when
none of its tables is printed with the date key first.
-/

set_option autoImplicit false

namespace LayeredConfig.LevelDocument

open Table (keys Sorted)
open Toml (PrintableEntries)

def isUndated (d : LevelDocument) : Bool :=
  match d.toToml with
  | .ok tables => Toml.undatedEntries dialect false tables
  | .error _ => true

def WithinLimits (d : LevelDocument) : Prop :=
  match d.toToml with
  | .ok tables => Toml.Fits dialect (Toml.blocks tables)
  | .error _ => True

instance (d : LevelDocument) : Decidable d.WithinLimits :=
  match h : d.toToml with
  | .ok tables =>
    decidable_of_iff (Toml.Fits dialect (Toml.blocks tables)) (by rw [WithinLimits, h])
  | .error _ => isTrue (by rw [WithinLimits, h]; exact trivial)

variable {d : LevelDocument} {text : String}

theorem parse_of_isUndated (hd : d.WellFormed) (hr : d.render = .ok text) (hl : d.WithinLimits)
    (hu : d.isUndated = true) : parse text = .ok d.settled := by
  obtain ⟨tables, htables, rfl⟩ := render_eq_ok hr
  obtain ⟨hprintable, hs, hback⟩ := toToml_settles d tables hd htables
  simp only [WithinLimits] at hl
  simp only [isUndated] at hu
  rw [htables] at hl hu
  simp only [parse]
  rw [parse?_print tables hprintable hs, Toml.reread_self tables hprintable hs hl hu]
  exact hback

/-- What is read back as the settled document is undated, within the limits or not. -/
theorem isUndated_of_parse (hd : d.WellFormed) (hr : d.render = .ok text)
    (hp : parse text = .ok d.settled) : d.isUndated = true := by
  obtain ⟨tables, htables, rfl⟩ := render_eq_ok hr
  obtain ⟨hprintable, hs, hback⟩ := toToml_settles d tables hd htables
  obtain ⟨back, hreread, hsettled⟩ := parse_eq_ok hp
  rw [parse?_print tables hprintable hs] at hreread
  simp only [isUndated]
  rw [htables]
  have hsettles := Toml.reread_settles tables back hprintable hs hreread
  by_contra hdated
  have hfalse : Toml.undatedEntries dialect false tables = false := Bool.eq_false_iff.mpr hdated
  rw [hfalse] at hsettles
  have hlt : Toml.tableCountEntries back < Toml.tableCountEntries tables := hsettles
  -- fewer tables would give fewer objects
  have hkeys := Toml.keys_reread tables back hs hreread
  have hwritten := isWritten_toToml d tables htables
  have hcount := tableCountEntries_of_ofToml tables d.settled hwritten hback
  rw [← hkeys] at hwritten hcount
  have hcount' := tableCountEntries_of_ofToml back d.settled hwritten hsettled
  omega

/-- Documents have the same text just when they are settled alike. -/
theorem render_eq_iff (d d' : LevelDocument) (text text' : String) (hd : d.WellFormed)
    (hd' : d'.WellFormed) (hr : d.render = .ok text) (hr' : d'.render = .ok text') :
    text' = text ↔ d'.settled = d.settled := by
  constructor
  · intro heq
    obtain ⟨tables, htables, htext⟩ := render_eq_ok hr
    obtain ⟨tables', htables', htext'⟩ := render_eq_ok hr'
    obtain ⟨hprintable, hs, hback⟩ := toToml_settles d tables hd htables
    obtain ⟨hprintable', hs', hback'⟩ := toToml_settles d' tables' hd' htables'
    have hsame : tables' = tables :=
      Toml.print_injective tables' tables hprintable' hs' hprintable hs
        (htext'.symm.trans (heq.trans htext))
    rw [hsame, hback] at hback'
    exact (Except.ok.inj hback').symm
  · intro heq
    rw [← render_settled, heq, render_settled, hr] at hr'
    exact (Except.ok.inj hr').symm

theorem parse_of_render (d' : LevelDocument) (hd : d.WellFormed) (hr : d.render = .ok text)
    (hp : parse text = .ok d') (hr' : d'.render = .ok text) : parse text = .ok d.settled := by
  obtain ⟨hd', hsettled, -⟩ := parse_stays text d' hp
  rw [← (render_eq_iff d d' text text hd hd' hr hr').1 rfl, hsettled, hp]

/-- Within the limits, a rendered document is read as the settled document, and rendered again it
has the same text, just when it is undated. A document that was read can be rendered and is read
as itself just when it is undated. -/
theorem written_reads_back (d : LevelDocument) :
    (∀ text, d.WellFormed → d.render = .ok text → d.WithinLimits →
      (parse text = .ok d.settled ↔ d.isUndated = true) ∧
        ((∃ d', parse text = .ok d' ∧ d'.render = .ok text) ↔ d.isUndated = true)) ∧
    ∀ source, parse source = .ok d →
      ∃ text, d.render = .ok text ∧
        (d.WithinLimits → (parse text = .ok d ↔ d.isUndated = true)) := by
  constructor
  · intro text hd hr hl
    have hback : parse text = .ok d.settled ↔ d.isUndated = true :=
      ⟨isUndated_of_parse hd hr, parse_of_isUndated hd hr hl⟩
    refine ⟨hback, ?_, ?_⟩
    · rintro ⟨d', hp, hr'⟩
      exact hback.1 (parse_of_render d' hd hr hp hr')
    · intro hu
      exact ⟨d.settled, hback.2 hu, (render_settled d).trans hr⟩
  · intro source hsource
    obtain ⟨hd, hsettled, text, hr⟩ := parse_stays source d hsource
    refine ⟨text, hr, fun hl => ?_⟩
    constructor
    · intro hp
      rw [← hsettled] at hp
      exact isUndated_of_parse hd hr hp
    · intro hu
      have hp := parse_of_isUndated hd hr hl hu
      rwa [hsettled] at hp

def sample : LevelDocument where
  modes := [("site", .deny)]
  sections := [("site", .obj [
    ("at", .arr [.obj [("$", .bool true), ("$__toml_private_datetime", .str "\u2028\"\\\n")]]),
    ("gone", .null), ("limit", .int 0xffffffffffffffff), ("pair", .arr [.int (-1), .arr []]),
    ("rows", .arr [.obj [("id", .int 1)], .obj [("a b", .float ⟨0x3fb999999999999a⟩)]])])]

theorem written_reads_back_sample :
    (∃ text, sample.render = .ok text ∧ parse text = .ok sample.settled) ∧
      ∃ d text, parse "[sections.x]\na = 1979-05-27\n" = .ok d ∧ d.render = .ok text ∧
        parse text = .ok d := by
  constructor
  · obtain ⟨text, htext⟩ : ∃ text, sample.render = .ok text := ⟨_, rfl⟩
    have hback := ((written_reads_back sample).1 text (by decide +kernel) htext
      (by decide +kernel)).1
    exact ⟨text, htext, hback.2 (by decide +kernel)⟩
  · obtain ⟨d, hd, hl, hu⟩ : ∃ d, parse "[sections.x]\na = 1979-05-27\n" = .ok d ∧ d.WithinLimits ∧
        d.isUndated = true :=
      ⟨⟨[], [("x", .obj [("a", .str "1979-05-27")])]⟩, by decide +kernel, by decide +kernel,
        by decide +kernel⟩
    obtain ⟨text, htext, hback⟩ := (written_reads_back d).2 _ hd
    exact ⟨d, text, hd, htext, (hback hl).2 hu⟩

def dated : LevelDocument where
  modes := []
  sections := [("x", .obj [("a", .obj [("$__toml_private_datetime", .str "1979-05-27")])])]

theorem dated_not_read_back :
    dated.WellFormed ∧ dated.WithinLimits ∧
      ∃ text, dated.render = .ok text ∧ parse text ≠ .ok dated.settled ∧
        parse text = .ok ⟨[], [("x", .obj [("a", .str "1979-05-27")])]⟩ := by
  refine ⟨by decide +kernel, by decide +kernel,
    "[sections.x.a]\n\"$__toml_private_datetime\" = \"1979-05-27\"\n", ?_⟩
  decide +kernel

end LayeredConfig.LevelDocument
