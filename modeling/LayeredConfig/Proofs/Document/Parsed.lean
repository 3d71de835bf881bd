import LayeredConfig.Proofs.Toml.Sound
import LayeredConfig.Proofs.Document.Written

/-!
# Documents that were read

A document that was read is well-formed, is settled already, and can be written. So a document
that was read and written is read as before, if it is undated and within the limits.
-/

set_option autoImplicit false

namespace LayeredConfig

open Table (keys Sorted)

namespace Toml

def Stays (v : Value) : Prop := v.WellFormed ∧ v.settled = v ∧ ∃ t, ofValue? v = some t

theorem ne_null_of_ofValue? (v : Value) (t : Toml) (h : ofValue? v = some t) : v ≠ .null := by
  intro heq
  rw [heq] at h
  cases h

theorem isInt64_bounds (n : Int) (h : Decimal.isInt64 n = true) :
    -0x8000000000000000 ≤ n ∧ n < 0x10000000000000000 := by
  simp only [Decimal.isInt64] at h
  simp only [Bool.and_eq_true, decide_eq_true_eq] at h
  omega

mutual

theorem toValue?_stays : ∀ (t : Toml) (v : Value), t.Sound → toValue? t = some v → Stays v
  | .string s, v, _, h => by
    cases h
    exact ⟨trivial, rfl, _, rfl⟩
  | .integer n, v, hn, h => by
    cases h
    have hint : Decimal.isInt64 n = true := hn
    refine ⟨isInt64_bounds n hint, ?_, _, rfl⟩
    rw [Value.settled, if_pos hint]
  | .float x, v, _, h => by
    rw [toValue?] at h
    split at h
    · rename_i hfinite
      cases h
      exact ⟨hfinite, rfl, _, rfl⟩
    · cases h
  | .boolean b, v, _, h => by
    cases h
    exact ⟨trivial, rfl, _, rfl⟩
  | .dateTime t, v, _, h => by
    cases h
    exact ⟨trivial, rfl, _, rfl⟩
  | .array items, v, hs, h => by
    obtain ⟨vs, hvs, rfl⟩ := Option.map_eq_some_iff.mp h
    obtain ⟨hv, hsettled, ts, hts⟩ := toItems?_stays items vs hs hvs
    refine ⟨hv, congrArg Value.arr hsettled, .array ts, ?_⟩
    rw [ofValue?, hts]
    rfl
  | .table entries, v, hs, h => by
    obtain ⟨vs, hvs, rfl⟩ := Option.map_eq_some_iff.mp h
    obtain ⟨hv, hsettled, hkeys, ts, hts⟩ := toMembers?_stays entries vs hs.2 hvs
    have hsorted : Sorted vs := hs.1.of_keys hkeys
    refine ⟨⟨hsorted, hv⟩, congrArg Value.obj hsettled, .table ts, ?_⟩
    rw [ofValue?, hts]
    rfl

theorem toItems?_stays : ∀ (items : List Toml) (vs : List Value), SoundItems items →
    toItems? items = some vs →
      Value.WellFormedItems vs ∧ Value.settledItems vs = vs ∧ ∃ ts, ofItems? vs = some ts
  | [], vs, _, h => by
    cases h
    exact ⟨trivial, rfl, [], rfl⟩
  | t :: ts, vs, hs, h => by
    obtain ⟨w, hw, h⟩ := Option.bind_eq_some_iff.mp h
    obtain ⟨ws, hws, h⟩ := Option.bind_eq_some_iff.mp h
    cases h
    obtain ⟨hwf, hsettled, u, hu⟩ := toValue?_stays t w hs.1 hw
    obtain ⟨hwfs, hsettleds, us, hus⟩ := toItems?_stays ts ws hs.2 hws
    refine ⟨⟨hwf, hwfs⟩, ?_, u :: us, ?_⟩
    · rw [Value.settledItems, hsettled, hsettleds]
    · rw [ofItems?, hu, hus]
      rfl

theorem toMembers?_stays : ∀ (entries : List (String × Toml)) (vs : List (String × Value)),
    SoundEntries entries → toMembers? entries = some vs →
      Value.WellFormedMembers vs ∧ Value.settledMembers vs = vs ∧ keys vs = keys entries ∧
        ∃ ts, ofMembers? vs = some ts
  | [], vs, _, h => by
    cases h
    exact ⟨trivial, rfl, rfl, [], rfl⟩
  | (key, t) :: rest, vs, hs, h => by
    obtain ⟨w, hw, h⟩ := Option.bind_eq_some_iff.mp h
    obtain ⟨ws, hws, h⟩ := Option.bind_eq_some_iff.mp h
    cases h
    obtain ⟨hwf, hsettled, u, hu⟩ := toValue?_stays t w hs.1 hw
    have hnull := ne_null_of_ofValue? w u hu
    obtain ⟨hwfs, hsettleds, hkeys, us, hus⟩ := toMembers?_stays rest ws hs.2 hws
    refine ⟨⟨hwf, hwfs⟩, ?_, congrArg (key :: ·) hkeys, (key, u) :: us, ?_⟩
    · rw [Value.settledMembers_cons key w ws hnull, hsettled, hsettleds]
    · rw [ofMembers?_cons key w ws hnull, hu, hus]
      rfl

end

end Toml

namespace LevelDocument

theorem readModes_declared (entries : List (String × Toml)) (modes : Table OverrideMode)
    (h : readModes entries = .ok modes) :
    (keys modes).Sublist (keys entries) ∧ ∀ e ∈ modes, e.2 ≠ .inherit := by
  induction entries generalizing modes with
  | nil =>
    cases h
    exact ⟨List.Sublist.slnil, fun e he => by cases he⟩
  | cons e entries ih =>
    obtain ⟨name, t⟩ := e
    rw [readModes] at h
    split at h
    · cases h
    · rename_i mode hmode
      rcases hrest : readModes entries with fault | rest
      · rw [hrest] at h
        cases h
      · rw [hrest] at h
        obtain ⟨hkeys, hdeclared⟩ := ih rest hrest
        change Except.ok (if mode = .inherit then rest else (name, mode) :: rest) = _ at h
        by_cases hinherit : mode = .inherit
        · rw [if_pos hinherit] at h
          cases h
          exact ⟨hkeys.cons name, hdeclared⟩
        · rw [if_neg hinherit] at h
          cases h
          refine ⟨hkeys.cons_cons name, fun e he => ?_⟩
          rcases List.mem_cons.mp he with rfl | he
          · exact hinherit
          · exact hdeclared e he

theorem isObject_of_isTable (t : Toml) (v : Value) (ht : t.isTable = true)
    (h : Toml.toValue? t = some v) : v.isObject = true := by
  cases t with
  | table entries =>
    obtain ⟨members, -, rfl⟩ := Option.map_eq_some_iff.mp h
    rfl
  | _ => cases ht

theorem readSections_stays (entries : List (String × Toml)) (sections : Table Value)
    (hs : Toml.SoundEntries entries) (h : readSections entries = .ok sections) :
    Value.WellFormedMembers sections ∧ keys sections = keys entries ∧
      (∀ e ∈ sections, e.2.isObject = true) ∧ settledSections sections = sections ∧
        ∃ tables, sectionTables sections = .ok tables := by
  induction entries generalizing sections with
  | nil =>
    cases h
    exact ⟨trivial, rfl, fun e he => (List.not_mem_nil he).elim, rfl, [], rfl⟩
  | cons e entries ih =>
    obtain ⟨name, t⟩ := e
    rw [readSections] at h
    split at h
    · cases h
    · rename_i htable
      split at h
      · cases h
      · rename_i v hv
        rcases hrest : readSections entries with fault | rest
        · rw [hrest] at h
          cases h
        · rw [hrest] at h
          cases h
          obtain ⟨hwf, hsettled, u, hu⟩ := Toml.toValue?_stays t v hs.1 hv
          obtain ⟨hwfs, hkeys, hobjects, hsettleds, tables, htables⟩ := ih rest hs.2 hrest
          refine ⟨⟨hwf, hwfs⟩, congrArg (name :: ·) hkeys, ?_, ?_, (name, u) :: tables, ?_⟩
          · intro e he
            rcases List.mem_cons.mp he with rfl | he
            · exact isObject_of_isTable t v (by simpa using htable) hv
            · exact hobjects e he
          · change (name, v.settled) :: settledSections rest = _
            rw [hsettled, hsettleds]
          · rw [sectionTables, hu, htables]
            rfl

theorem entriesOf_sound (root : Table Toml) (key : String) (fault : DocumentFault)
    (entries : List (String × Toml)) (hs : Toml.SoundEntries root)
    (h : entriesOf root key fault = .ok entries) : Sorted entries ∧ Toml.SoundEntries entries := by
  simp only [entriesOf] at h
  split at h
  · cases h
    exact ⟨Table.sorted_nil, trivial⟩
  · rename_i t hget
    split at h
    · rename_i es htable
      cases h
      have ht : t.Sound := (Toml.soundEntries_iff root).1 hs _ (Table.mem_of_get? root key t hget)
      cases t with
      | table es =>
        cases htable
        exact ht
      | _ => cases htable
    · cases h

/-- What is read is a well-formed document, settled already, that can be written. -/
theorem parse_stays (source : String) (d : LevelDocument) (h : parse source = .ok d) :
    d.WellFormed ∧ d.settled = d ∧ ∃ text, d.render = .ok text := by
  obtain ⟨root, hroot, hread⟩ := parse_eq_ok h
  obtain ⟨-, hs⟩ := Toml.parse?_sound source root hroot
  obtain ⟨modes, sections, hmodes, hdeclared, hsections, hstored⟩ := ofToml_eq root d hread
  obtain ⟨hmodesSorted, -⟩ := entriesOf_sound root _ _ modes hs hmodes
  obtain ⟨hsectionsSorted, hsound⟩ := entriesOf_sound root _ _ sections hs hsections
  obtain ⟨hkeys, hmode⟩ := readModes_declared modes d.modes hdeclared
  obtain ⟨hwf, hkeys', hobjects, hsettled, tables, htables⟩ :=
    readSections_stays sections d.sections hsound hstored
  refine ⟨⟨List.Pairwise.sublist hkeys hmodesSorted, hmode, hsectionsSorted.of_keys hkeys', hwf,
    hobjects⟩, ?_, ?_⟩
  · simp only [settled]
    rw [hsettled]
  · simp only [render, toToml]
    rw [htables]
    exact ⟨_, rfl⟩

end LevelDocument

end LayeredConfig
