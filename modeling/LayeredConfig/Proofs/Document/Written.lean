import LayeredConfig.LevelDocument
import LayeredConfig.Proofs.Document.Settled

/-!
# What is written of level documents

The tables of a document are printable, and read as they stand they are the settled document.
A document reread with its own tables has as many of them as it had before.
-/

set_option autoImplicit false

namespace LayeredConfig.LevelDocument

open Table (keys Sorted)
open Toml (Printable PrintableEntries tableCountEntries toValue? ofValue?)

structure WellFormed (d : LevelDocument) : Prop where
  modes_sorted : Sorted d.modes
  modes_declared : ∀ e ∈ d.modes, e.2 ≠ .inherit
  sections_sorted : Sorted d.sections
  sections_wellFormed : Value.WellFormedMembers d.sections
  sections_objects : ∀ e ∈ d.sections, e.2.isObject = true

instance (d : LevelDocument) : Decidable d.WellFormed :=
  decidable_of_iff (Sorted d.modes ∧ (∀ e ∈ d.modes, e.2 ≠ .inherit) ∧ Sorted d.sections ∧
      Value.WellFormedMembers d.sections ∧ ∀ e ∈ d.sections, e.2.isObject = true)
    ⟨fun ⟨hm, hd, hs, hv, ho⟩ => ⟨hm, hd, hs, hv, ho⟩,
      fun ⟨hm, hd, hs, hv, ho⟩ => ⟨hm, hd, hs, hv, ho⟩⟩

def settledSections (sections : Table Value) : Table Value :=
  sections.map fun (name, v) => (name, v.settled)

def settled (d : LevelDocument) : LevelDocument := { d with sections := settledSections d.sections }

@[simp] theorem section?_settled (d : LevelDocument) (name : String) :
    d.settled.section? name = (d.section? name).map Value.settled := by
  simp only [section?, settled, settledSections]
  induction d.sections with
  | nil => rfl
  | cons e sections ih =>
    obtain ⟨key, v⟩ := e
    rw [List.map_cons, Table.get?, Table.get?]
    split
    · rfl
    · exact ih

@[simp] theorem mode_settled (d : LevelDocument) (name : String) :
    d.settled.mode name = d.mode name := rfl

theorem readModes_modeTable (modes : Table OverrideMode) (h : ∀ e ∈ modes, e.2 ≠ .inherit) :
    readModes (modeTable modes) = .ok modes := by
  induction modes with
  | nil => rfl
  | cons e modes ih =>
    obtain ⟨name, mode⟩ := e
    have hmode : mode ≠ .inherit := h _ List.mem_cons_self
    have hrest := ih fun e he => h e (List.mem_cons_of_mem _ he)
    change readModes ((name, .string mode.name) :: modeTable modes) = _
    have hdeclared : declaredMode? (.string mode.name) = some mode := OverrideMode.ofName?_name mode
    rw [readModes, hdeclared, hrest]
    change Except.ok (if mode = .inherit then modes else (name, mode) :: modes) = _
    rw [if_neg hmode]

@[simp] theorem keys_modeTable (modes : Table OverrideMode) :
    keys (modeTable modes) = keys modes := by
  simp only [keys, modeTable]
  rw [List.map_map]
  rfl

theorem printableEntries_modeTable (modes : Table OverrideMode) :
    PrintableEntries (modeTable modes) := by
  induction modes with
  | nil => exact trivial
  | cons e modes ih => exact ⟨trivial, ih⟩

theorem printable_modeTable (modes : Table OverrideMode) (hs : Sorted modes) :
    Printable (.table (modeTable modes)) :=
  ⟨hs.of_keys (keys_modeTable modes), printableEntries_modeTable modes⟩

theorem isTable_of_ofValue? (v : Value) (t : Toml) (hv : v.isObject = true)
    (h : ofValue? v = some t) : t.isTable = true := by
  cases v with
  | obj members =>
    obtain ⟨entries, -, rfl⟩ := Option.map_eq_some_iff.mp h
    rfl
  | _ => cases hv

theorem sectionTables_cons (name : String) (v : Value) (rest : Table Value)
    (tables : List (String × Toml)) (h : sectionTables ((name, v) :: rest) = .ok tables) :
    ∃ t others, ofValue? v = some t ∧ sectionTables rest = .ok others ∧
      tables = (name, t) :: others := by
  rw [sectionTables] at h
  rcases ht : ofValue? v with _ | t
  · rw [ht] at h
    cases h
  · rw [ht] at h
    rcases hrest : sectionTables rest with fault | others
    · rw [hrest] at h
      cases h
    · rw [hrest] at h
      cases h
      exact ⟨t, others, rfl, rfl, rfl⟩

theorem sectionTables_settles (sections : Table Value) (tables : List (String × Toml))
    (hv : Value.WellFormedMembers sections) (hobjects : ∀ e ∈ sections, e.2.isObject = true)
    (h : sectionTables sections = .ok tables) :
    PrintableEntries tables ∧ keys tables = keys sections ∧
      readSections tables = .ok (settledSections sections) := by
  induction sections generalizing tables with
  | nil =>
    cases h
    exact ⟨trivial, rfl, rfl⟩
  | cons e sections ih =>
    obtain ⟨name, v⟩ := e
    obtain ⟨t, others, ht, hothers, rfl⟩ := sectionTables_cons name v sections tables h
    obtain ⟨hprintable, hback⟩ := Toml.ofValue?_settles v t hv.1 ht
    obtain ⟨hprintables, hkeys, hread⟩ :=
      ih others hv.2 (fun e he => hobjects e (List.mem_cons_of_mem _ he)) hothers
    have htable := isTable_of_ofValue? v t (hobjects _ List.mem_cons_self) ht
    refine ⟨⟨hprintable, hprintables⟩, congrArg (name :: ·) hkeys, ?_⟩
    rw [readSections, htable, if_neg (by decide), hback, hread]
    rfl

theorem toToml_eq (d : LevelDocument) (tables : List (String × Toml)) (h : d.toToml = .ok tables) :
    ∃ sections, sectionTables d.sections = .ok sections ∧
      tables = (if d.modes.isEmpty then [] else [(modesKey, .table (modeTable d.modes))]) ++
        (if d.sections.isEmpty then [] else [(sectionsKey, .table sections)]) := by
  simp only [toToml] at h
  rcases hsections : sectionTables d.sections with fault | sections
  · rw [hsections] at h
    cases h
  · rw [hsections] at h
    cases h
    exact ⟨sections, rfl, rfl⟩

theorem sorted_modes_sections (modes sections : Toml) :
    Sorted [(modesKey, modes), (sectionsKey, sections)] := by
  rw [Table.sorted_cons, Table.sorted_cons]
  refine ⟨?_, ?_, Table.sorted_nil⟩
  · intro key hkey
    rw [List.mem_singleton.mp hkey]
    exact (by decide : modesKey < sectionsKey)
  · intro key hkey
    cases hkey

theorem sorted_singleton (key : String) (t : Toml) : Sorted [(key, t)] :=
  List.pairwise_singleton _ _

/-- The tables of a document are printable, and as they stand they are the settled document. -/
theorem toToml_settles (d : LevelDocument) (tables : List (String × Toml)) (hd : d.WellFormed)
    (h : d.toToml = .ok tables) :
    PrintableEntries tables ∧ Sorted tables ∧ ofToml tables = .ok d.settled := by
  obtain ⟨sections, hsections, rfl⟩ := toToml_eq d tables h
  obtain ⟨hprintable, hkeys, hread⟩ :=
    sectionTables_settles d.sections sections hd.sections_wellFormed hd.sections_objects hsections
  have hmodes : Printable (.table (modeTable d.modes)) :=
    printable_modeTable d.modes hd.modes_sorted
  have htable : Printable (.table sections) := ⟨hd.sections_sorted.of_keys hkeys, hprintable⟩
  have hmodesBack := readModes_modeTable d.modes hd.modes_declared
  obtain ⟨modes, stored⟩ := d
  cases modes with
  | nil =>
    cases stored with
    | nil => exact ⟨trivial, Table.sorted_nil, rfl⟩
    | cons e stored =>
      refine ⟨⟨htable, trivial⟩, sorted_singleton _ _, ?_⟩
      change (readSections sections).bind _ = _
      rw [hread]
      rfl
  | cons m modes =>
    cases stored with
    | nil =>
      refine ⟨⟨hmodes, trivial⟩, sorted_singleton _ _, ?_⟩
      change (readModes (modeTable (m :: modes))).bind _ = _
      rw [hmodesBack]
      rfl
    | cons e stored =>
      refine ⟨⟨hmodes, htable, trivial⟩, sorted_modes_sections _ _, ?_⟩
      change (readModes (modeTable (m :: modes))).bind (fun modes =>
        (readSections sections).bind _) = _
      rw [hmodesBack, hread]
      rfl

@[simp] theorem toToml_settled (d : LevelDocument) : d.settled.toToml = d.toToml := by
  have hsections : sectionTables (settledSections d.sections) = sectionTables d.sections := by
    induction d.sections with
    | nil => rfl
    | cons e sections ih =>
      obtain ⟨name, v⟩ := e
      change sectionTables ((name, v.settled) :: settledSections sections) = _
      rw [sectionTables, sectionTables, ih, Toml.ofValue?_settled]
  have hempty : (settledSections d.sections).isEmpty = d.sections.isEmpty := List.isEmpty_map
  unfold toToml settled
  dsimp only
  rw [hsections, hempty]

/-- Settling changes nothing of the text. -/
@[simp] theorem render_settled (d : LevelDocument) : d.settled.render = d.render := by
  simp only [render]
  rw [toToml_settled]

theorem readModes_count (entries : List (String × Toml)) (modes : Table OverrideMode)
    (h : readModes entries = .ok modes) : tableCountEntries entries = 0 := by
  induction entries generalizing modes with
  | nil => rfl
  | cons e entries ih =>
    obtain ⟨name, t⟩ := e
    rw [readModes] at h
    split at h
    · cases h
    · rename_i mode hmode
      rcases hrest : readModes entries with fault | rest
      · rw [hrest] at h
        cases h
      · rw [Toml.tableCountEntries, ih rest hrest]
        cases t with
        | string s => rfl
        | _ => cases hmode

theorem readSections_count (entries : List (String × Toml)) (sections : Table Value)
    (h : readSections entries = .ok sections) :
    tableCountEntries entries = Value.objectCountMembers sections := by
  induction entries generalizing sections with
  | nil =>
    cases h
    rfl
  | cons e entries ih =>
    obtain ⟨name, t⟩ := e
    rw [readSections] at h
    split at h
    · cases h
    · split at h
      · cases h
      · rename_i v hv
        rcases hrest : readSections entries with fault | rest
        · rw [hrest] at h
          cases h
        · rw [hrest] at h
          cases h
          rw [Toml.tableCountEntries, Value.objectCountMembers, ih rest hrest,
            Toml.objectCount_of_toValue? t v hv]

theorem ofToml_eq (root : Table Toml) (d : LevelDocument) (h : ofToml root = .ok d) :
    ∃ modes sections, entriesOf root modesKey .modesNotTable = .ok modes ∧
      readModes modes = .ok d.modes ∧ entriesOf root sectionsKey .sectionsNotTable = .ok sections ∧
        readSections sections = .ok d.sections := by
  simp only [ofToml] at h
  rcases hmodes : entriesOf root modesKey .modesNotTable with fault | modes
  · rw [hmodes] at h
    cases h
  · rw [hmodes] at h
    change (readModes modes).bind _ = _ at h
    rcases hread : readModes modes with fault | declared
    · rw [hread] at h
      cases h
    · rw [hread] at h
      change (entriesOf root sectionsKey .sectionsNotTable).bind _ = _ at h
      rcases hsections : entriesOf root sectionsKey .sectionsNotTable with fault | sections
      · rw [hsections] at h
        cases h
      · rw [hsections] at h
        change (readSections sections).bind _ = _ at h
        rcases hstored : readSections sections with fault | stored
        · rw [hstored] at h
          cases h
        · rw [hstored] at h
          cases h
          exact ⟨modes, sections, rfl, hread, rfl, hstored⟩

theorem entriesOf_self (key : String) (t : Toml) (rest entries : List (String × Toml))
    (fault : DocumentFault) (h : entriesOf ((key, t) :: rest) key fault = .ok entries) :
    t = .table entries := by
  have hget : Table.get? ((key, t) :: rest) key = some t := if_pos rfl
  simp only [entriesOf] at h
  rw [hget] at h
  cases t with
  | table entries =>
    cases h
    rfl
  | _ => cases h

theorem entriesOf_cons (key other : String) (t : Toml) (rest : List (String × Toml))
    (fault : DocumentFault) (h : other ≠ key) :
    entriesOf ((other, t) :: rest) key fault = entriesOf rest key fault := by
  simp only [entriesOf]
  rw [Table.get?, if_neg h]

theorem modesKey_ne : modesKey ≠ sectionsKey := by decide

def IsWritten (names : List String) : Prop :=
  names = [] ∨ names = [modesKey] ∨ names = [sectionsKey] ∨ names = [modesKey, sectionsKey]

theorem isWritten_toToml (d : LevelDocument) (tables : List (String × Toml))
    (h : d.toToml = .ok tables) : IsWritten (keys tables) := by
  obtain ⟨sections, -, rfl⟩ := toToml_eq d tables h
  split
  · split
    · exact .inl rfl
    · exact .inr (.inr (.inl rfl))
  · split
    · exact .inr (.inl rfl)
    · exact .inr (.inr (.inr rfl))

/-- With the keys of a document, what is read says how many tables there were. -/
theorem tableCountEntries_of_ofToml (root : Table Toml) (d : LevelDocument)
    (hkeys : IsWritten (keys root)) (h : ofToml root = .ok d) :
    tableCountEntries root = (keys root).length + Value.objectCountMembers d.sections := by
  obtain ⟨modes, sections, hmodes, hread, hsections, hstored⟩ := ofToml_eq root d h
  have hzero := readModes_count modes d.modes hread
  have hcount := readSections_count sections d.sections hstored
  rcases hkeys with hkeys | hkeys | hkeys | hkeys
  · obtain rfl := List.map_eq_nil_iff.mp hkeys
    cases hsections
    exact hcount.trans (Nat.zero_add _).symm
  · obtain ⟨⟨key, t⟩, rest, rfl, rfl, hrest⟩ := List.map_eq_cons_iff.mp hkeys
    obtain rfl := List.map_eq_nil_iff.mp hrest
    obtain rfl := entriesOf_self _ t _ modes _ hmodes
    rw [entriesOf_cons _ _ _ _ _ modesKey_ne] at hsections
    cases hsections
    change 0 = _ at hcount
    change tableCountEntries modes + 1 + 0 = 1 + _
    omega
  · obtain ⟨⟨key, t⟩, rest, rfl, rfl, hrest⟩ := List.map_eq_cons_iff.mp hkeys
    obtain rfl := List.map_eq_nil_iff.mp hrest
    obtain rfl := entriesOf_self _ t _ sections _ hsections
    change tableCountEntries sections + 1 + 0 = 1 + _
    omega
  · obtain ⟨⟨key, t⟩, rest, rfl, rfl, hrest⟩ := List.map_eq_cons_iff.mp hkeys
    obtain ⟨⟨key', u⟩, rest', rfl, rfl, hrest'⟩ := List.map_eq_cons_iff.mp hrest
    obtain rfl := List.map_eq_nil_iff.mp hrest'
    obtain rfl := entriesOf_self _ t _ modes _ hmodes
    rw [entriesOf_cons _ _ _ _ _ modesKey_ne] at hsections
    obtain rfl := entriesOf_self _ u _ sections _ hsections
    change tableCountEntries modes + 1 + (tableCountEntries sections + 1 + 0) = 2 + _
    omega

variable {d : LevelDocument} {text : String}

theorem render_eq_ok (h : d.render = .ok text) :
    ∃ tables, d.toToml = .ok tables ∧ text = Toml.print tables := by
  simp only [render] at h
  rcases htables : d.toToml with fault | tables
  · rw [htables] at h
    cases h
  · rw [htables] at h
    cases h
    exact ⟨tables, rfl, rfl⟩

theorem parse_eq_ok (h : parse text = .ok d) :
    ∃ root, Toml.parse? dialect text = some root ∧ ofToml root = .ok d := by
  simp only [parse] at h
  split at h
  · cases h
  · rename_i root hroot
    exact ⟨root, hroot, h⟩

theorem parse?_print (tables : List (String × Toml)) (h : PrintableEntries tables)
    (hs : Sorted tables) : Toml.parse? dialect (Toml.print tables) = Toml.reread dialect tables :=
  Toml.parse?_print_eq_reread (by decide) tables h hs

end LayeredConfig.LevelDocument
