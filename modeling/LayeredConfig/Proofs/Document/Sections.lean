import LayeredConfig.Proofs.Document.Parsed

/-!
# Documents are read back section by section

What becomes of one section when a document is written and read again does not depend on the
others: an undated section is settled, any other one loses objects. The modes stay.
-/

set_option autoImplicit false

namespace LayeredConfig

open Table (keys Sorted Alike)

namespace Toml

variable {d : Dialect} {parts : Nat}

theorem isPlain_of_isTable (t : Toml) (h : t.isTable = true) : isPlain t = false := by
  cases t with
  | table entries => rfl
  | _ => cases h

theorem tablesBack_alike (entries back : List (String × Toml))
    (hall : ∀ e ∈ entries, isPlain e.2 = false) (h : tablesBack d parts entries = some back) :
    Alike (fun _ v w => headedBack d (parts + 1) v = some w) entries back := by
  induction entries generalizing back with
  | nil =>
    cases h
    exact List.Forall₂.nil
  | cons e entries ih =>
    obtain ⟨key, v⟩ := e
    have hp : isPlain v = false := hall _ List.mem_cons_self
    rw [tablesBack, if_neg (by rw [hp]; decide)] at h
    obtain ⟨w, hw, h⟩ := Option.bind_eq_some_iff.mp h
    obtain ⟨ws, hws, rfl⟩ := Option.map_eq_some_iff.mp h
    exact List.Forall₂.cons ⟨rfl, hw⟩
      (ih ws (fun e he => hall e (List.mem_cons_of_mem _ he)) hws)

theorem reread_alike (root back : List (String × Toml)) (hs : Sorted root)
    (hall : ∀ e ∈ root, isPlain e.2 = false) (h : reread d root = some back) :
    Alike (fun _ v w => headedBack d 1 v = some w) root back := by
  simp only [reread] at h
  rw [plainBack_nil root hall, Option.bind_some] at h
  obtain ⟨tables, htables, rfl⟩ := Option.map_eq_some_iff.mp h
  have halike := tablesBack_alike root tables hall htables
  have hsorted : Sorted tables := hs.of_keys halike.keys_eq
  rw [List.nil_append, Table.ofList_eq_self tables hsorted]
  exact halike

theorem headedBack_alike (entries back : List (String × Toml)) (hs : Sorted entries)
    (hall : ∀ e ∈ entries, isPlain e.2 = false)
    (h : headedBack d parts (.table entries) = some (.table back)) :
    Alike (fun _ v w => headedBack d (parts + 1) v = some w) entries back := by
  rw [headedBack] at h
  split at h
  · cases h
  · simp only [tableOf?] at h
    rw [plainBack_nil entries hall, Option.bind_some] at h
    obtain ⟨tables, htables, h⟩ := Option.bind_eq_some_iff.mp h
    have halike := tablesBack_alike entries tables hall htables
    have hsorted : Sorted tables := hs.of_keys halike.keys_eq
    rcases tableValue?_cases _ _ h with ⟨-, heq⟩ | ⟨-, t, heq⟩
    · rw [List.nil_append, Table.ofList_eq_self tables hsorted] at heq
      cases heq
      exact halike
    · cases heq

end Toml

namespace Value

def isUndated (v : Value) : Bool :=
  match Toml.ofValue? v with
  | some t => Toml.undated LevelDocument.dialect false t
  | none => true

def reread? (v : Value) : Option Value := do
  let t ← Toml.ofValue? v
  let b ← Toml.headedBack LevelDocument.dialect 2 t
  Toml.toValue? b

def Fades (v back : Value) : Prop := Toml.Settles objectCount v.isUndated v.settled back

end Value

namespace LevelDocument

open Toml (headedBack tableCount)

/-- One section that is written and read again. -/
theorem fades_of_reread (v r : Value) (hv : v.WellFormed) (hobject : v.isObject = true)
    (h : v.reread? = some r) : v.Fades r := by
  obtain ⟨t, ht, h⟩ := Option.bind_eq_some_iff.mp h
  obtain ⟨b, hb, hr⟩ := Option.bind_eq_some_iff.mp h
  obtain ⟨hprintable, hsettled⟩ := Toml.ofValue?_settles v t hv ht
  have hplain := Toml.isPlain_of_isTable t (isTable_of_ofValue? v t hobject ht)
  have hsettles := Toml.headedBack_settles 2 t b hprintable hplain hb
  have hcount := Toml.objectCount_of_toValue? t v.settled hsettled
  have hcount' := Toml.objectCount_of_toValue? b r hr
  simp only [Value.Fades, Value.isUndated]
  rw [ht]
  change Toml.Settles _ (Toml.undated dialect false t) _ _
  generalize Toml.undated dialect false t = same at hsettles
  cases same with
  | true =>
    obtain rfl : b = t := hsettles
    exact Option.some_inj.mp (hr.symm.trans hsettled)
  | false =>
    have hlt : tableCount b < tableCount t := hsettles
    change r.objectCount < v.settled.objectCount
    omega

theorem sections_reread (sections sections' : Table Value) (tables back : List (String × Toml))
    (htables : sectionTables sections = .ok tables)
    (hback : Alike (fun _ t b => headedBack dialect 2 t = some b) tables back)
    (hread : readSections back = .ok sections') :
    Alike (fun _ v r => v.reread? = some r) sections sections' := by
  induction sections generalizing sections' tables back with
  | nil =>
    cases htables
    cases hback
    cases hread
    exact List.Forall₂.nil
  | cons e sections ih =>
    obtain ⟨name, v⟩ := e
    obtain ⟨t, others, ht, hothers, rfl⟩ := sectionTables_cons name v sections tables htables
    cases hback with
    | @cons _ b _ rest hb htail =>
      obtain ⟨name', b⟩ := b
      obtain ⟨rfl, hb⟩ := hb
      rw [readSections] at hread
      split at hread
      · cases hread
      · split at hread
        · cases hread
        · rename_i r hr
          rcases hrest : readSections rest with fault | sections''
          · rw [hrest] at hread
            cases hread
          · rw [hrest] at hread
            cases hread
            have hback : v.reread? = some r :=
              Option.bind_eq_some_iff.mpr ⟨t, ht, Option.bind_eq_some_iff.mpr ⟨b, hb, hr⟩⟩
            exact List.Forall₂.cons ⟨rfl, hback⟩ (ih sections'' others rest hothers htail hrest)

theorem sectionTables_isPlain (sections : Table Value) (tables : List (String × Toml))
    (hobjects : ∀ e ∈ sections, e.2.isObject = true) (h : sectionTables sections = .ok tables) :
    ∀ e ∈ tables, Toml.isPlain e.2 = false := by
  induction sections generalizing tables with
  | nil =>
    cases h
    exact fun e he => by cases he
  | cons e sections ih =>
    obtain ⟨name, v⟩ := e
    obtain ⟨t, others, ht, hothers, rfl⟩ := sectionTables_cons name v sections tables h
    intro e he
    rcases List.mem_cons.mp he with rfl | he
    · exact Toml.isPlain_of_isTable t (isTable_of_ofValue? v t (hobjects _ List.mem_cons_self) ht)
    · exact ih others (fun e he => hobjects e (List.mem_cons_of_mem _ he)) hothers e he

theorem modes_stay (modes modes' : Table OverrideMode) (entries : List (String × Toml))
    (parts : Nat) (hdeclared : ∀ e ∈ modes, e.2 ≠ .inherit) (hs : Sorted modes)
    (hback : headedBack dialect parts (.table (modeTable modes)) = some (.table entries))
    (hread : readModes entries = .ok modes') : modes' = modes := by
  have hprintable : Toml.Printable (.table (modeTable modes)) := printable_modeTable modes hs
  have hsettles := Toml.headedBack_settles parts _ _ hprintable rfl hback
  have hmodes := readModes_modeTable modes hdeclared
  generalize Toml.undated dialect false (.table (modeTable modes)) = same at hsettles
  cases same with
  | true =>
    have heq : Toml.table entries = .table (modeTable modes) := hsettles
    cases heq
    exact Except.ok.inj (hread.symm.trans hmodes)
  | false =>
    have hlt : tableCount (.table entries) < tableCount (.table (modeTable modes)) := hsettles
    change Toml.tableCountEntries entries + 1 < Toml.tableCountEntries (modeTable modes) + 1 at hlt
    rw [readModes_count _ modes hmodes] at hlt
    omega

/-- The two tables of a document are found under their keys, each if it was written. -/
theorem entriesOf_alike {P : String → Toml → Toml → Prop} (noModes noSections : Bool)
    (modes sections : Toml) (back : Table Toml) (found stored : List (String × Toml))
    (halike : Alike P ((if noModes then [] else [(modesKey, modes)]) ++
      (if noSections then [] else [(sectionsKey, sections)])) back)
    (hfound : entriesOf back modesKey .modesNotTable = .ok found)
    (hstored : entriesOf back sectionsKey .sectionsNotTable = .ok stored) :
    (if noModes then found = [] else P modesKey modes (.table found)) ∧
      (if noSections then stored = [] else P sectionsKey sections (.table stored)) := by
  cases noModes with
  | true =>
    cases noSections with
    | true =>
      cases halike
      cases hfound
      cases hstored
      exact ⟨rfl, rfl⟩
    | false =>
      cases halike with
      | @cons _ b _ _ hb htail =>
        cases htail
        obtain ⟨name, b⟩ := b
        obtain ⟨rfl, hb⟩ := hb
        obtain rfl := entriesOf_self _ b _ stored _ hstored
        rw [entriesOf_cons _ _ _ _ _ modesKey_ne.symm] at hfound
        cases hfound
        exact ⟨rfl, hb⟩
  | false =>
    cases halike with
    | @cons _ b _ _ hb htail =>
      obtain ⟨name, b⟩ := b
      obtain ⟨rfl, hb⟩ := hb
      obtain rfl := entriesOf_self _ b _ found _ hfound
      rw [entriesOf_cons _ _ _ _ _ modesKey_ne] at hstored
      cases noSections with
      | true =>
        cases htail
        cases hstored
        exact ⟨hb, rfl⟩
      | false =>
        cases htail with
        | @cons _ c _ _ hc hrest =>
          cases hrest
          obtain ⟨name', c⟩ := c
          obtain ⟨rfl, hc⟩ := hc
          obtain rfl := entriesOf_self _ c _ stored _ hstored
          exact ⟨hb, hc⟩

/-- What was written is read back with its modes and section by section, if it is read. -/
theorem parse_rereads (d d' : LevelDocument) (text : String) (hd : d.WellFormed)
    (hr : d.render = .ok text) (hp : parse text = .ok d') :
    d'.modes = d.modes ∧ Alike (fun _ v r => v.reread? = some r) d.sections d'.sections := by
  obtain ⟨tables, htables, rfl⟩ := render_eq_ok hr
  obtain ⟨hprintable, hs, -⟩ := toToml_settles d tables hd htables
  obtain ⟨back, hreread, hread⟩ := parse_eq_ok hp
  rw [parse?_print tables hprintable hs] at hreread
  obtain ⟨sections, hsections, rfl⟩ := toToml_eq d tables htables
  obtain ⟨found, stored, hfound, hdeclared, hstored, hkept⟩ := ofToml_eq back d' hread
  have hheaded : ∀ e ∈
      (if d.modes.isEmpty then [] else [(modesKey, Toml.table (modeTable d.modes))]) ++
      (if d.sections.isEmpty then [] else [(sectionsKey, .table sections)]),
      Toml.isPlain e.2 = false := by
    intro e he
    rcases List.mem_append.mp he with he | he
    · split at he
      · cases he
      · rw [List.mem_singleton.mp he]
        rfl
    · split at he
      · cases he
      · rw [List.mem_singleton.mp he]
        rfl
  have halike := Toml.reread_alike _ back hs hheaded hreread
  obtain ⟨hmodes, hfade⟩ := entriesOf_alike _ _ _ _ back found stored halike hfound hstored
  constructor
  · split at hmodes
    · rename_i hempty
      subst hmodes
      rw [List.isEmpty_iff.mp hempty]
      exact (Except.ok.inj hdeclared).symm
    · exact modes_stay d.modes d'.modes found 1 hd.modes_declared hd.modes_sorted hmodes hdeclared
  · split at hfade
    · rename_i hempty
      subst hfade
      rw [List.isEmpty_iff.mp hempty, ← Except.ok.inj hkept]
      exact List.Forall₂.nil
    · have hall := sectionTables_isPlain d.sections sections hd.sections_objects hsections
      obtain ⟨-, hkeys, -⟩ := sectionTables_settles d.sections sections hd.sections_wellFormed
        hd.sections_objects hsections
      have hsorted : Sorted sections := hd.sections_sorted.of_keys hkeys
      have hback := Toml.headedBack_alike sections stored hsorted hall hfade
      exact sections_reread d.sections d'.sections sections stored hsections hback hkept

theorem parse_fades (d d' : LevelDocument) (text : String) (hd : d.WellFormed)
    (hr : d.render = .ok text) (hp : parse text = .ok d') :
    d'.modes = d.modes ∧ Alike (fun _ v r => v.Fades r) d.sections d'.sections := by
  obtain ⟨hmodes, hsections⟩ := parse_rereads d d' text hd hr hp
  have hwell := (Value.wellFormedMembers_iff d.sections).1 hd.sections_wellFormed
  have hboth := hsections.and_left (R := fun _ v => v.WellFormed ∧ v.isObject = true)
    fun e he => ⟨hwell e he, hd.sections_objects e he⟩
  exact ⟨hmodes, hboth.imp fun _ v r h => fades_of_reread v r h.2.1 h.2.2 h.1⟩

end LevelDocument

end LayeredConfig
