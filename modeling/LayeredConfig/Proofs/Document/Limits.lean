import LayeredConfig.Proofs.Document.Rewriting

/-!
# Documents that are read again keep to the limits

A printed document that the reader takes, dates in it or not, has headers and containers within
the bounds of the dialect. So for an undated document those bounds are all that reading asks for.
-/

set_option autoImplicit false

namespace LayeredConfig

namespace Toml

variable {d : Dialect}

mutual

theorem depth_of_inlineBack (room : Nat) : ∀ v back : Toml,
    inlineBack d room v = some back → depth v ≤ room
  | .array items, back, h => by
    rw [inlineBack] at h
    split at h
    · cases h
    · obtain ⟨vs, hvs, -⟩ := Option.map_eq_some_iff.mp h
      have hitems := depth_of_itemsBack (room - 1) items vs hvs
      rw [depth]
      omega
  | .table entries, back, h => by
    rw [inlineBack] at h
    split at h
    · cases h
    · obtain ⟨es, hes, -⟩ := Option.bind_eq_some_iff.mp h
      have hentries := depth_of_pairsBack (room - 1) entries es hes
      rw [depth]
      omega
  | .string _, _, _ => Nat.zero_le _
  | .integer _, _, _ => Nat.zero_le _
  | .float _, _, _ => Nat.zero_le _
  | .boolean _, _, _ => Nat.zero_le _
  | .dateTime _, _, _ => Nat.zero_le _

theorem depth_of_itemsBack (room : Nat) : ∀ items back : List Toml,
    itemsBack d room items = some back → depthItems items ≤ room
  | [], _, _ => Nat.zero_le _
  | v :: vs, back, h => by
    obtain ⟨w, hw, h⟩ := Option.bind_eq_some_iff.mp h
    obtain ⟨ws, hws, -⟩ := Option.map_eq_some_iff.mp h
    exact max_le (depth_of_inlineBack room v w hw) (depth_of_itemsBack room vs ws hws)

theorem depth_of_pairsBack (room : Nat) : ∀ entries back : List (String × Toml),
    pairsBack d room entries = some back → depthEntries entries ≤ room
  | [], _, _ => Nat.zero_le _
  | (key, v) :: rest, back, h => by
    obtain ⟨w, hw, h⟩ := Option.bind_eq_some_iff.mp h
    obtain ⟨ws, hws, -⟩ := Option.map_eq_some_iff.mp h
    exact max_le (depth_of_inlineBack room v w hw) (depth_of_pairsBack room rest ws hws)

end

theorem Fits.append {bs cs : List Block} (hb : Fits d bs) (hc : Fits d cs) : Fits d (bs ++ cs) := by
  intro b hmem
  rcases List.mem_append.mp hmem with hmem | hmem
  · exact hb b hmem
  · exact hc b hmem

theorem Fits.cons {b : Block} {bs : List Block}
    (hb : d.keyParts.all (b.path.length ≤ ·) = true ∧ depthEntries b.shown ≤ d.openContainers)
    (hbs : Fits d bs) : Fits d (b :: bs) := by
  intro c hmem
  rcases List.mem_cons.mp hmem with rfl | hmem
  · exact hb
  · exact hbs c hmem

theorem tableOf?_eq_some {plain tables : Option (List (String × Toml))} {back : Toml}
    (h : tableOf? d plain tables = some back) :
    ∃ es ts, plain = some es ∧ tables = some ts := by
  obtain ⟨es, hes, h⟩ := Option.bind_eq_some_iff.mp h
  obtain ⟨ts, hts, -⟩ := Option.bind_eq_some_iff.mp h
  exact ⟨es, ts, hes, hts⟩

mutual

theorem fits_of_headedBack (path : List String) : ∀ v back : Toml,
    headedBack d path.length v = some back → Fits d (blocksAt path v)
  | .table entries, back, h => by
    rw [headedBack] at h
    split at h
    · cases h
    · rename_i hparts
      obtain ⟨es, ts, hes, hts⟩ := tableOf?_eq_some h
      have hbelow := fits_of_tablesBack path entries ts hts
      rw [blocksAt_table]
      split
      · rename_i hown
        rw [hown, Bool.true_and, Bool.not_eq_true, Bool.not_eq_false'] at hparts
        exact Fits.cons ⟨hparts, depth_of_pairsBack _ _ es hes⟩ hbelow
      · exact hbelow
  | .array items, back, h => by
    rw [headedBack] at h
    obtain ⟨vs, hvs, -⟩ := Option.map_eq_some_iff.mp h
    rw [blocksAt]
    split
    · exact fits_of_seriesBack path items vs hvs
    · exact fun b hb => by cases hb
  | .string _, _, _ => fun b hb => by cases hb
  | .integer _, _, _ => fun b hb => by cases hb
  | .float _, _, _ => fun b hb => by cases hb
  | .boolean _, _, _ => fun b hb => by cases hb
  | .dateTime _, _, _ => fun b hb => by cases hb

theorem fits_of_tablesBack (path : List String) : ∀ entries back : List (String × Toml),
    tablesBack d path.length entries = some back → Fits d (blocksBelow path entries)
  | [], _, _ => fun b hb => by cases hb
  | (key, v) :: rest, back, h => by
    rw [tablesBack] at h
    rw [blocksBelow]
    by_cases hp : isPlain v = true
    · rw [if_pos hp] at h
      rw [blocksAt_of_isPlain _ v hp, List.nil_append]
      exact fits_of_tablesBack path rest back h
    · rw [if_neg hp] at h
      obtain ⟨w, hw, h⟩ := Option.bind_eq_some_iff.mp h
      obtain ⟨ws, hws, -⟩ := Option.map_eq_some_iff.mp h
      rw [← List.length_singleton (a := key), ← List.length_append] at hw
      exact (fits_of_headedBack (path ++ [key]) v w hw).append
        (fits_of_tablesBack path rest ws hws)

theorem fits_of_seriesBack (path : List String) : ∀ items back : List Toml,
    seriesBack d path.length items = some back → Fits d (blocksOfSeries path items)
  | [], _, _ => fun b hb => by cases hb
  | .table entries :: rest, back, h => by
    rw [seriesBack] at h
    split at h
    · cases h
    · rename_i hparts
      obtain ⟨w, hw, h⟩ := Option.bind_eq_some_iff.mp h
      obtain ⟨ws, hws, -⟩ := Option.map_eq_some_iff.mp h
      obtain ⟨es, ts, hes, hts⟩ := tableOf?_eq_some hw
      rw [Bool.not_eq_true, Bool.not_eq_false'] at hparts
      exact Fits.cons ⟨hparts, depth_of_pairsBack _ _ es hes⟩
        ((fits_of_tablesBack path entries ts hts).append (fits_of_seriesBack path rest ws hws))
  | .string _ :: rest, back, h => by
    obtain ⟨ws, hws, -⟩ := Option.map_eq_some_iff.mp h
    exact fits_of_seriesBack path rest ws hws
  | .integer _ :: rest, back, h => by
    obtain ⟨ws, hws, -⟩ := Option.map_eq_some_iff.mp h
    exact fits_of_seriesBack path rest ws hws
  | .float _ :: rest, back, h => by
    obtain ⟨ws, hws, -⟩ := Option.map_eq_some_iff.mp h
    exact fits_of_seriesBack path rest ws hws
  | .boolean _ :: rest, back, h => by
    obtain ⟨ws, hws, -⟩ := Option.map_eq_some_iff.mp h
    exact fits_of_seriesBack path rest ws hws
  | .dateTime _ :: rest, back, h => by
    obtain ⟨ws, hws, -⟩ := Option.map_eq_some_iff.mp h
    exact fits_of_seriesBack path rest ws hws
  | .array _ :: rest, back, h => by
    obtain ⟨ws, hws, -⟩ := Option.map_eq_some_iff.mp h
    exact fits_of_seriesBack path rest ws hws

end

theorem fits_of_reread (root back : List (String × Toml)) (h : reread d root = some back) :
    Fits d (blocks root) := by
  obtain ⟨plain, hplain, h⟩ := Option.bind_eq_some_iff.mp h
  obtain ⟨tables, htables, -⟩ := Option.map_eq_some_iff.mp h
  have hbelow := fits_of_tablesBack [] root tables htables
  simp only [blocks]
  split
  · exact hbelow
  · refine Fits.cons ⟨?_, depth_of_pairsBack _ _ plain hplain⟩ hbelow
    rcases d.keyParts with _ | n
    · rfl
    · exact decide_eq_true (Nat.zero_le n)

end Toml

namespace LevelDocument

variable {d : LevelDocument} {text : String}

/-- What is read again was within the limits. -/
theorem withinLimits_of_parse (hd : d.WellFormed) (hr : d.render = .ok text) {back : LevelDocument}
    (hp : parse text = .ok back) : d.WithinLimits := by
  obtain ⟨tables, htables, rfl⟩ := render_eq_ok hr
  obtain ⟨hprintable, hs, -⟩ := toToml_settles d tables hd htables
  obtain ⟨root, hreread, -⟩ := parse_eq_ok hp
  rw [parse?_print tables hprintable hs] at hreread
  simp only [WithinLimits]
  rw [htables]
  exact Toml.fits_of_reread tables root hreread

/-- An undated document can be read again just when it is within the limits, and then it is read
as the settled document. -/
theorem parse_of_undated (hd : d.WellFormed) (hr : d.render = .ok text)
    (hu : d.isUndated = true) (back : LevelDocument) :
    parse text = .ok back ↔ d.WithinLimits ∧ back = d.settled := by
  constructor
  · intro hp
    have hl := withinLimits_of_parse hd hr hp
    rw [parse_of_isUndated hd hr hl hu] at hp
    exact ⟨hl, (Except.ok.inj hp).symm⟩
  · rintro ⟨hl, rfl⟩
    exact parse_of_isUndated hd hr hl hu

theorem sectionTables_undated (sections : Table Value) (tables : List (String × Toml))
    (hobjects : ∀ e ∈ sections, e.2.isObject = true) (h : sectionTables sections = .ok tables)
    (hu : Toml.undatedEntries dialect false tables = true) :
    ∀ e ∈ sections, e.2.isUndated = true := by
  induction sections generalizing tables with
  | nil => exact fun e he => by cases he
  | cons e sections ih =>
    obtain ⟨name, v⟩ := e
    obtain ⟨t, others, ht, hothers, rfl⟩ := sectionTables_cons name v sections tables h
    have hplain := Toml.isPlain_of_isTable t
      (isTable_of_ofValue? v t (hobjects _ List.mem_cons_self) ht)
    rw [Toml.undatedEntries, hplain, Bool.or_false, Bool.and_eq_true] at hu
    intro e he
    rcases List.mem_cons.mp he with rfl | he
    · simp only [Value.isUndated]
      rw [ht]
      exact hu.1
    · exact ih others (fun e he => hobjects e (List.mem_cons_of_mem _ he)) hothers hu.2 e he

theorem undated_sections (hd : d.WellFormed) (hr : d.render = .ok text)
    (hu : d.isUndated = true) : ∀ e ∈ d.sections, e.2.isUndated = true := by
  obtain ⟨tables, htables, -⟩ := render_eq_ok hr
  obtain ⟨sections, hsections, heq⟩ := toToml_eq d tables htables
  simp only [isUndated] at hu
  rw [htables] at hu
  dsimp only at hu
  rcases hempty : d.sections with _ | ⟨e, rest⟩
  · exact fun e he => by cases he
  · rw [← hempty]
    apply sectionTables_undated d.sections sections hd.sections_objects hsections
    have hsome : d.sections.isEmpty = false := by
      rw [hempty]
      rfl
    rw [heq, hsome] at hu
    simp only [Bool.false_eq_true, if_false] at hu
    have hlast : Toml.undatedEntries dialect false [(sectionsKey, .table sections)] = true := by
      split at hu
      · exact hu
      · change (_ && Toml.undatedEntries dialect false [(sectionsKey, .table sections)]) = true
          at hu
        rw [Bool.and_eq_true] at hu
        exact hu.2
    rw [Toml.undatedEntries, Bool.and_eq_true, Toml.undated, Bool.and_eq_true] at hlast
    exact hlast.1.2

end LevelDocument

end LayeredConfig
