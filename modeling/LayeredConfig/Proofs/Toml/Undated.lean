import LayeredConfig.Proofs.Toml.RoundTrip

/-!
# When printed documents are read as themselves

A document comes back unchanged just when it keeps to the bounds of the dialect and none of its
tables is printed with the date key first. Where a table is taken for a date-time, the number
of tables goes down, and nothing that is read later brings it up again.
-/

set_option autoImplicit false

namespace LayeredConfig.Toml

open Table (keys Sorted)

variable {d : Dialect}

def printOrder (entries : List (String × Toml)) : List (String × Toml) :=
  entries.filter (isPlain ·.2) ++ headed entries

def staysTable (d : Dialect) (entries : List (String × Toml)) : Bool :=
  d.dateTables.isNone || (entries.head?.map (·.1)) != some dateKey

mutual

def undated (d : Dialect) (inline : Bool) : Toml → Bool
  | .array items => undatedItems d inline items
  | .table entries =>
    staysTable d (if inline then entries else printOrder entries) && undatedEntries d inline entries
  | _ => true

def undatedItems (d : Dialect) (inline : Bool) : List Toml → Bool
  | [] => true
  | v :: vs => undated d inline v && undatedItems d inline vs

def undatedEntries (d : Dialect) (inline : Bool) : List (String × Toml) → Bool
  | [] => true
  | (_, v) :: rest => undated d (inline || isPlain v) v && undatedEntries d inline rest

end

mutual

def depth : Toml → Nat
  | .array items => depthItems items + 1
  | .table entries => depthEntries entries + 1
  | _ => 0

def depthItems : List Toml → Nat
  | [] => 0
  | v :: vs => max (depth v) (depthItems vs)

def depthEntries : List (String × Toml) → Nat
  | [] => 0
  | (_, v) :: rest => max (depth v) (depthEntries rest)

end

mutual

def tableCount : Toml → Nat
  | .array items => tableCountItems items
  | .table entries => tableCountEntries entries + 1
  | _ => 0

def tableCountItems : List Toml → Nat
  | [] => 0
  | v :: vs => tableCount v + tableCountItems vs

def tableCountEntries : List (String × Toml) → Nat
  | [] => 0
  | (_, v) :: rest => tableCount v + tableCountEntries rest

end

theorem tableCountEntries_eq (entries : List (String × Toml)) :
    tableCountEntries entries = (entries.map fun e => tableCount e.2).sum := by
  induction entries with
  | nil => rfl
  | cons e entries ih =>
    obtain ⟨key, v⟩ := e
    rw [tableCountEntries, ih]
    rfl

theorem tableCountEntries_perm {entries others : List (String × Toml)} (h : entries.Perm others) :
    tableCountEntries entries = tableCountEntries others := by
  rw [tableCountEntries_eq, tableCountEntries_eq]
  exact (h.map _).sum_nat

theorem tableCountEntries_append (entries others : List (String × Toml)) :
    tableCountEntries (entries ++ others) =
      tableCountEntries entries + tableCountEntries others := by
  rw [tableCountEntries_eq, tableCountEntries_eq, tableCountEntries_eq, List.map_append,
    List.sum_append]

theorem tableValue?_eq (entries : List (String × Toml)) (h : staysTable d entries = true) :
    Outline.tableValue? d entries = some (.table (Table.ofList entries)) := by
  simp only [staysTable] at h
  simp only [Outline.tableValue?]
  split
  · rename_i form key v rest hform
    rw [hform] at h
    have hne : key ≠ dateKey := by simpa using h
    rw [if_neg hne]
  · rfl

theorem tableValue?_cases (es : List (String × Toml)) (v : Toml)
    (h : Outline.tableValue? d es = some v) :
    (staysTable d es = true ∧ v = .table (Table.ofList es)) ∨
      staysTable d es = false ∧ ∃ t, v = .dateTime t := by
  by_cases hs : staysTable d es = true
  · rw [tableValue?_eq es hs] at h
    cases h
    exact .inl ⟨hs, rfl⟩
  · refine .inr ⟨Bool.eq_false_iff.mpr hs, ?_⟩
    simp only [staysTable] at hs
    rcases hd : d.dateTables with _ | form
    · rw [hd] at hs
      exact absurd rfl hs
    · rw [hd] at hs
      cases es with
      | nil => exact absurd rfl hs
      | cons e rest =>
        obtain ⟨key, w⟩ := e
        have heq : key = dateKey := by simpa using hs
        simp only [Outline.tableValue?] at h
        rw [hd] at h
        dsimp only at h
        rw [if_pos heq] at h
        split at h
        · obtain ⟨t, -, rfl⟩ := Option.map_eq_some_iff.mp h
          exact ⟨t, rfl⟩
        · cases h

theorem staysTable_congr (entries others : List (String × Toml)) (h : keys entries = keys others) :
    staysTable d entries = staysTable d others := by
  have hhead := congrArg List.head? h
  simp only [keys] at hhead
  rw [List.head?_map, List.head?_map] at hhead
  simp only [staysTable]
  rw [hhead]

def Settles {α : Type} (count : α → Nat) (same : Bool) (value back : α) : Prop :=
  if same then back = value else count back < count value

theorem settles_self {α : Type} (count : α → Nat) (value : α) :
    Settles count true value value := rfl

theorem Settles.combine {α β γ : Type} {count : α → Nat} {count' : β → Nat} {whole : γ → Nat}
    {same same' : Bool} {a a' : α} {b b' : β} (f : α → β → γ)
    (hf : ∀ a b, whole (f a b) = count a + count' b) (h : Settles count same a a')
    (h' : Settles count' same' b b') : Settles whole (same && same') (f a b) (f a' b') := by
  cases same with
  | true =>
    obtain rfl : a' = a := h
    cases same' with
    | true =>
      obtain rfl : b' = b := h'
      exact settles_self whole _
    | false =>
      have hlt : count' b' < count' b := h'
      change whole _ < whole _
      rw [hf, hf]
      omega
  | false =>
    have hlt : count a' < count a := h
    change whole _ < whole _
    rw [hf, hf]
    cases same' with
    | true =>
      obtain rfl : b' = b := h'
      omega
    | false =>
      have hlt' : count' b' < count' b := h'
      omega

theorem Settles.wrap {α β : Type} {count : α → Nat} {whole : β → Nat} {same : Bool} {a a' : α}
    (f : α → β) (hf : ∀ a, whole (f a) = count a) (h : Settles count same a a') :
    Settles whole same (f a) (f a') := by
  cases same with
  | true =>
    obtain rfl : a' = a := h
    exact settles_self whole _
  | false =>
    change whole _ < whole _
    rw [hf, hf]
    exact h

theorem settles_table (entries order back : List (String × Toml)) (v : Toml) (same : Bool)
    (hs : Sorted entries) (horder : order.Perm entries) (hkeys : keys back = keys order)
    (hback : Settles tableCountEntries same order back)
    (hv : Outline.tableValue? d back = some v) :
    Settles tableCount (staysTable d order && same) (.table entries) v := by
  have hcount := tableCountEntries_perm horder
  have hnodup : (keys back).Nodup := by
    rw [hkeys]
    exact (horder.map Prod.fst).nodup_iff.mpr hs.nodup
  rcases tableValue?_cases back v hv with ⟨hstays, rfl⟩ | ⟨hstays, t, rfl⟩
  · rw [← staysTable_congr back order hkeys, hstays, Bool.true_and]
    cases same with
    | true =>
      obtain rfl : back = order := hback
      rw [Table.ofList_eq_of_perm back entries horder hs]
      exact settles_self tableCount _
    | false =>
      have hlt : tableCountEntries back < tableCountEntries order := hback
      change tableCountEntries (Table.ofList back) + 1 < tableCountEntries entries + 1
      rw [tableCountEntries_perm (Table.ofList_perm back hnodup)]
      omega
  · rw [← staysTable_congr back order hkeys, hstays, Bool.false_and]
    exact Nat.zero_lt_succ _

mutual

theorem inlineBack_settles (room : Nat) : ∀ (v back : Toml), Printable v →
    inlineBack d room v = some back → Settles tableCount (undated d true v) v back
  | .array items, back, hv, h => by
    rw [inlineBack] at h
    split at h
    · cases h
    · obtain ⟨vs, hvs, rfl⟩ := Option.map_eq_some_iff.mp h
      exact (itemsBack_settles (room - 1) items vs hv hvs).wrap Toml.array fun _ => rfl
  | .table entries, back, hv, h => by
    rw [inlineBack] at h
    split at h
    · cases h
    · obtain ⟨es, hes, hvalue⟩ := Option.bind_eq_some_iff.mp h
      exact settles_table entries entries es back _ hv.1 (List.Perm.refl _)
        (keys_pairsBack _ _ _ _ hes) (pairsBack_settles (room - 1) entries es hv.2 hes) hvalue
  | .string _, back, _, h => by cases h; rfl
  | .integer _, back, _, h => by cases h; rfl
  | .float _, back, _, h => by cases h; rfl
  | .boolean _, back, _, h => by cases h; rfl
  | .dateTime _, back, hv, _ => by cases hv

theorem itemsBack_settles (room : Nat) : ∀ (items back : List Toml), PrintableItems items →
    itemsBack d room items = some back →
      Settles tableCountItems (undatedItems d true items) items back
  | [], back, _, h => by cases h; rfl
  | v :: vs, back, hv, h => by
    obtain ⟨w, hw, h⟩ := Option.bind_eq_some_iff.mp h
    obtain ⟨ws, hws, rfl⟩ := Option.map_eq_some_iff.mp h
    exact (inlineBack_settles room v w hv.1 hw).combine List.cons (fun _ _ => rfl)
      (itemsBack_settles room vs ws hv.2 hws)

theorem pairsBack_settles (room : Nat) : ∀ (entries back : List (String × Toml)),
    PrintableEntries entries → pairsBack d room entries = some back →
      Settles tableCountEntries (undatedEntries d true entries) entries back
  | [], back, _, h => by cases h; rfl
  | (key, v) :: rest, back, hv, h => by
    obtain ⟨w, hw, h⟩ := Option.bind_eq_some_iff.mp h
    obtain ⟨ws, hws, rfl⟩ := Option.map_eq_some_iff.mp h
    exact (inlineBack_settles room v w hv.1 hw).combine (fun v rest => (key, v) :: rest)
      (fun _ _ => rfl) (pairsBack_settles room rest ws hv.2 hws)

end

mutual

theorem inlineBack_self (room : Nat) : ∀ v : Toml, Printable v → depth v ≤ room →
    undated d true v = true → inlineBack d room v = some v
  | .array items, hv, hroom, hu => by
    rw [depth] at hroom
    rw [inlineBack, if_neg (by omega), itemsBack_self (room - 1) items hv (by omega) hu]
    rfl
  | .table entries, hv, hroom, hu => by
    rw [depth] at hroom
    rw [undated, Bool.and_eq_true, if_pos rfl] at hu
    rw [inlineBack, if_neg (by omega), pairsBack_self (room - 1) entries hv.2 (by omega) hu.2,
      Option.bind_some, tableValue?_eq entries hu.1, Table.ofList_eq_self entries hv.1]
  | .string _, _, _, _ => rfl
  | .integer _, _, _, _ => rfl
  | .float _, _, _, _ => rfl
  | .boolean _, _, _, _ => rfl
  | .dateTime _, _, _, _ => rfl

theorem itemsBack_self (room : Nat) : ∀ items : List Toml, PrintableItems items →
    depthItems items ≤ room → undatedItems d true items = true → itemsBack d room items = some items
  | [], _, _, _ => rfl
  | v :: vs, hv, hroom, hu => by
    rw [depthItems] at hroom
    rw [undatedItems, Bool.and_eq_true] at hu
    rw [itemsBack, inlineBack_self room v hv.1 (by omega) hu.1,
      itemsBack_self room vs hv.2 (by omega) hu.2]
    rfl

theorem pairsBack_self (room : Nat) : ∀ entries : List (String × Toml), PrintableEntries entries →
    depthEntries entries ≤ room → undatedEntries d true entries = true →
      pairsBack d room entries = some entries
  | [], _, _, _ => rfl
  | (key, v) :: rest, hv, hroom, hu => by
    rw [depthEntries] at hroom
    rw [undatedEntries, Bool.and_eq_true, Bool.true_or] at hu
    rw [pairsBack, inlineBack_self room v hv.1 (by omega) hu.1,
      pairsBack_self room rest hv.2 (by omega) hu.2]
    rfl

end

theorem undatedEntries_eq (entries : List (String × Toml)) :
    undatedEntries d false entries =
      (undatedEntries d true (entries.filter (isPlain ·.2)) &&
        undatedEntries d false (headed entries)) := by
  induction entries with
  | nil => rfl
  | cons e entries ih =>
    obtain ⟨key, v⟩ := e
    by_cases hp : isPlain v = true
    · rw [headed_cons_plain key v entries hp, List.filter_cons, if_pos hp, undatedEntries,
        undatedEntries, ih, hp, Bool.false_or, Bool.true_or, Bool.and_assoc]
    · rw [headed_cons_headed key v entries (Bool.eq_false_iff.mpr hp), List.filter_cons, if_neg hp,
        undatedEntries, undatedEntries, ih, Bool.and_left_comm]

theorem printableEntries_filter (p : String × Toml → Bool) (entries : List (String × Toml))
    (h : PrintableEntries entries) : PrintableEntries (entries.filter p) := by
  induction entries with
  | nil => exact trivial
  | cons e entries ih =>
    rw [List.filter_cons]
    split
    · exact ⟨h.1, ih h.2⟩
    · exact ih h.2

@[simp] theorem keys_append (entries others : List (String × Toml)) :
    keys (entries ++ others) = keys entries ++ keys others := List.map_append

theorem keys_tablesBack (parts : Nat) (entries back : List (String × Toml))
    (h : tablesBack d parts entries = some back) : keys back = keys (headed entries) := by
  induction entries generalizing back with
  | nil =>
    cases h
    rfl
  | cons e entries ih =>
    obtain ⟨key, v⟩ := e
    rw [tablesBack] at h
    split at h
    · rename_i hp
      rw [headed_cons_plain key v entries hp]
      exact ih back h
    · rename_i hp
      obtain ⟨w, -, h⟩ := Option.bind_eq_some_iff.mp h
      obtain ⟨ws, hws, rfl⟩ := Option.map_eq_some_iff.mp h
      rw [headed_cons_headed key v entries (Bool.eq_false_iff.mpr hp)]
      exact congrArg (key :: ·) (ih ws hws)

theorem settles_order (entries plain tables : List (String × Toml)) (hv : PrintableEntries entries)
    (hplain : plainBack d entries = some plain)
    (htables : Settles tableCountEntries (undatedEntries d false (headed entries)) (headed entries)
      tables) :
    Settles tableCountEntries (undatedEntries d false entries) (printOrder entries)
      (plain ++ tables) := by
  have hsettles := pairsBack_settles d.openContainers _ plain (printableEntries_filter _ entries hv)
    hplain
  rw [undatedEntries_eq]
  exact hsettles.combine List.append tableCountEntries_append htables

theorem tableOf?_settles (parts : Nat) (entries : List (String × Toml)) (back : Toml)
    (hv : Printable (.table entries))
    (h : tableOf? d (plainBack d entries) (tablesBack d parts entries) = some back)
    (hbelow : ∀ tables, tablesBack d parts entries = some tables →
      Settles tableCountEntries (undatedEntries d false (headed entries)) (headed entries) tables) :
    Settles tableCount (undated d false (.table entries)) (.table entries) back := by
  obtain ⟨plain, hplain, h⟩ := Option.bind_eq_some_iff.mp h
  obtain ⟨tables, htables, hvalue⟩ := Option.bind_eq_some_iff.mp h
  have hkeys : keys (plain ++ tables) = keys (printOrder entries) := by
    rw [keys_append, keys_pairsBack _ _ _ _ hplain, keys_tablesBack parts entries tables htables]
    exact (keys_append _ _).symm
  exact settles_table entries (printOrder entries) (plain ++ tables) back _ hv.1
    (plain_headed_perm entries) hkeys
    (settles_order entries plain tables hv.2 hplain (hbelow tables htables)) hvalue

mutual

theorem headedBack_settles (parts : Nat) : ∀ (v back : Toml), Printable v → isPlain v = false →
    headedBack d parts v = some back → Settles tableCount (undated d false v) v back
  | .table entries, back, hv, _, h => by
    rw [headedBack] at h
    split at h
    · cases h
    · exact tableOf?_settles parts entries back hv h fun tables htables =>
        tablesBack_settles parts entries tables hv.2 htables
  | .array items, back, hv, hp, h => by
    rw [headedBack] at h
    obtain ⟨vs, hvs, rfl⟩ := Option.map_eq_some_iff.mp h
    have hall := isTableSeries_of_not_isPlain items hp
    simp only [isTableSeries, Bool.and_eq_true] at hall
    exact (seriesBack_settles parts items vs hv hall.2 hvs).wrap Toml.array fun _ => rfl
  | .string _, _, _, hp, _ => by cases hp
  | .integer _, _, _, hp, _ => by cases hp
  | .float _, _, _, hp, _ => by cases hp
  | .boolean _, _, _, hp, _ => by cases hp
  | .dateTime _, _, _, hp, _ => by cases hp

theorem tablesBack_settles (parts : Nat) : ∀ (entries back : List (String × Toml)),
    PrintableEntries entries → tablesBack d parts entries = some back →
      Settles tableCountEntries (undatedEntries d false (headed entries)) (headed entries) back
  | [], back, _, h => by cases h; rfl
  | (key, v) :: rest, back, hv, h => by
    rw [tablesBack] at h
    by_cases hp : isPlain v = true
    · rw [if_pos hp] at h
      rw [headed_cons_plain key v rest hp]
      exact tablesBack_settles parts rest back hv.2 h
    · have hp' := Bool.eq_false_iff.mpr hp
      rw [if_neg hp] at h
      obtain ⟨w, hw, h⟩ := Option.bind_eq_some_iff.mp h
      obtain ⟨ws, hws, rfl⟩ := Option.map_eq_some_iff.mp h
      rw [headed_cons_headed key v rest hp', undatedEntries, hp', Bool.false_or]
      exact (headedBack_settles (parts + 1) v w hv.1 hp' hw).combine
        (fun v rest => (key, v) :: rest) (fun _ _ => rfl)
        (tablesBack_settles parts rest ws hv.2 hws)

theorem seriesBack_settles (parts : Nat) : ∀ (items back : List Toml), PrintableItems items →
    items.all isTable = true → seriesBack d parts items = some back →
      Settles tableCountItems (undatedItems d false items) items back
  | [], back, _, _, h => by cases h; rfl
  | .table entries :: rest, back, hv, hall, h => by
    rw [List.all_cons, Bool.and_eq_true] at hall
    rw [seriesBack] at h
    split at h
    · cases h
    · obtain ⟨w, hw, h⟩ := Option.bind_eq_some_iff.mp h
      obtain ⟨ws, hws, rfl⟩ := Option.map_eq_some_iff.mp h
      have hsettles := tableOf?_settles parts entries w hv.1 hw fun tables htables =>
        tablesBack_settles parts entries tables hv.1.2 htables
      exact hsettles.combine List.cons (fun _ _ => rfl)
        (seriesBack_settles parts rest ws hv.2 hall.2 hws)
  | .string _ :: _, _, _, hall, _ => by cases hall
  | .integer _ :: _, _, _, hall, _ => by cases hall
  | .float _ :: _, _, _, hall, _ => by cases hall
  | .boolean _ :: _, _, _, hall, _ => by cases hall
  | .dateTime _ :: _, _, _, hall, _ => by cases hall
  | .array _ :: _, _, _, hall, _ => by cases hall

end

theorem nodup_back (root plain tables : List (String × Toml)) (hs : Sorted root)
    (hplain : plainBack d root = some plain) (htables : tablesBack d 0 root = some tables) :
    (keys (plain ++ tables)).Nodup := by
  rw [keys_append, keys_pairsBack _ _ _ _ hplain, keys_tablesBack 0 root tables htables,
    ← keys_append]
  exact ((plain_headed_perm root).map Prod.fst).nodup_iff.mpr hs.nodup

theorem keys_reread (root back : List (String × Toml)) (hs : Sorted root)
    (h : reread d root = some back) : keys back = keys root := by
  obtain ⟨plain, hplain, h⟩ := Option.bind_eq_some_iff.mp h
  obtain ⟨tables, htables, rfl⟩ := Option.map_eq_some_iff.mp h
  have hperm : (keys (Table.ofList (plain ++ tables))).Perm (keys root) := by
    have hofList := Table.ofList_perm _ (nodup_back root plain tables hs hplain htables)
    apply (hofList.map Prod.fst).trans
    change (keys (plain ++ tables)).Perm _
    rw [keys_append, keys_pairsBack _ _ _ _ hplain, keys_tablesBack 0 root tables htables,
      ← keys_append]
    exact (plain_headed_perm root).map Prod.fst
  apply List.Perm.eq_of_pairwise _ (Table.sorted_ofList _) hs hperm
  intro a b _ _ hab hba
  exact absurd hba (String.lt_asymm hab)

/-- An undated document is read as itself, any other one with fewer tables, if it is read. -/
theorem reread_settles (root back : List (String × Toml)) (hv : PrintableEntries root)
    (hs : Sorted root) (h : reread d root = some back) :
    Settles tableCountEntries (undatedEntries d false root) root back := by
  obtain ⟨plain, hplain, h⟩ := Option.bind_eq_some_iff.mp h
  obtain ⟨tables, htables, rfl⟩ := Option.map_eq_some_iff.mp h
  have horder := plain_headed_perm root
  have hnodup := nodup_back root plain tables hs hplain htables
  have hsettles := settles_order root plain tables hv hplain
    (tablesBack_settles 0 root tables hv htables)
  generalize undatedEntries d false root = same at hsettles
  cases same with
  | true =>
    have heq : plain ++ tables = printOrder root := hsettles
    rw [heq]
    exact Table.ofList_eq_of_perm _ root horder hs
  | false =>
    have hlt : tableCountEntries (plain ++ tables) < tableCountEntries (printOrder root) := hsettles
    change tableCountEntries (Table.ofList (plain ++ tables)) < tableCountEntries root
    rw [tableCountEntries_perm (Table.ofList_perm _ hnodup), ← tableCountEntries_perm horder]
    exact hlt

def Fits (d : Dialect) (bs : List Block) : Prop :=
  ∀ b ∈ bs, d.keyParts.all (b.path.length ≤ ·) = true ∧ depthEntries b.shown ≤ d.openContainers

instance (d : Dialect) (bs : List Block) : Decidable (Fits d bs) :=
  inferInstanceAs (Decidable (∀ b ∈ bs,
    d.keyParts.all (b.path.length ≤ ·) = true ∧ depthEntries b.shown ≤ d.openContainers))

theorem Fits.left {bs cs : List Block} (h : Fits d (bs ++ cs)) : Fits d bs :=
  fun b hb => h b (List.mem_append_left _ hb)

theorem Fits.right {bs cs : List Block} (h : Fits d (bs ++ cs)) : Fits d cs :=
  fun b hb => h b (List.mem_append_right _ hb)

theorem plainBack_self (entries : List (String × Toml)) (hv : PrintableEntries entries)
    (hu : undatedEntries d false entries = true)
    (hdepth : depthEntries (entries.filter (isPlain ·.2)) ≤ d.openContainers) :
    plainBack d entries = some (entries.filter (isPlain ·.2)) :=
  pairsBack_self d.openContainers _ (printableEntries_filter _ entries hv) hdepth
    (by rw [undatedEntries_eq, Bool.and_eq_true] at hu; exact hu.1)

theorem tableOf?_self (entries : List (String × Toml)) (hv : Printable (.table entries))
    (hu : undated d false (.table entries) = true)
    (hdepth : depthEntries (entries.filter (isPlain ·.2)) ≤ d.openContainers) :
    tableOf? d (plainBack d entries) (some (headed entries)) = some (.table entries) := by
  rw [undated, Bool.and_eq_true, if_neg (by decide)] at hu
  simp only [tableOf?]
  rw [plainBack_self entries hv.2 hu.2 hdepth, Option.bind_some, Option.bind_some]
  have hsame : Table.ofList (printOrder entries) = entries :=
    Table.ofList_eq_of_perm _ entries (plain_headed_perm entries) hv.1
  have hvalue := tableValue?_eq (printOrder entries) hu.1
  rw [hsame] at hvalue
  exact hvalue

mutual

theorem headedBack_self (path : List String) : ∀ v : Toml, Printable v → isPlain v = false →
    Fits d (blocksAt path v) → undated d false v = true → headedBack d path.length v = some v
  | .table entries, hv, _, hfits, hu => by
    rw [blocksAt_table] at hfits
    have hbelow := tablesBack_self path entries hv.2 hfits.right (by
      rw [undated, Bool.and_eq_true] at hu
      exact hu.2)
    rw [headedBack, hbelow]
    by_cases hown : isHeaded entries = true
    · rw [if_pos hown] at hfits
      obtain ⟨hparts, hdepth⟩ := hfits _ List.mem_cons_self
      rw [if_neg (by rw [hparts, hown]; decide)]
      exact tableOf?_self entries hv hu hdepth
    · rw [if_neg (by rw [Bool.eq_false_iff.mpr hown, Bool.false_and]; decide)]
      apply tableOf?_self entries hv hu
      have hall := (of_not_isHeaded entries hown).2
      rw [List.filter_eq_nil_iff.mpr fun e he => Bool.eq_false_iff.mp (hall e he)]
      exact Nat.zero_le _
  | .array items, hv, hp, hfits, hu => by
    have hseries := isTableSeries_of_not_isPlain items hp
    rw [blocksAt, if_pos hseries] at hfits
    simp only [isTableSeries, Bool.and_eq_true] at hseries
    rw [headedBack, seriesBack_self path items hv hseries.2 hfits hu]
    rfl
  | .string _, _, hp, _, _ => by cases hp
  | .integer _, _, hp, _, _ => by cases hp
  | .float _, _, hp, _, _ => by cases hp
  | .boolean _, _, hp, _, _ => by cases hp
  | .dateTime _, _, hp, _, _ => by cases hp

theorem tablesBack_self (path : List String) : ∀ entries : List (String × Toml),
    PrintableEntries entries → Fits d (blocksBelow path entries) →
      undatedEntries d false entries = true →
        tablesBack d path.length entries = some (headed entries)
  | [], _, _, _ => rfl
  | (key, v) :: rest, hv, hfits, hu => by
    rw [undatedEntries, Bool.and_eq_true, Bool.false_or] at hu
    rw [blocksBelow] at hfits
    rw [tablesBack]
    by_cases hp : isPlain v = true
    · rw [if_pos hp, headed_cons_plain key v rest hp]
      exact tablesBack_self path rest hv.2 hfits.right hu.2
    · have hp' := Bool.eq_false_iff.mpr hp
      rw [hp'] at hu
      have hself := headedBack_self (path ++ [key]) v hv.1 hp' hfits.left hu.1
      rw [List.length_append, List.length_singleton] at hself
      rw [if_neg hp, headed_cons_headed key v rest hp', hself,
        tablesBack_self path rest hv.2 hfits.right hu.2]
      rfl

theorem seriesBack_self (path : List String) : ∀ items : List Toml, PrintableItems items →
    items.all isTable = true → Fits d (blocksOfSeries path items) →
      undatedItems d false items = true → seriesBack d path.length items = some items
  | [], _, _, _, _ => rfl
  | .table entries :: rest, hv, hall, hfits, hu => by
    rw [List.all_cons, Bool.and_eq_true] at hall
    rw [undatedItems, Bool.and_eq_true] at hu
    rw [blocksOfSeries] at hfits
    obtain ⟨hparts, hdepth⟩ := hfits _ List.mem_cons_self
    have hrest : Fits d (blocksBelow path entries ++ blocksOfSeries path rest) :=
      fun b hb => hfits b (List.mem_cons_of_mem _ hb)
    have hbelow := tablesBack_self path entries hv.1.2 hrest.left (by
      have hu' := hu.1
      rw [undated, Bool.and_eq_true] at hu'
      exact hu'.2)
    rw [seriesBack, if_neg (by rw [hparts]; decide), hbelow,
      tableOf?_self entries hv.1 hu.1 hdepth,
      seriesBack_self path rest hv.2 hall.2 hrest.right hu.2]
    rfl
  | .string _ :: _, _, hall, _, _ => by cases hall
  | .integer _ :: _, _, hall, _, _ => by cases hall
  | .float _ :: _, _, hall, _, _ => by cases hall
  | .boolean _ :: _, _, hall, _, _ => by cases hall
  | .dateTime _ :: _, _, hall, _, _ => by cases hall
  | .array _ :: _, _, hall, _, _ => by cases hall

end

theorem reread_self (root : List (String × Toml)) (hv : PrintableEntries root) (hs : Sorted root)
    (hfits : Fits d (blocks root)) (hu : undatedEntries d false root = true) :
    reread d root = some root := by
  have hdepth : depthEntries (root.filter (isPlain ·.2)) ≤ d.openContainers := by
    by_cases htop : (plainLines root).isEmpty = true
    · rw [filter_isPlain_eq_nil root htop]
      exact Nat.zero_le _
    · simp only [blocks] at hfits
      rw [if_neg htop] at hfits
      exact (hfits _ List.mem_cons_self).2
  have htables := tablesBack_self [] root hv hfits.right hu
  simp only [reread]
  rw [plainBack_self root hv hu hdepth, Option.bind_some]
  change (tablesBack d ([] : List String).length root).map _ = _
  rw [htables]
  exact congrArg some (Table.ofList_eq_of_perm _ root (plain_headed_perm root) hs)

mutual

/-- Where no tables are date-times, no table is taken for one. -/
theorem undated_of_noDates (h : d.dateTables = none) (inline : Bool) : ∀ v : Toml,
    undated d inline v = true
  | .array items => undatedItems_of_noDates h inline items
  | .table entries => by
    rw [undated, undatedEntries_of_noDates h inline entries, Bool.and_true]
    simp only [staysTable]
    rw [h]
    rfl
  | .string _ => rfl
  | .integer _ => rfl
  | .float _ => rfl
  | .boolean _ => rfl
  | .dateTime _ => rfl

theorem undatedItems_of_noDates (h : d.dateTables = none) (inline : Bool) : ∀ items : List Toml,
    undatedItems d inline items = true
  | [] => rfl
  | v :: vs => by
    rw [undatedItems, undated_of_noDates h inline v, undatedItems_of_noDates h inline vs]
    rfl

theorem undatedEntries_of_noDates (h : d.dateTables = none) (inline : Bool) :
    ∀ entries : List (String × Toml), undatedEntries d inline entries = true
  | [] => rfl
  | (_, v) :: rest => by
    rw [undatedEntries, undated_of_noDates h _ v, undatedEntries_of_noDates h inline rest]
    rfl

end

def plainDialect (room : Nat) : Dialect where
  keyParts := none
  openContainers := room
  looseTables := false
  shortEscapes := false
  keepsCarriage := false
  negativeOverflow := false
  extendsParents := false
  times := ⟨false, false, 23, 23, 59, 1439⟩
  dateTables := none

def deepest (bs : List Block) : Nat := (bs.map fun b => depthEntries b.shown).foldr max 0

theorem depth_le_deepest (bs : List Block) : ∀ b ∈ bs, depthEntries b.shown ≤ deepest bs := by
  induction bs with
  | nil => exact fun b hb => by cases hb
  | cons c bs ih =>
    intro b hb
    change _ ≤ max (depthEntries c.shown) (deepest bs)
    rcases List.mem_cons.mp hb with rfl | hb
    · exact Nat.le_max_left _ _
    · exact (ih b hb).trans (Nat.le_max_right _ _)

/-- With enough room the plain dialect reads a printed document as itself. -/
theorem parse?_print_plain (room : Nat) (root : List (String × Toml)) (hv : PrintableEntries root)
    (hs : Sorted root) (hroom : deepest (blocks root) ≤ room) :
    parse? (plainDialect room) (print root) = some root := by
  rw [parse?_print_eq_reread rfl root hv hs]
  apply reread_self root hv hs
  · intro b hb
    exact ⟨rfl, (depth_le_deepest _ b hb).trans hroom⟩
  · exact undatedEntries_of_noDates rfl false root

/-- Different documents are printed differently. -/
theorem print_injective (root other : List (String × Toml)) (hv : PrintableEntries root)
    (hs : Sorted root) (hv' : PrintableEntries other) (hs' : Sorted other)
    (h : print root = print other) : root = other := by
  have hroot := parse?_print_plain (max (deepest (blocks root)) (deepest (blocks other))) root hv hs
    (Nat.le_max_left _ _)
  rw [h, parse?_print_plain _ other hv' hs' (Nat.le_max_right _ _)] at hroot
  exact (Option.some_inj.mp hroot).symm

end LayeredConfig.Toml
