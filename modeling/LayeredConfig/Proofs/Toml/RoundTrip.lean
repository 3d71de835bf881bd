import LayeredConfig.Proofs.Toml.Drafts

/-!
# Reading what was printed

For every dialect with keys at all, a printed document is read as `reread` says: nothing but
the bounds of the dialect and its tables that are date-times comes between the two.
-/

set_option autoImplicit false

namespace LayeredConfig.Toml

open Table (keys Sorted)
open Outline (Shows shows_root update values define entriesToToml?)

variable {d : Dialect}

mutual

theorem heading_blocksBelow (path : List String) : ∀ (entries : List (String × Toml)),
    ∀ b ∈ blocksBelow path entries, b.heading ≠ .top
  | [] => fun b hb => by cases hb
  | (key, v) :: rest => by
    intro b hb
    rcases List.mem_append.mp hb with hb | hb
    · exact heading_blocksAt (path ++ [key]) v b hb
    · exact heading_blocksBelow path rest b hb

theorem heading_blocksAt (path : List String) : ∀ (v : Toml),
    ∀ b ∈ blocksAt path v, b.heading ≠ .top
  | .table entries => by
    intro b hb
    rcases List.mem_append.mp hb with hb | hb
    · split at hb
      · rw [List.mem_singleton.mp hb]
        exact fun heq => by cases heq
      · cases hb
    · exact heading_blocksBelow path entries b hb
  | .array items => by
    intro b hb
    rw [blocksAt] at hb
    split at hb
    · exact heading_blocksOfSeries path items b hb
    · cases hb
  | .string _ => fun b hb => by cases hb
  | .integer _ => fun b hb => by cases hb
  | .float _ => fun b hb => by cases hb
  | .boolean _ => fun b hb => by cases hb
  | .dateTime _ => fun b hb => by cases hb

theorem heading_blocksOfSeries (path : List String) : ∀ (items : List Toml),
    ∀ b ∈ blocksOfSeries path items, b.heading ≠ .top
  | [] => fun b hb => by cases hb
  | .table entries :: rest => by
    intro b hb
    rcases List.mem_cons.mp hb with rfl | hb
    · exact fun heq => by cases heq
    · rcases List.mem_append.mp hb with hb | hb
      · exact heading_blocksBelow path entries b hb
      · exact heading_blocksOfSeries path rest b hb
  | .string _ :: rest => heading_blocksOfSeries path rest
  | .integer _ :: rest => heading_blocksOfSeries path rest
  | .float _ :: rest => heading_blocksOfSeries path rest
  | .boolean _ :: rest => heading_blocksOfSeries path rest
  | .dateTime _ :: rest => heading_blocksOfSeries path rest
  | .array _ :: rest => heading_blocksOfSeries path rest

end

theorem build?_eq (statements : List Statement) :
    build? d statements =
      ((statements.foldlM (Draft.add d) ⟨[], []⟩).map Draft.root).bind fun root =>
        (entriesToToml? d root).map Table.ofList := by
  simp only [build?]
  rcases statements.foldlM (Draft.add d) ⟨[], []⟩ with _ | draft
  · rfl
  · change (entriesToToml? d draft.root).bind _ = (entriesToToml? d draft.root).map _
    rcases entriesToToml? d draft.root with _ | entries
    · rfl
    · rfl

theorem filter_isPlain_eq_nil (entries : List (String × Toml))
    (h : (plainLines entries).isEmpty = true) : entries.filter (isPlain ·.2) = [] := by
  rw [List.filter_eq_nil_iff]
  induction entries with
  | nil => exact fun e he => by cases he
  | cons e entries ih =>
    obtain ⟨key, v⟩ := e
    simp only [plainLines] at h
    split at h
    · simp at h
    · rename_i hp
      intro e he
      rcases List.mem_cons.mp he with rfl | he
      · exact hp
      · exact ih h e he

/-- The blocks below the outermost table, whose plain entries are there already. -/
theorem build_blocksBelow (root plain : List (String × Toml)) (h : PrintableEntries root)
    (hs : Sorted root) (hplain : plainBack d root = some plain) :
    ((statementsOf? d (blocksBelow [] root)).bind fun out =>
      ((out.foldlM (Draft.add d) ⟨values plain, []⟩).map Draft.root).bind fun root =>
        (entriesToToml? d root).map Table.ofList) =
      (tablesBack d 0 root).map fun tables => Table.ofList (plain ++ tables) := by
  rw [← Option.bind_assoc, foldlM_statementsOf _ (heading_blocksBelow [] root)]
  obtain ⟨nodes, hnodes, htables, -⟩ := addBlocks_below root h [] (values plain) (values plain) id
    (shows_root _) (nodup_plain_headed root plain hs.nodup hplain)
  rw [hnodes, show 0 = ([] : List String).length from rfl, ← htables]
  rcases nodes with _ | nodes
  · rfl
  · have hroot : (if nodes.isEmpty then values plain else id (values plain ++ nodes)) =
        values plain ++ nodes := by
      cases nodes with
      | nil => exact (List.append_nil _).symm
      | cons e nodes => rfl
    change (entriesToToml? d (if nodes.isEmpty then _ else _)).map _ =
      (entriesToToml? d nodes).map _
    rw [hroot, Outline.entriesToToml?_append, Outline.entriesToToml?_values, Option.bind_some,
      Option.map_map]
    rfl

theorem statements?_top (root : List (String × Toml)) :
    Block.statements? d ⟨.top, [], root⟩ =
      (plainBack d root).map fun plain => plain.map fun e => .entry [e.1] e.2 := by
  simp only [Block.statements?, plainBack]
  rfl

/-- A printed document is read as `reread` says. -/
theorem parse?_print_eq_reread (hkey : d.keyParts.all (1 ≤ ·) = true) (root : List (String × Toml))
    (h : PrintableEntries root) (hs : Sorted root) : parse? d (print root) = reread d root := by
  rw [parse?_print hkey root h]
  simp only [blocks, reread]
  by_cases htop : (plainLines root).isEmpty = true
  · have hplain : plainBack d root = some [] := by
      simp only [plainBack]
      rw [filter_isPlain_eq_nil root htop]
      rfl
    rw [if_pos htop, List.nil_append, hplain, Option.bind_some,
      ← build_blocksBelow root [] h hs hplain]
    congr 1
    funext out
    exact build?_eq out
  · rw [if_neg htop, List.singleton_append, statementsOf?, statements?_top]
    rcases hplain : plainBack d root with _ | plain
    · rfl
    · have hkeys := nodup_plain_headed root plain hs.nodup hplain
      have hentries := (foldlM_entries (d := d) plain [] []).trans (congrArg _
        ((shows_root []).define_all d plain (by
          rw [← Outline.keys_values]
          exact (List.nodup_append.mp hkeys).1)))
      rw [Option.map_some, Option.bind_some, Option.bind_some,
        ← build_blocksBelow root plain h hs hplain]
      rcases statementsOf? d (blocksBelow [] root) with _ | out
      · rfl
      · change build? d (_ ++ out) = _
        rw [build?_eq, List.foldlM_append, hentries]
        rfl

end LayeredConfig.Toml
