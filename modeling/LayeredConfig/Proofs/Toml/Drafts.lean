import LayeredConfig.Proofs.Toml.Blocks

/-!
# The blocks build the tables that were printed

Reading the statements of a block opens its table and gives values to its keys. Followed
through a printed tree, this builds outlines that denote what `reread` says: each table is
appended where its parent is, and what its own blocks do stays below it.
-/

set_option autoImplicit false

namespace LayeredConfig.Toml

open Table (keys Sorted)
open Outline (Shows update openTable openElement values define entriesToToml? itemsToToml?)

variable {d : Dialect}

namespace Block

def opened? (b : Block) (root : Entries) : Option Entries :=
  match b.heading with
  | .top => some root
  | .header => (lastKey? b.path).bind fun (parents, key) => update (openTable key) parents root
  | .element => (lastKey? b.path).bind fun (parents, key) => update (openElement key) parents root

def addTo (d : Dialect) (b : Block) (root : Entries) : Option Entries :=
  (b.headStatements? d).bind fun _ => (plainBack d b.entries).bind fun pairs =>
    (b.opened? root).bind fun root =>
      pairs.foldlM (fun root e => update (define d e.2 [e.1]) b.path root) root

end Block

def addBlocks (d : Dialect) (bs : List Block) (root : Entries) : Option Entries :=
  bs.foldlM (fun root b => b.addTo d root) root

theorem addBlocks_append (bs cs : List Block) (root : Entries) :
    addBlocks d (bs ++ cs) root = (addBlocks d bs root).bind (addBlocks d cs) := by
  simp only [addBlocks]
  rw [List.foldlM_append]
  rfl

theorem addBlocks_cons (b : Block) (bs : List Block) (root : Entries) :
    addBlocks d (b :: bs) root = (b.addTo d root).bind (addBlocks d bs) := by
  simp only [addBlocks]
  rw [List.foldlM_cons]
  rfl

theorem foldlM_entries (pairs : List (String × Toml)) (root : Entries) (path : List String) :
    (pairs.map fun (key, v) => Statement.entry [key] v).foldlM (Draft.add d) ⟨root, path⟩ =
      (pairs.foldlM (fun root e => update (define d e.2 [e.1]) path root) root).map fun root =>
        ⟨root, path⟩ := by
  induction pairs generalizing root with
  | nil => rfl
  | cons e pairs ih =>
    obtain ⟨key, v⟩ := e
    rw [List.map_cons, List.foldlM_cons, List.foldlM_cons]
    change ((update (define d v [key]) path root).bind fun root =>
      some (⟨root, path⟩ : Draft)).bind _ =
      ((update (define d v [key]) path root).bind _).map _
    rcases update (define d v [key]) path root with _ | root
    · rfl
    · exact ih root

theorem bind_opened (open? : String → Entries → Option Entries) (path : List String)
    (root : Entries) :
    ((lastKey? path).bind fun p => (update (open? p.2) p.1 root).bind fun root =>
      some (⟨root, path⟩ : Draft)).bind some =
      ((lastKey? path).bind fun p => update (open? p.2) p.1 root).map fun root => ⟨root, path⟩ := by
  rcases lastKey? path with _ | ⟨parents, key⟩
  · rfl
  · change ((update (open? key) parents root).bind _).bind some =
      (update (open? key) parents root).map _
    rcases update (open? key) parents root with _ | root
    · rfl
    · rfl

/-- The statements of a block do to a draft what the block does to the tables. -/
theorem foldlM_statements (b : Block) (out : List Statement) (h : b.statements? d = some out)
    (root : Entries) (path : List String) (hpath : b.heading = .top → path = b.path) :
    out.foldlM (Draft.add d) ⟨root, path⟩ = (b.addTo d root).map fun root => ⟨root, b.path⟩ := by
  obtain ⟨head, hhead, h⟩ := Option.bind_eq_some_iff.mp h
  obtain ⟨pairs, hpairs, rfl⟩ := Option.map_eq_some_iff.mp h
  have hopened : head.foldlM (Draft.add d) ⟨root, path⟩ =
      (b.opened? root).map fun root => (⟨root, b.path⟩ : Draft) := by
    obtain ⟨heading, blockPath, entries⟩ := b
    cases heading with
    | top =>
      cases hhead
      rw [hpath rfl]
      rfl
    | header =>
      change (if _ then some [Statement.header blockPath] else none) = some head at hhead
      split at hhead
      · cases hhead
        exact bind_opened openTable blockPath root
      · cases hhead
    | element =>
      change (if _ then some [Statement.element blockPath] else none) = some head at hhead
      split at hhead
      · cases hhead
        exact bind_opened openElement blockPath root
      · cases hhead
  simp only [Block.addTo, plainBack]
  simp only [Block.shown] at hpairs
  rw [List.foldlM_append, hopened, hhead, hpairs]
  rcases b.opened? root with _ | root
  · rfl
  · exact foldlM_entries pairs root b.path

theorem foldlM_statementsOf (bs : List Block) (h : ∀ b ∈ bs, b.heading ≠ .top) (root : Entries)
    (path : List String) :
    (statementsOf? d bs).bind (fun out => (out.foldlM (Draft.add d) ⟨root, path⟩).map Draft.root) =
      addBlocks d bs root := by
  induction bs generalizing root path with
  | nil => rfl
  | cons b bs ih =>
    have ih := ih fun x hx => h x (List.mem_cons_of_mem b hx)
    rw [addBlocks_cons, statementsOf?]
    rcases hb : b.statements? d with _ | out
    · have hnone : b.addTo d root = none := by
        simp only [Block.statements?, Block.shown] at hb
        simp only [Block.addTo, plainBack]
        rcases hhead : b.headStatements? d with _ | head
        · rfl
        · rw [hhead] at hb
          rw [Option.map_eq_none_iff.mp hb]
          rfl
      rw [hnone]
      rfl
    · have hstep := foldlM_statements b out hb root path fun ht =>
        absurd ht (h b List.mem_cons_self)
      rw [Option.bind_some]
      rcases hroot : b.addTo d root with _ | next
      · rw [hroot] at hstep
        rcases statementsOf? d bs with _ | more
        · rfl
        · change ((out ++ more).foldlM (Draft.add d) _).map Draft.root = none
          rw [List.foldlM_append, hstep]
          rfl
      · rw [hroot] at hstep
        rw [Option.bind_some, ← ih next b.path]
        rcases statementsOf? d bs with _ | more
        · rfl
        · change ((out ++ more).foldlM (Draft.add d) _).map Draft.root = _
          rw [List.foldlM_append, hstep]
          rfl

def headed (entries : List (String × Toml)) : List (String × Toml) :=
  entries.filter fun e => !isPlain e.2

theorem plain_headed_perm (entries : List (String × Toml)) :
    (entries.filter (isPlain ·.2) ++ headed entries).Perm entries :=
  List.filter_append_perm (fun e : String × Toml => isPlain e.2) entries

theorem nodup_plain_headed (entries pairs : List (String × Toml)) (h : (keys entries).Nodup)
    (hpairs : plainBack d entries = some pairs) :
    (keys (values pairs) ++ keys (headed entries)).Nodup := by
  have hp := (plain_headed_perm entries).map Prod.fst
  rw [List.map_append] at hp
  rw [Outline.keys_values, keys_pairsBack _ _ _ _ hpairs]
  exact hp.nodup_iff.mpr h

theorem headed_cons_plain (key : String) (v : Toml) (rest : List (String × Toml))
    (h : isPlain v = true) : headed ((key, v) :: rest) = headed rest := by
  simp only [headed]
  rw [List.filter_cons, if_neg (by rw [h]; decide)]

theorem headed_cons_headed (key : String) (v : Toml) (rest : List (String × Toml))
    (h : isPlain v = false) : headed ((key, v) :: rest) = (key, v) :: headed rest := by
  simp only [headed]
  rw [List.filter_cons, if_pos (by rw [h]; rfl)]

theorem headed_eq_self (entries : List (String × Toml))
    (hall : ∀ e ∈ entries, isPlain e.2 = false) : headed entries = entries := by
  simp only [headed]
  rw [List.filter_eq_self]
  intro e he
  rw [hall e he]
  rfl

theorem plainBack_nil (entries : List (String × Toml)) (hall : ∀ e ∈ entries, isPlain e.2 = false) :
    plainBack d entries = some [] := by
  simp only [plainBack]
  rw [List.filter_eq_nil_iff.mpr fun e he => by rw [hall e he]; decide]
  rfl

theorem of_not_isHeaded (entries : List (String × Toml)) (h : ¬ isHeaded entries = true) :
    entries ≠ [] ∧ ∀ e ∈ entries, isPlain e.2 = false := by
  simp only [isHeaded, Bool.or_eq_true, not_or, Bool.not_eq_true] at h
  constructor
  · rintro rfl
    cases h.1
  · intro e he
    exact Bool.eq_false_iff.mpr (List.any_eq_false.mp h.2 e he)

theorem isTableSeries_of_not_isPlain (items : List Toml) (h : isPlain (.array items) = false) :
    (Toml.array items).isTableSeries = true := by
  simpa [isPlain, isTable] using h

theorem blocksAt_table (path : List String) (entries : List (String × Toml)) :
    blocksAt path (.table entries) =
      (if isHeaded entries then [⟨.header, path, entries⟩] else []) ++ blocksBelow path entries :=
  rfl

theorem blocksAt_of_isPlain (path : List String) (v : Toml) (h : isPlain v = true) :
    blocksAt path v = [] := by
  cases v with
  | table entries => cases h
  | array items =>
    rw [blocksAt, if_neg]
    intro hseries
    simp only [isPlain] at h
    rw [hseries] at h
    cases h
  | string _ => rfl
  | integer _ => rfl
  | float _ => rfl
  | boolean _ => rfl
  | dateTime _ => rfl

@[simp] theorem lastKey?_append (path : List String) (key : String) :
    lastKey? (path ++ [key]) = some (path, key) := by
  simp only [lastKey?]
  rw [List.reverse_append]
  change some (path.reverse.reverse, key) = _
  rw [List.reverse_reverse]

theorem addBlocks_opened (b : Block) (bs : List Block) (root opened : Entries)
    (out : List Statement) (hhead : b.headStatements? d = some out)
    (hopen : b.opened? root = some opened) :
    addBlocks d (b :: bs) root = (plainBack d b.entries).bind fun pairs =>
      (pairs.foldlM (fun root e => update (define d e.2 [e.1]) b.path root) opened).bind
        (addBlocks d bs) := by
  rw [addBlocks_cons]
  simp only [Block.addTo]
  rw [hhead, hopen, Option.bind_some, Option.bind_assoc]
  rfl

theorem addBlocks_tooLong (b : Block) (bs : List Block) (root : Entries)
    (hhead : b.headStatements? d = none) : addBlocks d (b :: bs) root = none := by
  rw [addBlocks_cons]
  simp only [Block.addTo]
  rw [hhead]
  rfl

def Heading.open? : Heading → String → Entries → Option Entries
  | .top => fun _ => some
  | .header => openTable
  | .element => openElement

theorem addBlocks_heading (heading : Heading) (hne : heading ≠ .top) (path : List String)
    (key : String) (entries : List (String × Toml)) (bs : List Block) (root opened : Entries)
    (hopen : update (heading.open? key) path root = some opened) :
    addBlocks d (⟨heading, path ++ [key], entries⟩ :: bs) root =
      if d.keyParts.all (path.length + 1 ≤ ·) then (plainBack d entries).bind fun pairs =>
        (pairs.foldlM (fun root e => update (define d e.2 [e.1]) (path ++ [key]) root) opened).bind
          (addBlocks d bs)
      else none := by
  have hlen : (path ++ [key]).length = path.length + 1 := by simp
  have hopened : Block.opened? ⟨heading, path ++ [key], entries⟩ root = some opened := by
    rw [← hopen]
    simp only [Block.opened?, lastKey?_append]
    cases heading with
    | top => exact absurd rfl hne
    | header => rfl
    | element => rfl
  by_cases hfits : d.keyParts.all (path.length + 1 ≤ ·) = true
  · rw [if_pos hfits]
    rw [← hlen] at hfits
    cases heading with
    | top => exact absurd rfl hne
    | header =>
      exact addBlocks_opened _ bs root opened [.header (path ++ [key])] (if_pos hfits) hopened
    | element =>
      exact addBlocks_opened _ bs root opened [.element (path ++ [key])] (if_pos hfits) hopened
  · rw [if_neg hfits]
    rw [← hlen] at hfits
    apply addBlocks_tooLong
    cases heading with
    | top => exact absurd rfl hne
    | header => exact if_neg hfits
    | element => exact if_neg hfits

/-- What the blocks below a path make of the tables: outlines that denote what the entries are
read as, appended at the path. Without any blocks nothing changes. -/
def Adds (d : Dialect) (path : List String) (entries : List (String × Toml)) (root inside : Entries)
    (plug : Entries → Entries) : Prop :=
  ∃ nodes : Option Entries,
    addBlocks d (blocksBelow path entries) root =
      nodes.map (fun nodes => if nodes.isEmpty then root else plug (inside ++ nodes)) ∧
    nodes.bind (entriesToToml? d) = tablesBack d path.length entries ∧
    ∀ n ∈ nodes, keys n = keys (headed entries)

def AddsAt (d : Dialect) (path : List String) (key : String) (v : Toml) (root inside : Entries)
    (plug : Entries → Entries) : Prop :=
  ∃ node : Option Outline,
    addBlocks d (blocksAt (path ++ [key]) v) root =
      node.map (fun node => plug (inside ++ [(key, node)])) ∧
    node.bind (Outline.toToml? d) = headedBack d (path.length + 1) v

def AddsSeries (d : Dialect) (path : List String) (key : String) (items : List Toml)
    (root inside : Entries) (plug : Entries → Entries) (done : List Entries) : Prop :=
  ∃ elements : Option (List Entries),
    addBlocks d (blocksOfSeries (path ++ [key]) items) root = elements.map (fun elements =>
      if elements.isEmpty then root else plug (inside ++ [(key, .series (done ++ elements))])) ∧
    elements.bind (itemsToToml? d) = seriesBack d (path.length + 1) items ∧
    ∀ e ∈ elements, e = [] → items = []

/-- Once a table is open, its plain entries and the blocks below it make it what it is read as. -/
theorem add_body (path : List String) (entries : List (String × Toml)) (plug : Entries → Entries)
    (hshows : ∀ inside, Shows path (plug inside) inside plug) (hnodup : (keys entries).Nodup)
    (hbelow : ∀ inside, (keys inside ++ keys (headed entries)).Nodup →
      Adds d path entries (plug inside) inside plug) :
    ∃ body : Option Entries,
      ((plainBack d entries).bind fun pairs =>
        (pairs.foldlM (fun root e => update (define d e.2 [e.1]) path root) (plug [])).bind
          (addBlocks d (blocksBelow path entries))) = body.map plug ∧
      (body.bind fun body => (entriesToToml? d body).bind (Outline.tableValue? d)) =
        tableOf? d (plainBack d entries) (tablesBack d path.length entries) := by
  simp only [tableOf?]
  rcases hpairs : plainBack d entries with _ | pairs
  · exact ⟨none, rfl, rfl⟩
  · have hkeys := nodup_plain_headed entries pairs hnodup hpairs
    have hdefine := (hshows []).define_all d pairs (by
      rw [← Outline.keys_values]
      exact (List.nodup_append.mp hkeys).1)
    obtain ⟨nodes, hnodes, htables, -⟩ := hbelow (values pairs) hkeys
    refine ⟨nodes.map (values pairs ++ ·), ?_, ?_⟩
    · rw [Option.bind_some, hdefine, Option.bind_some, List.nil_append, hnodes, Option.map_map]
      congr 1
      funext nodes
      cases nodes with
      | nil =>
        change plug (values pairs) = plug (values pairs ++ [])
        rw [List.append_nil]
      | cons e nodes => rfl
    · rw [Option.bind_some, ← htables]
      rcases nodes with _ | nodes
      · rfl
      · change (entriesToToml? d (values pairs ++ nodes)).bind _ = (entriesToToml? d nodes).bind _
        rw [Outline.entriesToToml?_append, Outline.entriesToToml?_values, Option.bind_some]
        rcases entriesToToml? d nodes with _ | tables
        · rfl
        · rfl

section

variable {path : List String} {key : String} {v : Toml} {entries rest : List (String × Toml)}
variable {items : List Toml} {root inside : Entries} {plug : Entries → Entries}
variable {done : List Entries}

theorem Adds.cons_plain (hp : isPlain v = true) (hrest : Adds d path rest root inside plug) :
    Adds d path ((key, v) :: rest) root inside plug := by
  simp only [Adds]
  rw [blocksBelow, blocksAt_of_isPlain _ v hp, tablesBack, if_pos hp,
    headed_cons_plain key v rest hp]
  exact hrest

/-- A value with blocks, and the entries after it. -/
theorem Adds.cons_headed (hp : isPlain v = false) (hat : AddsAt d path key v root inside plug)
    (hrest : ∀ node, Adds d path rest (plug (inside ++ [(key, node)])) (inside ++ [(key, node)])
      plug) :
    Adds d path ((key, v) :: rest) root inside plug := by
  obtain ⟨node, hnode, hback⟩ := hat
  simp only [Adds]
  rw [blocksBelow, addBlocks_append, hnode, tablesBack, if_neg (by rw [hp]; decide), ← hback,
    headed_cons_headed key v rest hp]
  rcases node with _ | node
  · exact ⟨none, rfl, rfl, fun n hn => by cases hn⟩
  · obtain ⟨nodes, hnodes, htables, hkeys⟩ := hrest node
    refine ⟨nodes.map ((key, node) :: ·), ?_, ?_, ?_⟩
    · change addBlocks d _ _ = _
      rw [hnodes, Option.map_map]
      congr 1
      funext nodes
      cases nodes with
      | nil => rfl
      | cons e nodes =>
        change plug (inside ++ [(key, node)] ++ e :: nodes) =
          plug (inside ++ (key, node) :: e :: nodes)
        rw [List.append_assoc]
        rfl
    · rw [← htables, Option.bind_some]
      rcases nodes with _ | nodes
      · rcases node.toToml? d with _ | w
        · rfl
        · rfl
      · change (node.toToml? d).bind (fun w => (entriesToToml? d nodes).bind _) =
          (node.toToml? d).bind _
        rcases node.toToml? d with _ | w
        · rfl
        · rw [Option.bind_some, Option.bind_some, Option.bind_some]
          rcases entriesToToml? d nodes with _ | tables
          · rfl
          · rfl
    · intro n hn
      obtain ⟨n', hn', rfl⟩ := Option.map_eq_some_iff.mp hn
      exact congrArg (key :: ·) (hkeys n' hn')

/-- A table with a header of its own. -/
theorem AddsAt.header (hs : Shows path root inside plug) (hkey : key ∉ keys inside)
    (hnodup : (keys entries).Nodup) (hown : isHeaded entries = true)
    (hbelow : ∀ inner, (keys inner ++ keys (headed entries)).Nodup →
      Adds d (path ++ [key]) entries (plug (inside ++ [(key, .table .header inner)])) inner
        fun inner => plug (inside ++ [(key, .table .header inner)])) :
    AddsAt d path key (.table entries) root inside plug := by
  have hlen : (path ++ [key]).length = path.length + 1 := by simp
  obtain ⟨body, hbody, hvalue⟩ := add_body (d := d) (path ++ [key]) entries
    (fun inner => plug (inside ++ [(key, .table .header inner)]))
    (fun inner => hs.table hkey .header inner) hnodup hbelow
  rw [hlen] at hvalue
  simp only [AddsAt]
  rw [blocksAt_table, headedBack, hown, if_pos rfl, Bool.true_and, List.singleton_append,
    addBlocks_heading .header (by decide) path key entries _ root _ (hs.openTable hkey)]
  by_cases hfits : d.keyParts.all (path.length + 1 ≤ ·) = true
  · rw [if_pos hfits, if_neg (by rw [hfits]; decide), ← hvalue]
    refine ⟨body.map (.table .header ·), ?_, ?_⟩
    · rw [Option.map_map]
      exact hbody
    · rcases body with _ | body
      · rfl
      · rfl
  · rw [if_neg hfits, if_pos (by rw [Bool.eq_false_iff.mpr hfits]; rfl)]
    exact ⟨none, rfl, rfl⟩

/-- A table without a header is there because its tables are. -/
theorem AddsAt.parent (hown : ¬ isHeaded entries = true)
    (hbelow : Adds d (path ++ [key]) entries root [] fun inner =>
      plug (inside ++ [(key, .table .parent inner)])) :
    AddsAt d path key (.table entries) root inside plug := by
  obtain ⟨hne, hall⟩ := of_not_isHeaded entries hown
  obtain ⟨nodes, hnodes, htables, hkeys⟩ := hbelow
  rw [show (path ++ [key]).length = path.length + 1 by simp] at htables
  rw [headed_eq_self entries hall] at hkeys
  simp only [AddsAt]
  rw [blocksAt_table, headedBack, if_neg hown, Bool.eq_false_iff.mpr hown, Bool.false_and,
    if_neg (by decide), plainBack_nil entries hall, ← htables]
  refine ⟨nodes.map (.table .parent ·), ?_, ?_⟩
  · rw [List.nil_append, hnodes, Option.map_map]
    rcases nodes with _ | nodes
    · rfl
    · have hsome : nodes.isEmpty = false := by
        have hlength := congrArg List.length (hkeys nodes rfl)
        cases nodes with
        | nil =>
          cases entries with
          | nil => exact absurd rfl hne
          | cons e entries => cases hlength
        | cons e nodes => rfl
      change some (if nodes.isEmpty then _ else _) = _
      rw [hsome]
      rfl
  · rcases nodes with _ | nodes
    · rfl
    · rfl

theorem AddsAt.series (hp : isPlain (.array items) = false)
    (hitems : AddsSeries d path key items root inside plug []) :
    AddsAt d path key (.array items) root inside plug := by
  have hseries := isTableSeries_of_not_isPlain items hp
  obtain ⟨elements, helements, hback, hempty⟩ := hitems
  simp only [AddsAt]
  rw [blocksAt, if_pos hseries, headedBack, ← hback]
  refine ⟨elements.map .series, ?_, ?_⟩
  · rw [helements, Option.map_map]
    rcases elements with _ | elements
    · rfl
    · have hsome : elements.isEmpty = false := by
        cases elements with
        | nil =>
          cases hempty [] rfl rfl
          cases hseries
        | cons e elements => rfl
      change some (if elements.isEmpty then _ else _) = _
      rw [hsome]
      rfl
  · rcases elements with _ | elements
    · rfl
    · change (itemsToToml? d elements).bind _ = (itemsToToml? d elements).map _
      rcases itemsToToml? d elements with _ | vs
      · rfl
      · rfl

/-- A table of a series, and the tables after it. -/
theorem AddsSeries.cons (hs : ∀ other, Shows path (plug other) other plug)
    (hkey : key ∉ keys inside) (hnodup : (keys entries).Nodup)
    (hopen : update (openElement key) path root =
      some (plug (inside ++ [(key, .series (done ++ [[]]))])))
    (hbelow : ∀ last, (keys last ++ keys (headed entries)).Nodup →
      Adds d (path ++ [key]) entries (plug (inside ++ [(key, .series (done ++ [last]))])) last
        fun last => plug (inside ++ [(key, .series (done ++ [last]))]))
    (hrest : ∀ last, AddsSeries d path key items
      (plug (inside ++ [(key, .series (done ++ [last]))])) inside plug (done ++ [last])) :
    AddsSeries d path key (.table entries :: items) root inside plug done := by
  have hlen : (path ++ [key]).length = path.length + 1 := by simp
  obtain ⟨body, hbody, hvalue⟩ := add_body (d := d) (path ++ [key]) entries
    (fun last => plug (inside ++ [(key, .series (done ++ [last]))]))
    (fun last => (hs inside).series hkey done last) hnodup hbelow
  rw [hlen] at hvalue
  simp only [AddsSeries]
  rw [blocksOfSeries, seriesBack, ← hvalue, ← List.cons_append, addBlocks_append,
    addBlocks_heading .element (by decide) path key entries _ root _ hopen]
  by_cases hfits : d.keyParts.all (path.length + 1 ≤ ·) = true
  · rw [if_pos hfits, if_neg (by rw [hfits]; decide), hbody]
    rcases body with _ | last
    · exact ⟨none, rfl, rfl, fun e he => by cases he⟩
    · -- `last` is done, and the others are appended after it
      obtain ⟨elements, helements, hback, -⟩ := hrest last
      refine ⟨elements.map (last :: ·), ?_, ?_, ?_⟩
      · change addBlocks d _ _ = _
        rw [helements, Option.map_map]
        congr 1
        funext elements
        cases elements with
        | nil => rfl
        | cons e elements =>
          change plug (inside ++ [(key, .series (done ++ [last] ++ e :: elements))]) =
            plug (inside ++ [(key, .series (done ++ last :: e :: elements))])
          rw [List.append_assoc]
          rfl
      · rw [← hback, Option.bind_some]
        rcases elements with _ | elements
        · rcases (entriesToToml? d last).bind (Outline.tableValue? d) with _ | v
          · rfl
          · rfl
        · change (entriesToToml? d last).bind (fun entries => (Outline.tableValue? d entries).bind
            fun v => (itemsToToml? d elements).bind _) = _
          rw [← Option.bind_assoc]
          rcases (entriesToToml? d last).bind (Outline.tableValue? d) with _ | v
          · rfl
          · rw [Option.bind_some, Option.bind_some, Option.bind_some]
            rcases itemsToToml? d elements with _ | vs
            · rfl
            · rfl
      · intro e he hnil
        obtain ⟨elements, -, rfl⟩ := Option.map_eq_some_iff.mp he
        cases hnil
  · rw [if_neg hfits, if_pos (by rw [Bool.eq_false_iff.mpr hfits]; rfl)]
    exact ⟨none, rfl, rfl, fun e he => by cases he⟩

end

mutual

theorem addBlocks_below : ∀ (entries : List (String × Toml)), PrintableEntries entries →
    ∀ (path : List String) (root inside : Entries) (plug : Entries → Entries),
      Shows path root inside plug → (keys inside ++ keys (headed entries)).Nodup →
      Adds d path entries root inside plug
  | [], _, path, root, inside, plug, _, _ =>
    ⟨some [], rfl, rfl, fun n hn => by cases hn; rfl⟩
  | (key, v) :: rest, hv, path, root, inside, plug, hs, hnodup => by
    by_cases hp : isPlain v = true
    · rw [headed_cons_plain key v rest hp] at hnodup
      exact .cons_plain hp (addBlocks_below rest hv.2 path root inside plug hs hnodup)
    · have hp' := Bool.eq_false_iff.mpr hp
      rw [headed_cons_headed key v rest hp'] at hnodup
      obtain ⟨-, -, hdisjoint⟩ := List.nodup_append.mp hnodup
      have hkey : key ∉ keys inside := fun hm => hdisjoint key hm key List.mem_cons_self rfl
      apply Adds.cons_headed hp' (addBlocks_at v hv.1 hp' path key root inside plug hs hkey)
      intro node
      have hk : keys (inside ++ [(key, node)]) = keys inside ++ [key] := List.map_append
      apply addBlocks_below rest hv.2 path _ _ plug (hs.self _)
      rw [hk, List.append_assoc]
      exact hnodup

theorem addBlocks_at : ∀ (v : Toml), Printable v → isPlain v = false →
    ∀ (path : List String) (key : String) (root inside : Entries) (plug : Entries → Entries),
      Shows path root inside plug → key ∉ keys inside → AddsAt d path key v root inside plug
  | .table entries, hv, _, path, key, root, inside, plug, hs, hkey => by
    by_cases hown : isHeaded entries = true
    · exact .header hs hkey hv.1.nodup hown fun inner hnodup =>
        addBlocks_below entries hv.2 _ _ inner _ (hs.table hkey .header inner) hnodup
    · apply AddsAt.parent hown
      apply addBlocks_below entries hv.2 _ root [] _ (hs.parent hkey)
      rw [headed_eq_self entries (of_not_isHeaded entries hown).2]
      exact hv.1.nodup
  | .array items, hv, hp, path, key, root, inside, plug, hs, hkey => by
    have hseries := isTableSeries_of_not_isPlain items hp
    simp only [isTableSeries, Bool.and_eq_true] at hseries
    exact .series hp
      (addBlocks_series items hv hseries.2 path key root inside plug hs.self hkey []
        (hs.openSeries hkey))
  | .string _, _, hp, _, _, _, _, _, _, _ => by cases hp
  | .integer _, _, hp, _, _, _, _, _, _, _ => by cases hp
  | .float _, _, hp, _, _, _, _, _, _, _ => by cases hp
  | .boolean _, _, hp, _, _, _, _, _, _, _ => by cases hp
  | .dateTime _, _, hp, _, _, _, _, _, _, _ => by cases hp

theorem addBlocks_series : ∀ (items : List Toml), PrintableItems items → items.all isTable = true →
    ∀ (path : List String) (key : String) (root inside : Entries) (plug : Entries → Entries),
      (∀ other, Shows path (plug other) other plug) → key ∉ keys inside → ∀ done : List Entries,
      update (openElement key) path root = some (plug (inside ++ [(key, .series (done ++ [[]]))])) →
      AddsSeries d path key items root inside plug done
  | [], _, _, path, key, root, inside, plug, _, _, done, _ =>
    ⟨some [], rfl, rfl, fun _ _ _ => rfl⟩
  | .table entries :: rest, hv, hall, path, key, root, inside, plug, hs, hkey, done, hopen => by
    rw [List.all_cons, Bool.and_eq_true] at hall
    apply AddsSeries.cons hs hkey hv.1.1.nodup hopen
    · intro last hnodup
      exact addBlocks_below entries hv.1.2 _ _ last _ ((hs inside).series hkey done last) hnodup
    · intro last
      exact addBlocks_series rest hv.2 hall.2 path key _ inside plug hs hkey (done ++ [last])
        ((hs inside).openElement hkey _)
  | .string _ :: _, _, hall, _, _, _, _, _, _, _, _, _ => by cases hall
  | .integer _ :: _, _, hall, _, _, _, _, _, _, _, _, _ => by cases hall
  | .float _ :: _, _, hall, _, _, _, _, _, _, _, _, _ => by cases hall
  | .boolean _ :: _, _, hall, _, _, _, _, _, _, _, _, _ => by cases hall
  | .dateTime _ :: _, _, hall, _, _, _, _, _, _, _, _, _ => by cases hall
  | .array _ :: _, _, hall, _, _, _, _, _, _, _, _, _ => by cases hall

end

end LayeredConfig.Toml
