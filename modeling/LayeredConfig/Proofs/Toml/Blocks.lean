import LayeredConfig.Toml.Reader
import LayeredConfig.Proofs.Toml.Values

/-!
# Printed documents are read block by block

The printer writes a document as blocks: a header, or none for the outermost table, and the
plain entries of one table. The reader gets the statements of the blocks, one block after the
other, unless a header has too many parts or a value is not read at all.
-/

set_option autoImplicit false

namespace LayeredConfig.Toml

variable {d : Dialect} {rest : List Char}

inductive Heading where
  | top
  | header
  | element
  deriving DecidableEq

structure Block where
  heading : Heading
  path : List String
  entries : List (String × Toml)

namespace Block

def headText (b : Block) : List Char :=
  match b.heading with
  | .top => []
  | .header => headerText b.path
  | .element => elementText b.path

def text (b : Block) : List Char := b.headText ++ plainLines b.entries

def shown (b : Block) : List (String × Toml) := b.entries.filter (isPlain ·.2)

def headStatements? (d : Dialect) (b : Block) : Option (List Statement) :=
  match b.heading with
  | .top => some []
  | .header => if d.keyParts.all (b.path.length ≤ ·) then some [.header b.path] else none
  | .element => if d.keyParts.all (b.path.length ≤ ·) then some [.element b.path] else none

def statements? (d : Dialect) (b : Block) : Option (List Statement) :=
  (b.headStatements? d).bind fun head => (pairsBack d d.openContainers b.shown).map fun entries =>
    head ++ entries.map fun (key, v) => .entry [key] v

end Block

mutual

def blocksBelow (path : List String) : List (String × Toml) → List Block
  | [] => []
  | (key, v) :: rest => blocksAt (path ++ [key]) v ++ blocksBelow path rest

def blocksAt (path : List String) : Toml → List Block
  | .table entries =>
    (if entries.isEmpty || entries.any (fun e => isPlain e.2) then
      [⟨.header, path, entries⟩] else []) ++ blocksBelow path entries
  | .array items => if (Toml.array items).isTableSeries then blocksOfSeries path items else []
  | _ => []

def blocksOfSeries (path : List String) : List Toml → List Block
  | [] => []
  | .table entries :: rest =>
    ⟨.element, path, entries⟩ :: (blocksBelow path entries ++ blocksOfSeries path rest)
  | _ :: rest => blocksOfSeries path rest

end

def blocks (root : List (String × Toml)) : List Block :=
  (if (plainLines root).isEmpty then [] else [⟨.top, [], root⟩]) ++ blocksBelow [] root

mutual

theorem entryBlocks_eq (path : List String) : ∀ entries : List (String × Toml),
    entryBlocks path entries = (blocksBelow path entries).map Block.text
  | [] => rfl
  | (key, v) :: rest => by
    rw [entryBlocks, blocksBelow, List.map_append, headedBlocks_eq (path ++ [key]) v,
      entryBlocks_eq path rest]

theorem headedBlocks_eq (path : List String) : ∀ v : Toml,
    headedBlocks path v = (blocksAt path v).map Block.text
  | .table entries => by
    rw [headedBlocks, blocksAt, List.map_append, entryBlocks_eq path entries]
    split
    · rfl
    · rfl
  | .array items => by
    rw [headedBlocks, blocksAt]
    split
    · exact seriesBlocks_eq path items
    · rfl
  | .string _ => rfl
  | .integer _ => rfl
  | .float _ => rfl
  | .boolean _ => rfl
  | .dateTime _ => rfl

theorem seriesBlocks_eq (path : List String) : ∀ items : List Toml,
    seriesBlocks path items = (blocksOfSeries path items).map Block.text
  | [] => rfl
  | .table entries :: rest => by
    rw [seriesBlocks, blocksOfSeries, List.map_cons, List.map_append, entryBlocks_eq path entries,
      seriesBlocks_eq path rest]
    rfl
  | .string _ :: rest => seriesBlocks_eq path rest
  | .integer _ :: rest => seriesBlocks_eq path rest
  | .float _ :: rest => seriesBlocks_eq path rest
  | .boolean _ :: rest => seriesBlocks_eq path rest
  | .dateTime _ :: rest => seriesBlocks_eq path rest
  | .array _ :: rest => seriesBlocks_eq path rest

end

theorem print_eq (root : List (String × Toml)) :
    (print root).toList = separate ((blocks root).map Block.text) := by
  simp only [print, blocks]
  rw [String.toList_ofList, List.map_append, entryBlocks_eq]
  split
  · rfl
  · rfl

/-- What was put out before stays in front of what is put out later. -/
theorem onward_bind {α : Type} {place next : Place} {text more : List Char} {x : Option α}
    {f : α → List Statement}
    (h : readOn d place text = x.bind fun a => onward d (next, f a) more)
    (before : List Statement) :
    onward d (place, before) text = x.bind fun a => onward d (next, before ++ f a) more := by
  simp only [onward] at h ⊢
  rw [h]
  rcases x with _ | a
  · rfl
  · simp only [Option.bind_some, Option.map_map]
    congr 1
    funext r
    simp

theorem readOn_lineEnd (text : List Char) (before : List Statement) :
    onward d (.lineEnd, before) ('\n' :: text) = onward d (.lineStart, before) text := by
  have h : readOn d .lineEnd ('\n' :: text) = readOn d .lineStart text :=
    readOn_move (lex_token step_newline) rfl
  simp only [onward]
  rw [h]

theorem readOn_emptyLine (text : List Char) :
    readOn d .lineStart ('\n' :: text) = readOn d .lineStart text :=
  readOn_move (lex_token step_newline) rfl

theorem readOn_entry (hkey : d.keyParts.all (1 ≤ ·) = true) (key : String) (v : Toml)
    (hv : Printable v) :
    readOn d .lineStart (keyText key ++ ' ' :: '=' :: ' ' :: (valueText v ++ '\n' :: rest)) =
      (inlineBack d d.openContainers v).bind fun v =>
        onward d (.lineStart, [.entry [key] v]) rest := by
  have hstart : placeStep d .lineStart (keyToken key) = move (.keyEnd .entry [key]) := by
    rw [← keyStep_keyToken hkey]
    simp only [keyToken]
    split
    · rfl
    · rfl
  rw [readOn_move (lex_keyText key (by decide)) hstart, readOn_space fun text => rfl,
    readOn_move (lex_token step_equals)
      (show placeStep d (.keyEnd .entry [key]) .equals = move (.value [key] []) from rfl),
    readOn_space fun text => rfl, readOn_value hkey v hv [key] [] '\n' rest (by decide)]
  rw [List.length_nil, Nat.sub_zero]
  congr 1
  funext w
  exact readOn_lineEnd rest [.entry [key] w]

theorem readOn_plainLines (hkey : d.keyParts.all (1 ≤ ·) = true)
    (entries : List (String × Toml)) (h : PrintableEntries entries) (rest : List Char) :
    readOn d .lineStart (plainLines entries ++ rest) =
      (pairsBack d d.openContainers (entries.filter (isPlain ·.2))).bind fun back =>
        onward d (.lineStart, back.map fun (key, v) => .entry [key] v) rest := by
  induction entries with
  | nil =>
    change readOn d .lineStart rest = onward d (.lineStart, []) rest
    rw [onward_move]
  | cons e entries ih =>
    obtain ⟨key, v⟩ := e
    by_cases hp : isPlain v = true
    · have htext : plainLines ((key, v) :: entries) ++ rest =
          keyText key ++
            ' ' :: '=' :: ' ' :: (valueText v ++ '\n' :: (plainLines entries ++ rest)) := by
        simp [plainLines, hp]
      rw [htext, readOn_entry hkey key v h.1, List.filter_cons, if_pos hp, pairsBack]
      rcases inlineBack d d.openContainers v with _ | w
      · rfl
      · rw [Option.bind_some, Option.bind_some, onward_bind (ih h.2) [.entry [key] w]]
        rcases pairsBack d d.openContainers (entries.filter (isPlain ·.2)) with _ | back
        · rfl
        · rfl
    · have htext : plainLines ((key, v) :: entries) ++ rest = plainLines entries ++ rest := by
        simp [plainLines, hp]
      rw [htext, List.filter_cons, if_neg hp]
      exact ih h.2

theorem keyParts_mono {m n : Nat} (hmn : m ≤ n) (h : d.keyParts.all (n ≤ ·) = true) :
    d.keyParts.all (m ≤ ·) = true := by
  rcases hk : d.keyParts with _ | bound
  · rfl
  · rw [hk] at h
    have hb : n ≤ bound := of_decide_eq_true h
    exact decide_eq_true (hmn.trans hb)

theorem readOn_path (use : KeyUse) (path : List String) (hne : path ≠ []) (parts : List String)
    (place : Place)
    (hp : ∀ key, placeStep d place (keyToken key) = keyStep d use parts (keyToken key)) :
    readOn d place (pathText path ++ ']' :: rest) =
      if d.keyParts.all (parts.length + path.length ≤ ·) then
        readOn d (.keyEnd use (path.reverse ++ parts)) (']' :: rest) else none := by
  induction path generalizing parts place with
  | nil => exact absurd rfl hne
  | cons key path ih =>
    have hstep := (hp key).trans (keyStep_part use parts key)
    cases path with
    | nil =>
      change readIn d .idle place (keyText key ++ ']' :: rest) = _
      rw [readIn_token (lex_keyText key (by decide)), hstep, List.length_singleton]
      split
      · exact onward_move _
      · rfl
    | cons next path =>
      have htext : pathText (key :: next :: path) ++ ']' :: rest =
          keyText key ++ '.' :: (pathText (next :: path) ++ ']' :: rest) := by
        simp [pathText]
      change readIn d .idle place _ = _
      rw [htext, readIn_token (lex_keyText key (by decide)), hstep]
      by_cases hfirst : d.keyParts.all (parts.length + 1 ≤ ·) = true
      · rw [if_pos hfirst]
        change onward d (.keyEnd use (key :: parts), []) _ = _
        rw [onward_move, readOn_move (lex_token step_dot)
          (show placeStep d (.keyEnd use (key :: parts)) .dot = move (.keyPart use (key :: parts))
            from rfl),
          ih (List.cons_ne_nil _ _) (key :: parts) (.keyPart use (key :: parts)) fun _ => rfl]
        have hlen : (key :: parts).length + (next :: path).length =
            parts.length + (key :: next :: path).length := by
          simp only [List.length_cons]
          omega
        rw [hlen]
        simp only [List.reverse_cons, List.append_assoc, List.cons_append, List.nil_append]
      · have hall : ¬ d.keyParts.all (parts.length + (key :: next :: path).length ≤ ·) = true :=
          fun h => hfirst (keyParts_mono (by simp only [List.length_cons]; omega) h)
        rw [if_neg hfirst, if_neg hall]
        rfl

theorem readOn_header (path : List String) (hne : path ≠ []) (rest : List Char) :
    readOn d .lineStart (headerText path ++ rest) =
      (if d.keyParts.all (path.length ≤ ·) then some [.header path] else none).bind fun out =>
        onward d (.lineStart, out) rest := by
  have htext : headerText path ++ rest = '[' :: (pathText path ++ ']' :: '\n' :: rest) := by
    simp [headerText]
  have hbracket : ∀ key,
      placeStep d .bracket (keyToken key) = keyStep d .header [] (keyToken key) := by
    intro key
    simp only [keyToken]
    split
    · rfl
    · rfl
  rw [htext, readOn_move (lex_token step_openBracket)
      (show placeStep d .lineStart .openBracket = move .bracket from rfl),
    readOn_path .header path hne [] .bracket hbracket, List.length_nil, Nat.zero_add,
    List.append_nil]
  split
  · rw [readOn_token step_closeBracket]
    change onward d (.lineEnd, [.header path.reverse.reverse]) _ = _
    rw [List.reverse_reverse]
    exact readOn_lineEnd rest _
  · rfl

theorem readOn_element (path : List String) (hne : path ≠ []) (rest : List Char) :
    readOn d .lineStart (elementText path ++ rest) =
      (if d.keyParts.all (path.length ≤ ·) then some [.element path] else none).bind fun out =>
        onward d (.lineStart, out) rest := by
  have htext : elementText path ++ rest =
      '[' :: '[' :: (pathText path ++ ']' :: ']' :: '\n' :: rest) := by
    simp [elementText]
  rw [htext, readOn_move (lex_token step_openBracket)
      (show placeStep d .lineStart .openBracket = move .bracket from rfl),
    readOn_move (lex_token step_openBracket)
      (show placeStep d .bracket .openBracket = move (.keyPart .element []) from rfl),
    readOn_path .element path hne [] (.keyPart .element []) (fun _ => rfl), List.length_nil,
    Nat.zero_add, List.append_nil]
  split
  · rw [readOn_move (lex_token step_closeBracket)
        (show placeStep d (.keyEnd .element path.reverse) .closeBracket =
          move (.elementEnd path.reverse.reverse) from rfl),
      readOn_token step_closeBracket]
    change onward d (.lineEnd, [.element path.reverse.reverse]) _ = _
    rw [List.reverse_reverse]
    exact readOn_lineEnd rest _
  · rfl

structure Block.Printable (b : Block) : Prop where
  path : b.heading ≠ .top → b.path ≠ []
  entries : PrintableEntries b.entries

theorem readOn_head (b : Block) (h : b.Printable) (rest : List Char) :
    readOn d .lineStart (b.headText ++ rest) =
      (b.headStatements? d).bind fun out => onward d (.lineStart, out) rest := by
  obtain ⟨heading, path, entries⟩ := b
  cases heading with
  | top =>
    change readOn d .lineStart rest = onward d (.lineStart, []) rest
    rw [onward_move]
  | header => exact readOn_header path (h.path fun heq => (by cases heq)) rest
  | element => exact readOn_element path (h.path fun heq => (by cases heq)) rest

/-- A block is read as its statements, whatever follows. -/
theorem readOn_block (hkey : d.keyParts.all (1 ≤ ·) = true) (b : Block) (h : b.Printable)
    (rest : List Char) :
    readOn d .lineStart (b.text ++ rest) =
      (b.statements? d).bind fun out => onward d (.lineStart, out) rest := by
  simp only [Block.text, Block.statements?]
  rw [List.append_assoc, readOn_head b h]
  rcases b.headStatements? d with _ | out
  · rfl
  · rw [Option.bind_some, Option.bind_some,
      onward_bind (readOn_plainLines hkey b.entries h.entries rest) out]
    simp only [Block.shown]
    rcases pairsBack d d.openContainers (b.entries.filter (isPlain ·.2)) with _ | back
    · rfl
    · rfl

def statementsOf? (d : Dialect) : List Block → Option (List Statement)
  | [] => some []
  | b :: bs => (b.statements? d).bind fun out => (statementsOf? d bs).map (out ++ ·)

mutual

theorem printable_blocksBelow (path : List String) : ∀ entries : List (String × Toml),
    PrintableEntries entries → ∀ b ∈ blocksBelow path entries, b.Printable
  | [], _ => fun b hb => by cases hb
  | (key, v) :: rest, h => by
    intro b hb
    rcases List.mem_append.mp hb with hb | hb
    · exact printable_blocksAt (path ++ [key]) (by simp) v h.1 b hb
    · exact printable_blocksBelow path rest h.2 b hb

theorem printable_blocksAt (path : List String) (hne : path ≠ []) : ∀ v : Toml, Printable v →
    ∀ b ∈ blocksAt path v, b.Printable
  | .table entries, h => by
    intro b hb
    rcases List.mem_append.mp hb with hb | hb
    · split at hb
      · rw [List.mem_singleton.mp hb]
        exact ⟨fun _ => hne, h.2⟩
      · cases hb
    · exact printable_blocksBelow path entries h.2 b hb
  | .array items, h => by
    intro b hb
    rw [blocksAt] at hb
    split at hb
    · exact printable_blocksOfSeries path hne items h b hb
    · cases hb
  | .string _, _ => fun b hb => by cases hb
  | .integer _, _ => fun b hb => by cases hb
  | .float _, _ => fun b hb => by cases hb
  | .boolean _, _ => fun b hb => by cases hb
  | .dateTime _, _ => fun b hb => by cases hb

theorem printable_blocksOfSeries (path : List String) (hne : path ≠ []) : ∀ items : List Toml,
    PrintableItems items → ∀ b ∈ blocksOfSeries path items, b.Printable
  | [], _ => fun b hb => by cases hb
  | .table entries :: rest, h => by
    intro b hb
    rcases List.mem_cons.mp hb with rfl | hb
    · exact ⟨fun _ => hne, h.1.2⟩
    · rcases List.mem_append.mp hb with hb | hb
      · exact printable_blocksBelow path entries h.1.2 b hb
      · exact printable_blocksOfSeries path hne rest h.2 b hb
  | .string _ :: rest, h => printable_blocksOfSeries path hne rest h.2
  | .integer _ :: rest, h => printable_blocksOfSeries path hne rest h.2
  | .float _ :: rest, h => printable_blocksOfSeries path hne rest h.2
  | .boolean _ :: rest, h => printable_blocksOfSeries path hne rest h.2
  | .dateTime _ :: rest, h => printable_blocksOfSeries path hne rest h.2
  | .array _ :: rest, h => printable_blocksOfSeries path hne rest h.2

end

theorem printable_blocks (root : List (String × Toml)) (h : PrintableEntries root) :
    ∀ b ∈ blocks root, b.Printable := by
  intro b hb
  rcases List.mem_append.mp hb with hb | hb
  · split at hb
    · cases hb
    · rw [List.mem_singleton.mp hb]
      exact ⟨fun hne => absurd rfl hne, h⟩
  · exact printable_blocksBelow [] root h b hb

theorem readOn_separate (hkey : d.keyParts.all (1 ≤ ·) = true) (bs : List Block)
    (h : ∀ b ∈ bs, b.Printable) :
    readOn d .lineStart (separate (bs.map Block.text)) =
      (statementsOf? d bs).map fun out => (.lineStart, out) := by
  induction bs with
  | nil => rfl
  | cons b bs ih =>
    have hb := h b List.mem_cons_self
    have ih := ih fun x hx => h x (List.mem_cons_of_mem b hx)
    rw [statementsOf?]
    cases bs with
    | nil =>
      have hlast := readOn_block hkey b hb []
      rw [List.append_nil] at hlast
      change readOn d .lineStart b.text = _
      rw [hlast]
      rcases b.statements? d with _ | out
      · rfl
      · rfl
    | cons next bs =>
      change readOn d .lineStart (b.text ++ '\n' :: separate ((next :: bs).map Block.text)) = _
      rw [readOn_block hkey b hb]
      rcases b.statements? d with _ | out
      · rfl
      · rw [Option.bind_some, Option.bind_some]
        simp only [onward]
        rw [readOn_emptyLine, ih]
        rcases statementsOf? d (next :: bs) with _ | more
        · rfl
        · rfl

theorem head?_keyText (key : String) (text : List Char) :
    (keyText key ++ text).head? ≠ some '\ufeff' := by
  unfold keyText
  dsimp only
  split
  · rename_i h
    simp only [isBareKey, Bool.and_eq_true, Bool.not_eq_true', List.all_eq_true] at h
    obtain ⟨x, rest, hkey⟩ := List.exists_cons_of_ne_nil (List.isEmpty_eq_false_iff.mp h.1)
    have hx := h.2 x (by rw [hkey]; exact List.mem_cons_self)
    rw [hkey]
    intro heq
    cases heq
    exact absurd hx (by decide)
  · split
    · intro heq
      cases heq
    · split
      · intro heq
        cases heq
      · intro heq
        cases heq

theorem Block.head?_text (b : Block) : b.text.head? ≠ some '\ufeff' := by
  obtain ⟨heading, path, entries⟩ := b
  have hplain : (plainLines entries).head? ≠ some '\ufeff' := by
    induction entries with
    | nil => intro heq; cases heq
    | cons e entries ih =>
      obtain ⟨key, v⟩ := e
      simp only [plainLines]
      split
      · rw [List.append_assoc, List.append_assoc]
        exact head?_keyText key _
      · exact ih
  cases heading with
  | top => exact hplain
  | header => intro heq; cases heq
  | element => intro heq; cases heq

theorem head?_separate (texts : List (List Char)) (h : ∀ t ∈ texts, t.head? ≠ some '\ufeff') :
    (separate texts).head? ≠ some '\ufeff' := by
  cases texts with
  | nil => intro heq; cases heq
  | cons t texts =>
    have ht := h t List.mem_cons_self
    cases texts with
    | nil => exact ht
    | cons next texts =>
      change (t ++ '\n' :: _).head? ≠ _
      cases t with
      | nil => intro heq; cases heq
      | cons x t => exact ht

theorem skipByteOrderMark_eq (text : List Char) (h : text.head? ≠ some '\ufeff') :
    skipByteOrderMark text = text := by
  simp only [skipByteOrderMark]
  split
  · exact absurd rfl h
  · rfl

/-- The end of a text that ends a line already adds nothing. -/
theorem placeRun_newline (place : Place) (ts : List Token) (out : List Statement)
    (h : placeRun d place ts = some (.lineStart, out)) :
    placeRun d place (ts ++ [.newline]) = some (.lineStart, out) := by
  induction ts generalizing place out with
  | nil =>
    cases h
    rfl
  | cons token ts ih =>
    rw [placeRun] at h
    obtain ⟨⟨next, before⟩, hstep, h⟩ := Option.bind_eq_some_iff.mp h
    obtain ⟨⟨last, more⟩, hrun, h⟩ := Option.bind_eq_some_iff.mp h
    cases h
    rw [List.cons_append, placeRun, hstep]
    change (placeRun d next (ts ++ [.newline])).bind _ = _
    rw [ih next more hrun]
    rfl

theorem placeRun_newline_none (place : Place) (ts : List Token) (h : placeRun d place ts = none) :
    placeRun d place (ts ++ [.newline]) = none := by
  induction ts generalizing place with
  | nil => cases h
  | cons token ts ih =>
    rw [placeRun] at h
    rw [List.cons_append, placeRun]
    rcases hstep : placeStep d place token with _ | ⟨next, before⟩
    · rfl
    · rw [hstep] at h
      change (placeRun d next ts).bind _ = none at h
      change (placeRun d next (ts ++ [.newline])).bind _ = none
      rcases hrun : placeRun d next ts with _ | r
      · rw [ih next hrun]
        rfl
      · rw [hrun] at h
        cases h

/-- A printed document is read as the statements of its blocks. -/
theorem parse?_print (hkey : d.keyParts.all (1 ≤ ·) = true) (root : List (String × Toml))
    (h : PrintableEntries root) :
    parse? d (print root) = (statementsOf? d (blocks root)).bind (build? d) := by
  have hrun := readOn_separate hkey (blocks root) (printable_blocks root h)
  have hbom := skipByteOrderMark_eq (separate ((blocks root).map Block.text)) (head?_separate _ (by
    intro t ht
    obtain ⟨b, -, rfl⟩ := List.mem_map.mp ht
    exact b.head?_text))
  simp only [parse?, tokens]
  rw [print_eq, hbom]
  simp only [readOn, readIn] at hrun
  rcases hlex : lex d .idle (separate ((blocks root).map Block.text)) with _ | ts
  · rw [hlex] at hrun
    rcases hout : statementsOf? d (blocks root) with _ | out
    · rfl
    · rw [hout] at hrun
      cases hrun
  · rw [hlex] at hrun
    change placeRun d .lineStart ts = _ at hrun
    change (statements? d ts).bind (build? d) = _
    simp only [statements?]
    rcases hout : statementsOf? d (blocks root) with _ | out
    · rw [hout] at hrun
      rw [placeRun_newline_none _ _ hrun]
      rfl
    · rw [hout] at hrun
      rw [placeRun_newline _ _ out hrun]
      rfl

end LayeredConfig.Toml
