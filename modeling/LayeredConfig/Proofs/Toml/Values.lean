import LayeredConfig.Proofs.Toml.Reading

/-!
# Printed values read back

Reading a printed value from a place where a value is due ends at the place after that value,
with the value that `inlineBack` says. The induction is over the value; a container hands the
reader on from one item to the next with the items that it has so far.
-/

set_option autoImplicit false

namespace LayeredConfig.Toml

open Table (keys Sorted)

variable {d : Dialect} {c : Char} {s rest : List Char} {root : List String} {frames : List Frame}

theorem readIn_scalar (root : List String) (frames : List Frame) (rest acc : List Char)
    (h : ∀ x ∈ s, isAtom x = true ∨ x = '.') (hc : isEnd c = true) :
    readOn d (.scalar root frames acc) (s ++ c :: rest) =
        readOn d (.scalar root frames (acc ++ s)) (c :: rest) ∧
      ∀ text place, (∀ more, placeStep d place (.atom more) =
          move (.scalar root frames (acc ++ more))) →
        readIn d (.atom text) place (s ++ c :: rest) =
          readOn d (.scalar root frames (acc ++ text.reverse ++ s)) (c :: rest) := by
  induction s generalizing acc with
  | nil =>
    refine ⟨by rw [List.append_nil]; rfl, fun text place hp => ?_⟩
    have hemit : step d (.atom text) c = emit (.atom text.reverse) c := by
      change (if isAtom c then _ else _) = _
      rw [if_neg (by rw [isAtom_of_isStop (isStop_of_isEnd hc)]; exact Bool.false_ne_true)]
    rw [List.nil_append, readIn_token (lex_emit hemit), hp, List.append_nil]
    exact onward_move _
  | cons x s ih =>
    have hrest : ∀ y ∈ s, isAtom y = true ∨ y = '.' := fun y hy => h y (List.mem_cons_of_mem x hy)
    -- a point is a token of its own, from whatever place it comes
    have hpoint : ∀ before, readOn d (.scalar root frames before) ('.' :: s ++ c :: rest) =
        readOn d (.scalar root frames (before ++ '.' :: s)) (c :: rest) := by
      intro before
      rw [List.cons_append, readOn_move (lex_token step_dot)
        (show placeStep d (.scalar root frames before) .dot =
          move (.scalar root frames (before ++ ['.'])) from rfl),
        (ih (before ++ ['.']) hrest).1, List.append_assoc, List.singleton_append]
    rcases h x List.mem_cons_self with hx | rfl
    · constructor
      · have := (ih acc hrest).2 [x] (.scalar root frames acc) fun more => rfl
        rw [List.cons_append]
        simp only [readOn, readIn] at this ⊢
        rw [lex_quiet (step_atom hx), this, List.append_assoc]
        rfl
      · intro text place hp
        have hstep : step d (.atom text) x = some (.atom (x :: text), []) := by
          change (if isAtom x then _ else _) = _
          rw [if_pos hx]
        have := (ih acc hrest).2 (x :: text) place hp
        rw [List.cons_append]
        simp only [readIn] at this ⊢
        rw [lex_quiet hstep, this, List.reverse_cons]
        simp only [List.append_assoc, List.singleton_append]
    · refine ⟨hpoint acc, fun text place hp => ?_⟩
      have hemit : step d (.atom text) '.' = emit (.atom text.reverse) '.' := rfl
      rw [List.cons_append, readIn_token (lex_emit hemit), hp]
      change onward d (_, []) ('.' :: s ++ c :: rest) = _
      rw [onward_move, hpoint]

theorem isAtom_of_isDigit {x : Char} (h : x.isDigit = true) : isAtom x = true := by
  simp only [isAtom, isBare, Char.isAlphanum]
  rw [h]
  simp

/-- A text of atoms and points that begins with an atom. -/
theorem readOn_scalar (root : List String) (frames : List Frame) (rest : List Char) {x : Char}
    (hx : isAtom x = true) (h : ∀ y ∈ s, isAtom y = true ∨ y = '.')
    (hdate : isDate (x :: s) = false) (hc : isEnd c = true) :
    readOn d (.value root frames) (x :: s ++ c :: rest) =
      (scalar? d (x :: s)).bind fun v => onward d (accept root v frames) (c :: rest) := by
  have hrun := (readIn_scalar (d := d) root frames rest [] h hc).2 [x] (.value root frames)
    fun more => rfl
  rw [← readOn_scalarEnd root frames (x :: s) hdate hc, List.cons_append]
  simp only [readOn, readIn] at hrun ⊢
  rw [lex_quiet (step_atom hx)]
  exact hrun

theorem readOn_word (root : List String) (frames : List Frame) (rest : List Char) {x : Char}
    (hs : (x :: s).all isAtom = true) (hdate : isDate (x :: s) = false) (hc : isEnd c = true) :
    readOn d (.value root frames) (x :: s ++ c :: rest) =
      (scalar? d (x :: s)).bind fun v => onward d (accept root v frames) (c :: rest) := by
  rw [List.all_cons, Bool.and_eq_true, List.all_eq_true] at hs
  exact readOn_scalar root frames rest hs.1 (fun y hy => .inl (hs.2 y hy)) hdate hc

theorem IsNumeric.readOn (root : List String) (frames : List Frame) (rest : List Char)
    (h : IsNumeric s) (hc : isEnd c = true) :
    readOn d (.value root frames) (s ++ c :: rest) =
      (scalar? d s).bind fun v => onward d (accept root v frames) (c :: rest) := by
  have hdate := h.isDate_eq_false
  obtain ⟨x, s, rfl, hx, hrest⟩ := h
  apply readOn_scalar root frames rest _ _ hdate hc
  · rcases hx with hx | rfl
    · exact isAtom_of_isDigit hx
    · rfl
  · intro y hy
    rcases hrest y hy with hy | rfl
    · exact .inl (isAtom_of_isDigit hy)
    · exact .inr rfl

theorem readOn_string (root : List String) (frames : List Frame) (rest text : List Char)
    (hc : isEnd c = true) :
    readOn d (.value root frames) (stringText text ++ c :: rest) =
      onward d (accept root (.string (String.ofList text)) frames) (c :: rest) := by
  obtain ⟨token, htext, hlex⟩ := lex_stringText (d := d) text
  have hp : placeStep d (.value root frames) token =
      some (accept root (.string (String.ofList text)) frames) := by
    cases htext with
    | quoted => rfl
    | block => rfl
  change readIn d .idle _ _ = _
  rw [readIn_token (hlex c rest (isStop_of_isEnd hc)), hp]
  rfl

/-- Each part of a key must be within the bound. -/
theorem keyStep_part (use : KeyUse) (parts : List String) (key : String) :
    keyStep d use parts (keyToken key) =
      if d.keyParts.all (parts.length + 1 ≤ ·) then move (.keyEnd use (key :: parts))
      else none := by
  have hadd : addPart d use parts key.toList =
      if d.keyParts.all (parts.length + 1 ≤ ·) then move (.keyEnd use (key :: parts))
      else none := by
    simp only [addPart]
    rw [String.ofList_toList]
  simp only [keyToken]
  split
  · rename_i h
    change (if key.toList.all isBare then _ else _) = _
    have hbare : key.toList.all isBare = true := by
      simp only [isBareKey, Bool.and_eq_true] at h
      exact h.2
    rw [if_pos hbare, hadd]
  · exact hadd

theorem keyStep_keyToken (hkey : d.keyParts.all (1 ≤ ·) = true) (use : KeyUse) (key : String) :
    keyStep d use [] (keyToken key) = move (.keyEnd use [key]) := by
  rw [keyStep_part]
  exact if_pos hkey

theorem readOn_pairKey (hkey : d.keyParts.all (1 ≤ ·) = true) (pairs : List (List String × Toml))
    (key : String) :
    readOn d (.pairStart root pairs frames) (keyText key ++ ' ' :: '=' :: ' ' :: s) =
      readOn d (.value root (.table pairs [key] :: frames)) s := by
  have hp : placeStep d (.pairStart root pairs frames) (keyToken key) =
      move (.keyEnd (.inline pairs root frames) [key]) := by
    rw [← keyStep_keyToken hkey]
    simp only [keyToken]
    split
    · rfl
    · rfl
  rw [readOn_move (lex_keyText key (by decide)) hp, readOn_space fun text => rfl,
    readOn_move (lex_token step_equals)
      (show placeStep d (.keyEnd (.inline pairs root frames) [key]) .equals =
        move (.value root (.table pairs [key] :: frames)) from rfl),
    readOn_space fun text => rfl]

theorem readOn_token {place : Place} {x : Char} {token : Token}
    (h : step d .idle x = some (.idle, [token])) :
    readOn d place (x :: s) = (placeStep d place token).bind fun m => onward d m s :=
  readIn_token (lex_token h)

/-- A container opens where there is room for one more. -/
theorem readOn_open {x : Char} {token : Token} {inside : Place}
    (h : step d .idle x = some (.idle, [token]))
    (hp : placeStep d (.value root frames) token =
      if frames.length + 1 ≤ d.openContainers then move inside else none) :
    readOn d (.value root frames) (x :: s) =
      if d.openContainers - frames.length = 0 then none else readOn d inside s := by
  rw [readOn_token h, hp]
  by_cases hroom : d.openContainers - frames.length = 0
  · rw [if_neg (by omega), if_pos hroom]
    rfl
  · rw [if_pos (by omega), if_neg hroom]
    exact onward_move s

theorem readOn_openBracket :
    readOn d (.value root frames) ('[' :: s) =
      if d.openContainers - frames.length = 0 then none
      else readOn d (.value root (.array [] :: frames)) s :=
  readOn_open step_openBracket rfl

theorem readOn_openBrace :
    readOn d (.value root frames) ('\x7b' :: s) =
      if d.openContainers - frames.length = 0 then none
      else readOn d (.pairStart root [] frames) s :=
  readOn_open step_openBrace rfl

theorem readOn_closeArray (items : List Toml) :
    readOn d (.value root (.array items :: frames)) (']' :: s) =
      onward d (accept root (.array items.reverse) frames) s :=
  readOn_token step_closeBracket

theorem readOn_itemsEnd (items : List Toml) :
    readOn d (.itemEnd root items frames) (']' :: s) =
      onward d (accept root (.array items.reverse) frames) s :=
  readOn_token step_closeBracket

theorem readOn_nextItem (items : List Toml) :
    readOn d (.itemEnd root items frames) (',' :: s) =
      readOn d (.value root (.array items :: frames)) s :=
  readOn_move (lex_token step_comma) rfl

theorem readOn_itemLine (items : List Toml) :
    readOn d (.value root (.array items :: frames)) ('\n' :: s) =
      readOn d (.value root (.array items :: frames)) s :=
  readOn_move (lex_token step_newline) rfl

theorem readOn_nextPair (pairs : List (List String × Toml)) :
    readOn d (.pairEnd root pairs frames) (',' :: ' ' :: s) =
      readOn d (.pairStart root pairs frames) s := by
  rw [readOn_move (lex_token step_comma)
    (show placeStep d (.pairEnd root pairs frames) .comma = move (.pairStart root pairs frames)
      from rfl)]
  exact readOn_space fun text => rfl

theorem readOn_pairsEnd (pairs : List (List String × Toml)) :
    readOn d (.pairEnd root pairs frames) (' ' :: '\x7d' :: s) =
      (Outline.inlineTable? d pairs.reverse).bind fun t => onward d (accept root t frames) s := by
  rw [readOn_space fun text => rfl, readOn_token step_closeBrace]
  change ((Outline.inlineTable? d pairs.reverse).bind _).bind _ = _
  rcases Outline.inlineTable? d pairs.reverse with _ | t
  · rfl
  · rfl

theorem readOn_emptyTable :
    readOn d (.pairStart root [] frames) ('\x7d' :: s) =
      (Outline.inlineTable? d []).bind fun t => onward d (accept root t frames) s := by
  rw [readOn_token step_closeBrace]
  change ((Outline.inlineTable? d []).bind _).bind _ = _
  rcases Outline.inlineTable? d [] with _ | t
  · rfl
  · rfl

mutual

theorem readOn_value (hkey : d.keyParts.all (1 ≤ ·) = true) : ∀ v : Toml, Printable v →
    ∀ (root : List String) (frames : List Frame) (c : Char) (rest : List Char), isEnd c = true →
      readOn d (.value root frames) (valueText v ++ c :: rest) =
        (inlineBack d (d.openContainers - frames.length) v).bind fun v =>
          onward d (accept root v frames) (c :: rest)
  | .string t, _, root, frames, c, rest, hc => by
    have h := readOn_string (d := d) root frames rest t.toList hc
    rw [String.ofList_toList] at h
    exact h
  | .integer n, hv, root, frames, c, rest, hc => by
    have h := (isNumeric_intText n).readOn (d := d) root frames rest hc
    rw [scalar?_intText d n hv] at h
    exact h
  | .float x, hv, root, frames, c, rest, hc => by
    have h := (isNumeric_positional x hv).readOn (d := d) root frames rest hc
    rw [scalar?_positional d x hv] at h
    change readOn d _ (floatText x ++ c :: rest) = _
    simp only [floatText]
    rw [if_pos (show x.isFinite = true from hv)]
    exact h
  | .boolean true, _, root, frames, c, rest, hc =>
    readOn_word (d := d) (x := 't') (s := ['r', 'u', 'e']) root frames rest (by decide)
      (by decide) hc
  | .boolean false, _, root, frames, c, rest, hc =>
    readOn_word (d := d) (x := 'f') (s := ['a', 'l', 's', 'e']) root frames rest (by decide)
      (by decide) hc
  | .array [], _, root, frames, c, rest, hc => by
    change readOn d _ ('[' :: ']' :: c :: rest) = _
    rw [readOn_openBracket, readOn_closeArray, inlineBack]
    split
    · rfl
    · rfl
  | .array [v], hv, root, frames, c, rest, hc => by
    -- one item stays on the line of its brackets, where the bracket ends it
    have ih := readOn_value hkey v hv.1 root (.array [] :: frames) ']' (c :: rest) (by decide)
    have htext :
        valueText (.array [v]) ++ c :: rest = '[' :: (valueText v ++ ']' :: c :: rest) := by
      simp [valueText]
    rw [htext, readOn_openBracket, ih, inlineBack]
    split
    · rfl
    · rw [List.length_cons, ← Nat.sub_sub]
      simp only [itemsBack, itemsBack]
      rcases inlineBack d (d.openContainers - frames.length - 1) v with _ | w
      · rfl
      · exact (onward_move _).trans (readOn_itemsEnd [w])
  | .array (v :: w :: items), hv, root, frames, c, rest, hc => by
    have ih := readOn_items hkey (v :: w :: items) hv root [] frames (c :: rest)
    have htext : valueText (.array (v :: w :: items)) ++ c :: rest =
        '[' :: (itemsText (v :: w :: items) ++ '\n' :: ']' :: c :: rest) := by
      simp [valueText]
    rw [htext, readOn_openBracket, ih, inlineBack]
    split
    · rfl
    · rw [← Nat.sub_sub]
      rcases itemsBack d (d.openContainers - frames.length - 1) (v :: w :: items) with _ | vs
      · rfl
      · rfl
  | .table [], _, root, frames, c, rest, hc => by
    change readOn d _ ('\x7b' :: '\x7d' :: c :: rest) = _
    rw [readOn_openBrace, readOn_emptyTable, inlineBack]
    split
    · rfl
    · have hempty := Outline.inlineTable?_eq d [] List.nodup_nil
      rw [List.map_nil] at hempty
      rw [hempty]
      rfl
  | .table (e :: entries), hv, root, frames, c, rest, hc => by
    have ih := readOn_pairs hkey (e :: entries) hv.2 (List.cons_ne_nil _ _) root [] frames
      (c :: rest)
    have htext : valueText (.table (e :: entries)) ++ c :: rest =
        '\x7b' :: ' ' :: (pairsText (e :: entries) ++ ' ' :: '\x7d' :: c :: rest) := by
      simp [valueText]
    rw [htext, readOn_openBrace, readOn_space fun text => rfl, ih, inlineBack]
    split
    · rfl
    · rw [← Nat.sub_sub]
      rcases hback : pairsBack d (d.openContainers - frames.length - 1) (e :: entries) with _ | back
      · rfl
      · -- no key comes twice, so the pairs define a table
        have hnodup : (keys back).Nodup := by
          rw [keys_pairsBack _ _ _ _ hback]
          exact hv.1.nodup
        change (Outline.inlineTable? d (back.map fun (key, v) => ([key], v))).bind _ = _
        rw [Outline.inlineTable?_eq d back hnodup]
        rfl

theorem readOn_items (hkey : d.keyParts.all (1 ≤ ·) = true) : ∀ items : List Toml,
    PrintableItems items → ∀ (root : List String) (acc : List Toml) (frames : List Frame)
      (rest : List Char),
      readOn d (.value root (.array acc :: frames)) (itemsText items ++ '\n' :: ']' :: rest) =
        (itemsBack d (d.openContainers - (frames.length + 1)) items).bind fun vs =>
          onward d (accept root (.array (acc.reverse ++ vs)) frames) rest
  | [], _, root, acc, frames, rest => by
    rw [show itemsText [] = [] from rfl, List.nil_append, readOn_itemLine, readOn_closeArray]
    simp only [itemsBack]
    rw [Option.bind_some, List.append_nil]
  | v :: items, hv, root, acc, frames, rest => by
    have ih := readOn_value hkey v hv.1 root (.array acc :: frames) ','
      (itemsText items ++ '\n' :: ']' :: rest) (by decide)
    have htext : itemsText (v :: items) ++ '\n' :: ']' :: rest =
        '\n' :: ' ' :: ' ' :: ' ' :: ' ' :: (valueText v ++ ',' ::
          (itemsText items ++ '\n' :: ']' :: rest)) := by
      simp [itemsText, itemIndent]
    rw [htext, readOn_itemLine, readOn_space fun text => rfl, readOn_space fun text => rfl,
      readOn_space fun text => rfl, readOn_space fun text => rfl, ih, List.length_cons, itemsBack]
    rcases inlineBack d (d.openContainers - (frames.length + 1)) v with _ | w
    · rfl
    · change onward d (.itemEnd root (w :: acc) frames, []) _ = _
      rw [onward_move, readOn_nextItem, readOn_items hkey items hv.2 root (w :: acc) frames rest,
        Option.bind_some, List.reverse_cons]
      rcases itemsBack d (d.openContainers - (frames.length + 1)) items with _ | vs
      · rfl
      · change onward d (accept root (.array (acc.reverse ++ [w] ++ vs)) frames) rest = _
        rw [List.append_assoc]
        rfl

theorem readOn_pairs (hkey : d.keyParts.all (1 ≤ ·) = true) : ∀ entries : List (String × Toml),
    PrintableEntries entries → entries ≠ [] → ∀ (root : List String)
      (acc : List (List String × Toml)) (frames : List Frame) (rest : List Char),
      readOn d (.pairStart root acc frames) (pairsText entries ++ ' ' :: '\x7d' :: rest) =
        (pairsBack d (d.openContainers - (frames.length + 1)) entries).bind fun back =>
          (Outline.inlineTable? d (acc.reverse ++
            back.map fun (key, v) => ([key], v))).bind fun t =>
              onward d (accept root t frames) rest
  | [], _, hne, _, _, _, _ => absurd rfl hne
  | [(key, v)], hv, _, root, acc, frames, rest => by
    have ih := readOn_value hkey v hv.1 root (.table acc [key] :: frames) ' ' ('\x7d' :: rest)
      (by decide)
    have htext : pairsText [(key, v)] ++ ' ' :: '\x7d' :: rest =
        keyText key ++ ' ' :: '=' :: ' ' :: (valueText v ++ ' ' :: '\x7d' :: rest) := by
      simp [pairsText]
    rw [htext, readOn_pairKey hkey, ih, List.length_cons]
    simp only [pairsBack, pairsBack]
    rcases inlineBack d (d.openContainers - (frames.length + 1)) v with _ | w
    · rfl
    · change onward d (.pairEnd root (([key], w) :: acc) frames, []) _ = _
      rw [onward_move, readOn_pairsEnd, List.reverse_cons]
      rfl
  | (key, v) :: e :: entries, hv, _, root, acc, frames, rest => by
    have ih := readOn_value hkey v hv.1 root (.table acc [key] :: frames) ','
      (' ' :: (pairsText (e :: entries) ++ ' ' :: '\x7d' :: rest)) (by decide)
    have htext : pairsText ((key, v) :: e :: entries) ++ ' ' :: '\x7d' :: rest =
        keyText key ++ ' ' :: '=' :: ' ' :: (valueText v ++ ',' :: ' ' ::
          (pairsText (e :: entries) ++ ' ' :: '\x7d' :: rest)) := by
      simp [pairsText]
    rw [htext, readOn_pairKey hkey, ih, List.length_cons, pairsBack]
    rcases inlineBack d (d.openContainers - (frames.length + 1)) v with _ | w
    · rfl
    · change onward d (.pairEnd root (([key], w) :: acc) frames, []) _ = _
      rw [onward_move, readOn_nextPair, readOn_pairs hkey (e :: entries) hv.2 (List.cons_ne_nil _ _)
        root (([key], w) :: acc) frames rest, Option.bind_some, List.reverse_cons]
      rcases pairsBack d (d.openContainers - (frames.length + 1)) (e :: entries) with _ | back
      · rfl
      · change (Outline.inlineTable? d (acc.reverse ++ [([key], w)] ++ _)).bind _ = _
        rw [List.append_assoc]
        rfl

end

end LayeredConfig.Toml
