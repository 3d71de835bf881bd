import Mathlib.Tactic.IntervalCases
import LayeredConfig.Toml.Lexer
import LayeredConfig.Toml.Printer

/-!
# Printed strings and keys read back

Each written form of a string or a key is read by the lexer as one token that holds the
text, whatever follows, as long as that does not go on with the token itself.
-/

set_option autoImplicit false

namespace LayeredConfig.Toml

variable {d : Dialect} {mode next : Mode} {c : Char} {s : List Char}

def isStop (c : Char) : Bool := !isAtom c && c != '"' && c != '\''

theorem ne_char_of_isStop (h : isStop c = true) (q : Quote) : c ≠ q.char := by
  simp only [isStop, Bool.and_eq_true, bne_iff_ne] at h
  cases q with
  | basic => exact h.1.2
  | literal => exact h.2

theorem isAtom_of_isStop (h : isStop c = true) : isAtom c = false := by
  simp only [isStop, Bool.and_eq_true, Bool.not_eq_true'] at h
  exact h.1.1

theorem step_newline : step d .idle '\n' = some (.idle, [.newline]) := rfl

theorem step_dot : step d .idle '.' = some (.idle, [.dot]) := rfl

theorem step_equals : step d .idle '=' = some (.idle, [.equals]) := rfl

theorem step_comma : step d .idle ',' = some (.idle, [.comma]) := rfl

theorem step_openBracket : step d .idle '[' = some (.idle, [.openBracket]) := rfl

theorem step_closeBracket : step d .idle ']' = some (.idle, [.closeBracket]) := rfl

theorem step_openBrace : step d .idle '\x7b' = some (.idle, [.openBrace]) := rfl

theorem step_closeBrace : step d .idle '\x7d' = some (.idle, [.closeBrace]) := rfl

theorem lex_quiet (h : step d mode c = some (next, [])) : lex d mode (c :: s) = lex d next s := by
  rw [lex, h]
  simp only [Option.bind_eq_bind, Option.bind_some, List.nil_append]
  rcases lex d next s with _ | rest
  · rfl
  · rfl

theorem lex_token {token : Token} (h : step d mode c = some (next, [token])) :
    lex d mode (c :: s) = (lex d next s).map (token :: ·) := by
  rw [lex, h]
  simp only [Option.bind_eq_bind, Option.bind_some]
  rcases lex d next s with _ | rest
  · rfl
  · rfl

theorem lex_emit {token : Token} (h : step d mode c = emit token c) :
    lex d mode (c :: s) = (lex d .idle (c :: s)).map (token :: ·) := by
  rw [lex, h, lex]
  simp only [emit]
  change ((idleStep c).map _).bind _ = (Option.bind (idleStep c) _).map _
  rcases idleStep c with _ | ⟨next, out⟩
  · rfl
  · change Option.bind (lex d next s) _ = (Option.bind (lex d next s) _).map _
    rcases lex d next s with _ | rest
    · rfl
    · rfl

theorem hexValue?_upperHex (n : Nat) (h : n < 16) : hexValue? (upperHex n) = some n := by
  interval_cases n <;> rfl

theorem step_backslash (inBlock : Bool) (text : List Char) :
    step d (resume inBlock text) '\\' = some (.escape inBlock text, []) := by
  cases inBlock with
  | false => rfl
  | true => rfl

/-- A character for which no rule of strings stands. -/
theorem step_resume (inBlock : Bool) (text : List Char) (hq : c ≠ '"') (hs : c ≠ '\\')
    (hc : isControl c = false) :
    step d (resume inBlock text) c = some (resume inBlock (c :: text), []) := by
  have hn : c ≠ '\n' := by
    rintro rfl
    exact absurd hc (by decide)
  have hr : c ≠ '\r' := by
    rintro rfl
    exact absurd hc (by decide)
  cases inBlock with
  | false =>
    change lineStep .basic text c = _
    simp only [lineStep, Quote.char]
    rw [if_neg hq, if_neg (fun h => hs h.1), if_neg (by rw [hc]; exact Bool.false_ne_true)]
    rfl
  | true =>
    change blockStep .basic text c = _
    simp only [blockStep, Quote.char]
    rw [if_neg hq, if_neg (fun h => hs h.1), if_neg hn, if_neg hr,
      if_neg (by rw [hc]; exact Bool.false_ne_true)]
    rfl

theorem step_letter (inBlock : Bool) (text : List Char) {e : Char} (h : escaped? d c = some e) :
    step d (.escape inBlock text) c = some (resume inBlock (e :: text), []) := by
  change escapeStep d inBlock text c = _
  simp only [escapeStep]
  rw [h]

theorem lex_letter (inBlock : Bool) (text : List Char) {e : Char} (h : escaped? d c = some e) :
    lex d (resume inBlock text) ('\\' :: c :: s) = lex d (resume inBlock (e :: text)) s := by
  rw [lex_quiet (step_backslash inBlock text), lex_quiet (step_letter inBlock text h)]

theorem step_hex (inBlock : Bool) (text : List Char) (left value n : Nat) (hn : n < 16)
    (hleft : 1 < left) :
    step d (.hex inBlock text left value) (upperHex n) =
      some (.hex inBlock text (left - 1) (16 * value + n), []) := by
  change hexStep inBlock text left value (upperHex n) = _
  simp only [hexStep]
  rw [hexValue?_upperHex n hn]
  simp only [Option.bind_eq_bind, Option.bind_some]
  rw [if_pos hleft]

theorem lex_hex (inBlock : Bool) (text : List Char) (h : c.toNat < 256) :
    lex d (resume inBlock text)
        ('\\' :: 'u' :: '0' :: '0' :: upperHex (c.toNat / 16) :: upperHex (c.toNat % 16) :: s) =
      lex d (resume inBlock (c :: text)) s := by
  have hvalue : 16 * (16 * (16 * (16 * 0 + 0) + 0) + c.toNat / 16) + c.toNat % 16 = c.toNat := by
    omega
  have hlast : step d (.hex inBlock text 1 (16 * (16 * (16 * 0 + 0) + 0) + c.toNat / 16))
      (upperHex (c.toNat % 16)) = some (resume inBlock (c :: text), []) := by
    change hexStep _ _ _ _ _ = _
    simp only [hexStep]
    rw [hexValue?_upperHex _ (by omega)]
    simp only [Option.bind_eq_bind, Option.bind_some]
    rw [if_neg (by omega), hvalue, if_pos (show c.toNat.isValidChar from c.valid),
      Char.ofNat_toNat]
  rw [lex_quiet (step_backslash inBlock text),
    lex_quiet (show step d (.escape inBlock text) 'u' = some (.hex inBlock text 4 0, []) from rfl),
    lex_quiet (show step d (.hex inBlock text 4 0) '0' = some (.hex inBlock text 3 (16 * 0 + 0), [])
      from step_hex inBlock text 4 0 0 (by omega) (by omega)),
    lex_quiet (show step d (.hex inBlock text 3 (16 * 0 + 0)) '0' =
      some (.hex inBlock text 2 (16 * (16 * 0 + 0) + 0), [])
      from step_hex inBlock text 3 _ 0 (by omega) (by omega)),
    lex_quiet (step_hex inBlock text 2 _ (c.toNat / 16) (by omega) (by omega)), lex_quiet hlast]

/-- A character inside a string, in the form that is printed for it. -/
theorem lex_escapeOf (inBlock : Bool) (text : List Char) (x : Char) :
    lex d (resume inBlock text) (escapeOf x ++ s) = lex d (resume inBlock (x :: text)) s := by
  simp only [escapeOf]
  split_ifs with h1 h2 h3 h4 h5 h6 h7 h8
  · subst h1
    exact lex_letter inBlock text rfl
  · subst h2
    exact lex_letter inBlock text rfl
  · subst h3
    exact lex_letter inBlock text rfl
  · subst h4
    exact lex_letter inBlock text rfl
  · subst h5
    exact lex_letter inBlock text rfl
  · subst h6
    exact lex_letter inBlock text rfl
  · subst h7
    exact lex_letter inBlock text rfl
  · exact lex_hex inBlock text (by omega)
  · apply lex_quiet
    apply step_resume inBlock text h6 h7
    simp only [isControl]
    simp only [Bool.or_eq_false_iff, Bool.and_eq_false_iff, decide_eq_false_iff_not]
    exact ⟨.inl fun h => h8 (.inl h), fun h => h8 (.inr h)⟩

theorem escapeOf_ne_nil (x : Char) :
    ∃ a tail, escapeOf x = a :: tail ∧ a ≠ '"' ∧ a ≠ '\n' ∧ a ≠ '\r' := by
  simp only [escapeOf]
  split_ifs with h1 h2 h3 h4 h5 h6 h7 h8
  all_goals first
    | exact ⟨_, _, rfl, by decide, by decide, by decide⟩
    | exact ⟨x, [], rfl, h6, h3, h5⟩

theorem lex_escaped (text : List Char) (s : List Char) (tail : List Char) :
    lex d (.line .basic text) (s.flatMap escapeOf ++ tail) =
      lex d (.line .basic (s.reverse ++ text)) tail := by
  induction s generalizing text with
  | nil => rfl
  | cons x s ih =>
    rw [List.flatMap_cons, List.append_assoc]
    change lex d (resume false text) _ = _
    rw [lex_escapeOf, List.reverse_cons, List.append_assoc]
    exact ih (x :: text)

theorem step_opening (q : Quote) (hc : c ≠ q.char) :
    step d (.opening q 1) c = step d (.line q []) c := by
  change (if c = q.char then _ else if 1 = 1 then lineStep q [] c else _) = lineStep q [] c
  rw [if_neg hc, if_pos rfl]

theorem lex_opening (q : Quote) (hc : c ≠ q.char) :
    lex d (.opening q 1) (c :: s) = lex d (.line q []) (c :: s) := by
  rw [lex, step_opening q hc, lex]

theorem lex_emptyLine (q : Quote) (hc : c ≠ q.char) :
    lex d (.opening q 1) (q.char :: c :: s) = (lex d .idle (c :: s)).map (.quoted [] :: ·) := by
  have hopen : step d (.opening q 1) q.char = some (.opening q 2, []) := by
    change (if q.char = q.char then if 1 = 1 then some (Mode.opening q 2, []) else _ else _) = _
    rw [if_pos rfl, if_pos rfl]
  rw [lex_quiet hopen]
  apply lex_emit
  change (if c = q.char then _ else if 2 = 1 then _ else emit (.quoted []) c) = _
  rw [if_neg hc, if_neg (by decide)]

theorem step_lineEnd (q : Quote) (text : List Char) :
    step d (.line q text) q.char = some (.idle, [.quoted text.reverse]) := by
  change (if q.char = q.char then _ else _) = _
  rw [if_pos rfl]

theorem lex_basicLine (hc : isStop c = true) (text : List Char) :
    lex d .idle (basicLine text ++ c :: s) = (lex d .idle (c :: s)).map (.quoted text :: ·) := by
  simp only [basicLine]
  rw [List.append_assoc, List.singleton_append, List.cons_append,
    lex_quiet (show step d .idle '"' = some (.opening .basic 1, []) from rfl)]
  cases text with
  | nil => exact lex_emptyLine .basic (ne_char_of_isStop hc .basic)
  | cons x text =>
    obtain ⟨a, tail, ha, hq, -, -⟩ := escapeOf_ne_nil x
    have hline := lex_escaped (d := d) [] (x :: text) ('"' :: c :: s)
    rw [List.flatMap_cons, ha] at hline ⊢
    rw [List.cons_append, List.cons_append] at hline ⊢
    rw [lex_opening .basic hq, hline]
    have hend := lex_token (s := c :: s)
      (step_lineEnd (d := d) .basic ((x :: text).reverse ++ []))
    rw [List.append_nil, List.reverse_reverse] at hend
    rw [List.append_nil]
    exact hend

theorem isControl_eq_false (h : isHidden c = false) (hn : c ≠ '\n') : isControl c = false := by
  simp only [isHidden] at h
  simp only [isControl]
  simp only [Bool.or_eq_false_iff, Bool.and_eq_false_iff, bne_eq_false_iff_eq] at h ⊢
  refine ⟨?_, h.2⟩
  rcases h.1 with (h | h) | h
  · exact .inl h
  · exact .inr h
  · exact absurd h hn

theorem step_literal (text : List Char) (hq : c ≠ '\'') (hc : isControl c = false) :
    step d (.line .literal text) c = some (.line .literal (c :: text), []) := by
  change lineStep .literal text c = _
  simp only [lineStep]
  rw [if_neg (show c ≠ Quote.literal.char from hq), if_neg (fun h => by cases h.2),
    if_neg (by rw [hc]; exact Bool.false_ne_true)]

theorem lex_literal (text : List Char) (h : ∀ x ∈ s, x ≠ '\'' ∧ isControl x = false)
    (tail : List Char) :
    lex d (.line .literal text) (s ++ tail) = lex d (.line .literal (s.reverse ++ text)) tail := by
  induction s generalizing text with
  | nil => rfl
  | cons x s ih =>
    obtain ⟨hq, hx⟩ := h x List.mem_cons_self
    rw [List.cons_append, lex_quiet (step_literal text hq hx), List.reverse_cons, List.append_assoc]
    exact ih (x :: text) fun y hy => h y (List.mem_cons_of_mem x hy)

theorem lex_literalLine (hc : isStop c = true) (text : List Char)
    (h : ∀ x ∈ text, x ≠ '\'' ∧ isControl x = false) :
    lex d .idle (literalLine text ++ c :: s) = (lex d .idle (c :: s)).map (.quoted text :: ·) := by
  simp only [literalLine]
  rw [List.append_assoc, List.singleton_append, List.cons_append,
    lex_quiet (show step d .idle '\'' = some (.opening .literal 1, []) from rfl)]
  cases text with
  | nil => exact lex_emptyLine .literal (ne_char_of_isStop hc .literal)
  | cons x text =>
    have hline := lex_literal (d := d) [] h ('\'' :: c :: s)
    rw [List.cons_append] at hline ⊢
    rw [lex_opening .literal (h x List.mem_cons_self).1, hline]
    have hend := lex_token (s := c :: s)
      (step_lineEnd (d := d) .literal ((x :: text).reverse ++ []))
    rw [List.append_nil, List.reverse_reverse] at hend
    rw [List.append_nil]
    exact hend

def afterMarks (q : Quote) (text : List Char) (marks : Nat) : Mode :=
  if marks = 0 then .block q text else .closing q text marks

@[simp] theorem afterMarks_zero (q : Quote) (text : List Char) :
    afterMarks q text 0 = .block q text := rfl

theorem step_mark (q : Quote) (text : List Char) (marks : Nat) (h : marks < 5) :
    step d (afterMarks q text marks) q.char = some (afterMarks q text (marks + 1), []) := by
  simp only [afterMarks]
  split
  · rename_i h0
    subst h0
    change blockStep q text q.char = _
    rw [blockStep]
    rw [if_pos rfl]
    rfl
  · change closingStep q text marks q.char = _
    rw [closingStep]
    rw [if_pos ⟨rfl, h⟩]
    rfl

/-- Marks too few to end a block belong to its text. -/
theorem lex_afterMarks (q : Quote) (text : List Char) (marks : Nat) (h : marks < 3)
    (hc : c ≠ q.char) :
    lex d (afterMarks q text marks) (c :: s) =
      lex d (.block q (List.replicate marks q.char ++ text)) (c :: s) := by
  simp only [afterMarks]
  split
  · rename_i h0
    subst h0
    rfl
  · have hstep : step d (.closing q text marks) c =
        step d (.block q (List.replicate marks q.char ++ text)) c := by
      change closingStep q text marks c = blockStep q _ c
      simp only [closingStep]
      rw [if_neg fun h' => hc h'.1, if_neg (by omega)]
    rw [lex, hstep, lex]

theorem lex_blockEnd (q : Quote) (text : List Char) (marks : Nat) (h : marks < 3)
    (hc : c ≠ q.char) :
    lex d (afterMarks q text marks) (q.char :: q.char :: q.char :: c :: s) =
      (lex d .idle (c :: s)).map
        (.block (List.replicate marks q.char ++ text).reverse :: ·) := by
  rw [lex_quiet (step_mark q text marks (by omega)),
    lex_quiet (step_mark q text (marks + 1) (by omega)),
    lex_quiet (step_mark q text (marks + 2) (by omega))]
  apply lex_emit
  change closingStep q text (marks + 3) c = _
  simp only [closingStep]
  rw [if_neg fun h' => hc h'.1, if_pos (by omega), Nat.add_sub_cancel]

theorem replicate_succ_append (q : Char) (marks : Nat) (text : List Char) :
    (List.replicate (marks + 1) q ++ text).reverse =
      (List.replicate marks q ++ text).reverse ++ [q] := by
  rw [List.replicate_succ, List.cons_append, List.reverse_cons]

theorem lex_escapeBlock (hc : isStop c = true) (body : List Char) (text : List Char) (marks : Nat)
    (h : marks < 3) :
    lex d (afterMarks .basic text marks) (escapeBlock marks body ++ '"' :: '"' :: '"' :: c :: s) =
      (lex d .idle (c :: s)).map
        (.block ((List.replicate marks '"' ++ text).reverse ++ body) :: ·) := by
  induction body generalizing text marks with
  | nil =>
    rw [List.append_nil]
    exact lex_blockEnd .basic text marks h (ne_char_of_isStop hc .basic)
  | cons x body ih =>
    -- a character that is no mark makes the marks before it a part of the text
    have htext : ∀ more : List Char, (List.replicate 0 '"' ++ (x :: more)).reverse ++ body =
        more.reverse ++ x :: body := fun more => by simp
    simp only [escapeBlock]
    split
    · rename_i hx
      subst hx
      split
      · have hmark : step d (afterMarks .basic text marks) '"' = _ :=
          step_mark .basic text marks (by omega)
        rw [List.cons_append, lex_quiet hmark, ih text (marks + 1) (by omega),
          replicate_succ_append, List.append_assoc]
        rfl
      · have hletter := lex_letter (d := d) (c := '"') (e := '"') true
          (List.replicate marks '"' ++ text) rfl
          (s := escapeBlock 0 body ++ '"' :: '"' :: '"' :: c :: s)
        rw [List.cons_append, List.cons_append,
          lex_afterMarks .basic text marks h (show '\\' ≠ Quote.basic.char by decide)]
        change lex d (resume true (List.replicate marks '"' ++ text)) _ = _
        rw [hletter]
        change lex d (afterMarks .basic _ 0) _ = _
        rw [ih _ 0 (by omega), htext]
    · rename_i hx
      split
      · rename_i hn
        subst hn
        have hstep : step d (.block .basic (List.replicate marks '"' ++ text)) '\n' =
          some (.block .basic ('\n' :: (List.replicate marks '"' ++ text)), []) := rfl
        rw [List.cons_append,
          lex_afterMarks .basic text marks h (show '\n' ≠ Quote.basic.char by decide)]
        change lex d (.block .basic (List.replicate marks '"' ++ text)) _ = _
        rw [lex_quiet hstep]
        change lex d (afterMarks .basic _ 0) _ = _
        rw [ih _ 0 (by omega), htext]
      · obtain ⟨a, tail, ha, hq, -, -⟩ := escapeOf_ne_nil x
        have hescape := lex_escapeOf (d := d) true (List.replicate marks '"' ++ text) x
          (s := escapeBlock 0 body ++ '"' :: '"' :: '"' :: c :: s)
        rw [List.append_assoc]
        rw [ha] at hescape ⊢
        rw [List.cons_append] at hescape ⊢
        rw [lex_afterMarks .basic text marks h (show a ≠ Quote.basic.char from hq)]
        change lex d (resume true (List.replicate marks '"' ++ text)) _ = _
        rw [hescape]
        change lex d (afterMarks .basic _ 0) _ = _
        rw [ih _ 0 (by omega), htext]

theorem lex_literalBlock (hc : isStop c = true) (body : List Char) (text : List Char) (marks : Nat)
    (h : marks < 3) (hrun : shortRuns '\'' 2 marks body = true)
    (hbody : ∀ x ∈ body, isHidden x = false) :
    lex d (afterMarks .literal text marks) (body ++ '\'' :: '\'' :: '\'' :: c :: s) =
      (lex d .idle (c :: s)).map
        (.block ((List.replicate marks '\'' ++ text).reverse ++ body) :: ·) := by
  induction body generalizing text marks with
  | nil =>
    rw [List.append_nil]
    exact lex_blockEnd .literal text marks h (ne_char_of_isStop hc .literal)
  | cons x body ih =>
    have hrest : ∀ y ∈ body, isHidden y = false := fun y hy => hbody y (List.mem_cons_of_mem x hy)
    simp only [shortRuns] at hrun
    split at hrun
    · rename_i hx
      subst hx
      simp only [Bool.and_eq_true, decide_eq_true_eq] at hrun
      have hmark : step d (afterMarks .literal text marks) '\'' = _ :=
        step_mark .literal text marks (by omega)
      rw [List.cons_append, lex_quiet hmark, ih text (marks + 1) (by omega) hrun.2 hrest,
        replicate_succ_append, List.append_assoc]
      rfl
    · rename_i hx
      have hstep : step d (.block .literal (List.replicate marks '\'' ++ text)) x =
          some (.block .literal (x :: (List.replicate marks '\'' ++ text)), []) := by
        change blockStep .literal _ x = _
        simp only [blockStep]
        rw [if_neg (show x ≠ Quote.literal.char from hx), if_neg fun h' => by cases h'.2]
        split
        · rename_i hn
          rw [hn]
        · rename_i hn
          have hcontrol := isControl_eq_false (hbody x List.mem_cons_self) hn
          rw [if_neg (by rintro rfl; exact absurd hcontrol (by decide)),
            if_neg (by rw [hcontrol]; exact Bool.false_ne_true)]
      rw [List.cons_append,
        lex_afterMarks .literal text marks h (show x ≠ Quote.literal.char from hx)]
      change lex d (.block .literal (List.replicate marks '\'' ++ text)) _ = _
      rw [lex_quiet hstep]
      change lex d (afterMarks .literal _ 0) _ = _
      rw [ih _ 0 (by omega) hrun hrest]
      simp

theorem lex_opened (q : Quote) :
    lex d .idle (q.char :: q.char :: q.char :: s) = lex d (.blockStart q) s := by
  have h1 : step d .idle q.char = some (.opening q 1, []) := by cases q <;> rfl
  have h2 : step d (.opening q 1) q.char = some (.opening q 2, []) := by cases q <;> rfl
  have h3 : step d (.opening q 2) q.char = some (.blockStart q, []) := by cases q <;> rfl
  rw [lex_quiet h1, lex_quiet h2, lex_quiet h3]

/-- A line end right after the marks is not part of the text. -/
theorem lex_blockStart_lines (q : Quote) :
    lex d (.blockStart q) ('\n' :: s) = lex d (afterMarks q [] 0) s :=
  lex_quiet rfl

theorem lex_blockStart (q : Quote) (hn : c ≠ '\n') (hr : c ≠ '\r') :
    lex d (.blockStart q) (c :: s) = lex d (afterMarks q [] 0) (c :: s) := by
  have hstep : step d (.blockStart q) c = step d (.block q []) c := by
    change (if c = '\n' then _ else if c = '\r' then _ else blockStep q [] c) = _
    rw [if_neg hn, if_neg hr]
    rfl
  rw [lex, hstep, afterMarks_zero, lex]

theorem lex_blockBody (q : Quote) (hasLines : Bool) (body : List Char)
    (h : hasLines = false → ∀ x ∈ body.head?, x ≠ '\n' ∧ x ≠ '\r') :
    lex d .idle (q.char :: q.char :: q.char :: ((if hasLines then ['\n'] else []) ++
        (body ++ q.char :: q.char :: q.char :: s))) =
      lex d (afterMarks q [] 0) (body ++ q.char :: q.char :: q.char :: s) := by
  rw [lex_opened]
  cases hasLines with
  | true => exact lex_blockStart_lines q
  | false =>
    cases body with
    | nil =>
      apply lex_blockStart q
      · cases q <;> decide
      · cases q <;> decide
    | cons x body =>
      obtain ⟨hn, hr⟩ := h rfl x rfl
      exact lex_blockStart q hn hr

theorem head?_escapeBlock (hn : '\n' ∉ s) :
    ∀ x ∈ (escapeBlock 0 s).head?, x ≠ '\n' ∧ x ≠ '\r' := by
  cases s with
  | nil => intro x hx; cases hx
  | cons y s =>
    have hy : y ≠ '\n' := fun h => hn (h ▸ List.mem_cons_self)
    obtain ⟨a, tail, ha, -, ha1, ha2⟩ := escapeOf_ne_nil y
    simp only [escapeBlock]
    split
    · rw [if_pos (by decide)]
      intro x hx
      cases hx
      decide
    · rw [ha]
      intro x hx
      cases hx
      exact ⟨ha1, ha2⟩

theorem lex_basicBlock (hc : isStop c = true) (text : List Char) (hasLines : Bool)
    (h : hasLines = false → '\n' ∉ text) :
    lex d .idle (block tripleBasic hasLines (escapeBlock 0 text) ++ c :: s) =
      (lex d .idle (c :: s)).map (.block text :: ·) := by
  have hbody := lex_blockBody (d := d) (s := c :: s) .basic hasLines (escapeBlock 0 text)
    fun hl => head?_escapeBlock (h hl)
  have hend := lex_escapeBlock (d := d) (s := s) hc text [] 0 (by omega)
  simp only [block]
  rw [List.append_assoc, List.append_assoc, List.append_assoc]
  exact hbody.trans hend

theorem lex_tripleLiteral (hc : isStop c = true) (text : List Char) (hasLines : Bool)
    (h : hasLines = false → '\n' ∉ text) (hrun : shortRuns '\'' 2 0 text = true)
    (hhidden : ∀ x ∈ text, isHidden x = false) :
    lex d .idle (block tripleLiteral hasLines text ++ c :: s) =
      (lex d .idle (c :: s)).map (.block text :: ·) := by
  have hbody := lex_blockBody (d := d) (s := c :: s) .literal hasLines text fun hl x hx => by
    have hx := List.mem_of_mem_head? hx
    constructor
    · rintro rfl
      exact h hl hx
    · rintro rfl
      exact absurd (hhidden _ hx) (by decide)
  have hend := lex_literalBlock (d := d) (s := s) hc text [] 0 (by omega) hrun hhidden
  simp only [block]
  rw [List.append_assoc, List.append_assoc, List.append_assoc]
  exact hbody.trans hend

inductive Token.IsText (text : List Char) : Token → Prop where
  | quoted : IsText text (.quoted text)
  | block : IsText text (.block text)

/-- A printed string is one token with its text. -/
theorem lex_stringText (text : List Char) :
    ∃ token, Token.IsText text token ∧ ∀ c s, isStop c = true →
      lex d .idle (stringText text ++ c :: s) = (lex d .idle (c :: s)).map (token :: ·) := by
  unfold stringText
  dsimp only
  split
  · exact ⟨_, .quoted, fun c s hc => lex_basicLine hc text⟩
  · split
    · rename_i h
      simp only [Bool.and_eq_true, Bool.not_eq_true', List.any_eq_false, List.contains_eq_mem,
        decide_eq_false_iff_not, Bool.not_eq_true] at h
      refine ⟨_, .quoted, fun c s hc => lex_literalLine hc text fun x hx => ⟨?_, ?_⟩⟩
      · rintro rfl
        exact h.1.2 hx
      · apply isControl_eq_false (h.1.1 x hx)
        rintro rfl
        exact h.2 hx
    · split
      · refine ⟨_, .block, fun c s hc => lex_basicBlock hc text _ fun hl => ?_⟩
        simpa using hl
      · split
        · rename_i h
          simp only [Bool.and_eq_true, Bool.not_eq_true', List.any_eq_false, Bool.not_eq_true] at h
          refine ⟨_, .block, fun c s hc => lex_tripleLiteral hc text _ (fun hl => ?_) h.2 h.1⟩
          simpa using hl
        · split
          · exact ⟨_, .block, fun c s hc => lex_basicBlock hc text true fun hl => by cases hl⟩
          · exact ⟨_, .quoted, fun c s hc => lex_basicLine hc text⟩

def keyToken (key : String) : Token :=
  if isBareKey key.toList then .atom key.toList else .quoted key.toList

theorem lex_atom (text : List Char) (h : ∀ x ∈ s, isAtom x = true) (hc : isAtom c = false)
    (tail : List Char) :
    lex d (.atom text) (s ++ c :: tail) =
      (lex d .idle (c :: tail)).map (.atom (text.reverse ++ s) :: ·) := by
  induction s generalizing text with
  | nil =>
    rw [List.append_nil]
    apply lex_emit
    change (if isAtom c then _ else emit (.atom text.reverse) c) = _
    rw [if_neg (by rw [hc]; exact Bool.false_ne_true)]
  | cons x s ih =>
    have hx : step d (.atom text) x = some (.atom (x :: text), []) := by
      change (if isAtom x then _ else _) = _
      rw [if_pos (h x List.mem_cons_self)]
    rw [List.cons_append, lex_quiet hx, ih (x :: text) fun y hy => h y (List.mem_cons_of_mem x hy),
      List.reverse_cons, List.append_assoc, List.singleton_append]

theorem isSpace_of_isAtom (h : isAtom c = true) : isSpace c = false := by
  simp only [isSpace]
  simp only [Bool.or_eq_false_iff, decide_eq_false_iff_not]
  constructor
  · rintro rfl
    exact absurd h (by decide)
  · rintro rfl
    exact absurd h (by decide)

theorem step_atom (h : isAtom c = true) : step d .idle c = some (.atom [c], []) := by
  change idleStep c = _
  simp only [idleStep]
  rw [if_neg (by rw [isSpace_of_isAtom h]; exact Bool.false_ne_true), if_pos h]

/-- A printed key is one token. -/
theorem lex_keyText (key : String) (hc : isStop c = true) :
    lex d .idle (keyText key ++ c :: s) =
      (lex d .idle (c :: s)).map (keyToken key :: ·) := by
  unfold keyText keyToken
  dsimp only
  split
  · rename_i h
    simp only [isBareKey, Bool.and_eq_true, Bool.not_eq_true', List.all_eq_true] at h
    have hatom : ∀ x ∈ key.toList, isAtom x = true := by
      intro x hx
      simp only [isAtom, isBare]
      rw [h.2 x hx]
      rfl
    obtain ⟨x, text, hkey⟩ := List.exists_cons_of_ne_nil (List.isEmpty_eq_false_iff.mp h.1)
    rw [hkey] at hatom ⊢
    rw [List.cons_append, lex_quiet (step_atom (hatom x List.mem_cons_self)),
      lex_atom [x] (fun y hy => hatom y (List.mem_cons_of_mem x hy)) (isAtom_of_isStop hc)]
    rfl
  · split
    · exact lex_basicLine hc _
    · split
      · rename_i h
        simp only [Bool.and_eq_true, Bool.not_eq_true', List.any_eq_false, Bool.or_eq_true,
          decide_eq_true_eq, not_or, List.contains_eq_mem, decide_eq_false_iff_not,
          Bool.not_eq_true] at h
        refine lex_literalLine hc _ fun x hx => ⟨?_, isControl_eq_false (h.1 x hx).1 (h.1 x hx).2⟩
        rintro rfl
        exact h.2 hx
      · exact lex_basicLine hc _

end LayeredConfig.Toml
