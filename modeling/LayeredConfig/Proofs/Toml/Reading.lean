import LayeredConfig.Toml.Statement
import LayeredConfig.Proofs.Toml.Numbers
import LayeredConfig.Proofs.Toml.Strings
import LayeredConfig.Proofs.Toml.Reread

/-!
# Reading on from a place

The lexer and the machine over its tokens run as one from a place between two tokens. Pieces
of a printed text each take this run from one place to the next, whatever text follows.
-/

set_option autoImplicit false

namespace LayeredConfig.Toml

variable {d : Dialect} {place : Place} {c : Char} {s rest : List Char}

def readIn (d : Dialect) (mode : Mode) (place : Place) (text : List Char) : Option Move :=
  (lex d mode text).bind (placeRun d place)

def readOn (d : Dialect) (place : Place) (text : List Char) : Option Move :=
  readIn d .idle place text

def onward (d : Dialect) (m : Move) (text : List Char) : Option Move :=
  (readOn d m.1 text).map fun r => (r.1, m.2 ++ r.2)

@[simp] theorem onward_move (text : List Char) :
    onward d (place, []) text = readOn d place text := by
  change (readOn d place text).map (fun r => (r.1, r.2)) = _
  exact Option.map_id'

theorem readIn_token {mode : Mode} {token : Token} {text more : List Char}
    (h : lex d mode text = (lex d .idle more).map (token :: ·)) :
    readIn d mode place text = (placeStep d place token).bind fun m => onward d m more := by
  simp only [readIn, onward, readOn, readIn]
  rw [h]
  rcases lex d .idle more with _ | ts
  · rcases placeStep d place token with _ | m
    · rfl
    · rfl
  · change (placeStep d place token).bind _ = _
    rcases placeStep d place token with _ | m
    · rfl
    · change (placeRun d m.1 ts).bind _ = (placeRun d m.1 ts).map _
      rcases placeRun d m.1 ts with _ | r
      · rfl
      · rfl

theorem readOn_move {token : Token} {next : Place} {text more : List Char}
    (h : lex d .idle text = (lex d .idle more).map (token :: ·))
    (hp : placeStep d place token = move next) : readOn d place text = readOn d next more := by
  simp only [readOn]
  rw [readIn_token h, hp]
  exact onward_move more

theorem step_space (text : List Char) (h : isSpace c = true) :
    step d (.space text) c = some (.space (c :: text), []) := by
  change (if isSpace c then _ else _) = _
  rw [if_pos h]

theorem step_spaceEnd (text : List Char) (h : ¬ isSpace c = true) :
    step d (.space text) c = emit (.space text.reverse) c := by
  change (if isSpace c then _ else _) = _
  rw [if_neg h]

theorem readOn_space (h : ∀ text, placeStep d place (.space text) = move place) :
    readOn d place (' ' :: s) = readOn d place s := by
  have hspace : ∀ text, readIn d (.space text) place s = readOn d place s := by
    induction s with
    | nil =>
      intro text
      change (placeStep d place (.space text.reverse)).bind _ = _
      rw [h]
      rfl
    | cons x s ih =>
      intro text
      by_cases hx : isSpace x = true
      · have hidle : step d .idle x = some (.space [x], []) := by
          change idleStep x = _
          unfold idleStep
          rw [if_pos hx]
        simp only [readOn, readIn] at ih ⊢
        rw [lex_quiet (step_space text hx), lex_quiet hidle]
        exact (ih (x :: text)).trans (ih [x]).symm
      · rw [readIn_token (lex_emit (step_spaceEnd text hx)), h]
        exact onward_move _
  have hidle : step d .idle ' ' = some (.space [' '], []) := rfl
  have := hspace [' ']
  simp only [readOn, readIn] at this ⊢
  rw [lex_quiet hidle]
  exact this

def isEnd (c : Char) : Bool := c = ' ' || c = ',' || c = ']' || c = '\n'

theorem isStop_of_isEnd (h : isEnd c = true) : isStop c = true := by
  simp only [isEnd, Bool.or_eq_true, decide_eq_true_eq] at h
  rcases h with ((rfl | rfl) | rfl) | rfl
  · decide
  · decide
  · decide
  · decide

theorem lex_end (h : isEnd c = true) :
    lex d .idle (c :: s) = none ∨ ∃ token ts, lex d .idle (c :: s) = some (token :: ts) ∧
      (∀ text, token ≠ .atom text) ∧ token ≠ .dot := by
  have hspace : ∀ s text, lex d (.space text) s = none ∨ ∃ blank ts,
      lex d (.space text) s = some (.space blank :: ts) := by
    intro s
    induction s with
    | nil => exact fun text => .inr ⟨_, [], rfl⟩
    | cons x s ih =>
      intro text
      by_cases hx : isSpace x = true
      · rw [lex_quiet (step_space text hx)]
        exact ih (x :: text)
      · rw [lex_emit (step_spaceEnd text hx)]
        rcases lex d .idle (x :: s) with _ | ts
        · exact .inl rfl
        · exact .inr ⟨_, ts, rfl⟩
  have hone : ∀ token, step d .idle c = some (.idle, [token]) → (∀ text, token ≠ .atom text) →
      token ≠ .dot → lex d .idle (c :: s) = none ∨ ∃ token ts,
        lex d .idle (c :: s) = some (token :: ts) ∧ (∀ text, token ≠ .atom text) ∧
          token ≠ .dot := by
    intro token hstep hatom hdot
    rw [lex_token hstep]
    rcases lex d .idle s with _ | ts
    · exact .inl rfl
    · exact .inr ⟨token, ts, rfl, hatom, hdot⟩
  simp only [isEnd, Bool.or_eq_true, decide_eq_true_eq] at h
  rcases h with ((rfl | rfl) | rfl) | rfl
  · rw [lex_quiet (show step d .idle ' ' = some (.space [' '], []) from rfl)]
    rcases hspace s [' '] with hn | ⟨blank, ts, hs⟩
    · exact .inl hn
    · exact .inr ⟨_, ts, hs, fun text heq => (by cases heq), fun heq => (by cases heq)⟩
  · exact hone .comma rfl (fun text heq => (by cases heq)) fun heq => (by cases heq)
  · exact hone .closeBracket rfl (fun text heq => (by cases heq)) fun heq => (by cases heq)
  · exact hone .newline rfl (fun text heq => (by cases heq)) fun heq => (by cases heq)

/-- Where a finished value is, only its end may follow. -/
theorem placeStep_accept (root : List String) (v : Toml) (frames : List Frame) (token : Token) :
    placeStep d (accept root v frames).1 token = endStep d (accept root v frames).1 token := by
  rcases frames with _ | ⟨_ | _, _⟩
  · rfl
  · rfl
  · rfl

/-- A scalar that is no date ends at a token that is no part of it. -/
theorem placeStep_scalar (root : List String) (frames : List Frame) (text : List Char)
    (token : Token) (hdate : isDate text = false) (hatom : ∀ text, token ≠ .atom text)
    (hdot : token ≠ .dot) :
    placeStep d (.scalar root frames text) token = scalarEnd d root frames text token := by
  cases token with
  | atom text => exact absurd rfl (hatom text)
  | dot => exact absurd rfl hdot
  | space blank =>
    unfold placeStep
    dsimp only
    split
    · rename_i heq
      cases heq
    · rename_i heq
      cases heq
    · rw [if_neg (by rw [hdate]; exact Bool.false_ne_true)]
    · rfl
  | quoted text => rfl
  | block text => rfl
  | equals => rfl
  | comma => rfl
  | openBracket => rfl
  | closeBracket => rfl
  | openBrace => rfl
  | closeBrace => rfl
  | newline => rfl

/-- A scalar that is no date ends before the character after it. -/
theorem readOn_scalarEnd (root : List String) (frames : List Frame) (text : List Char)
    (hdate : isDate text = false) (h : isEnd c = true) :
    readOn d (.scalar root frames text) (c :: s) =
      (scalar? d text).bind fun v => onward d (accept root v frames) (c :: s) := by
  simp only [onward, readOn, readIn]
  rcases lex_end (d := d) (s := s) h with hn | ⟨token, ts, hs, hatom, hdot⟩
  · rw [hn]
    rcases scalar? d text with _ | v
    · rfl
    · rfl
  · rw [hs]
    change (placeStep d _ token).bind _ = _
    rw [placeStep_scalar root frames text token hdate hatom hdot]
    simp only [scalarEnd]
    rcases scalar? d text with _ | v
    · rfl
    · have haccept := placeStep_accept (d := d) root v frames token
      simp only [Option.bind_eq_bind, Option.bind_some]
      generalize accept root v frames = m at haccept ⊢
      obtain ⟨first, before⟩ := m
      change ((endStep d first token).bind _).bind _ = ((placeStep d first token).bind _).map _
      rw [haccept]
      rcases endStep d first token with _ | ⟨next, out⟩
      · rfl
      · change (placeRun d next ts).bind _ = ((placeRun d next ts).bind _).map _
        rcases placeRun d next ts with _ | ⟨last, more⟩
        · rfl
        · change some _ = some _
          rw [List.append_assoc]

end LayeredConfig.Toml
