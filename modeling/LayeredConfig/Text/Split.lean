/-!
# Splitting and joining at separators

`splitOn p` cuts a list at every element that satisfies `p` and keeps the empty
pieces, so it always has one piece more than there are separators. `join`
puts one separator between neighbouring pieces. Joining undoes splitting
when the separator is the only one that `p` admits.
-/

set_option autoImplicit false

namespace LayeredConfig.Text

def splitOn (p : Char → Bool) : List Char → List (List Char)
  | [] => [[]]
  | c :: cs =>
    if p c then [] :: splitOn p cs
    else match splitOn p cs with
      | [] => [[c]]
      | piece :: pieces => (c :: piece) :: pieces

def join (sep : Char) : List (List Char) → List Char
  | [] => []
  | [piece] => piece
  | piece :: pieces => piece ++ sep :: join sep pieces

theorem splitOn_ne_nil (p : Char → Bool) (cs : List Char) : splitOn p cs ≠ [] := by
  cases cs with
  | nil => simp [splitOn]
  | cons c cs =>
    unfold splitOn
    split
    · simp
    · split <;> simp

theorem join_splitOn (sep : Char) (cs : List Char) : join sep (splitOn (· == sep) cs) = cs := by
  induction cs with
  | nil => rfl
  | cons c cs ih =>
    have hne := splitOn_ne_nil (· == sep) cs
    unfold splitOn
    by_cases h : c = sep
    · subst h
      rcases hs : splitOn (· == c) cs with _ | ⟨piece, pieces⟩
      · exact absurd hs hne
      · rw [hs] at ih
        simp [join, ih]
    · rcases hs : splitOn (· == sep) cs with _ | ⟨piece, pieces⟩
      · exact absurd hs hne
      · rw [hs] at ih
        simp only [beq_iff_eq, h, if_false]
        cases pieces with
        | nil => simpa [join] using ih
        | cons q qs => simpa [join] using ih

end LayeredConfig.Text
