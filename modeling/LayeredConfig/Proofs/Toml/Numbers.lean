import Mathlib.Data.List.TakeWhile
import LayeredConfig.Toml.Scalar
import LayeredConfig.Toml.Printer
import LayeredConfig.Proofs.Decimal.Texts

/-!
# Printed numbers read back

The text of an integer of 64 bits and that of a finite number are scalars, and of no other
kind: no date or time is written with digits, one sign in front and points only.
-/

set_option autoImplicit false

namespace LayeredConfig.Toml

open Decimal

variable {cs whole places : List Char}

theorem plainDigits?_eq (h : ∀ c ∈ cs, c.isDigit = true) (hne : cs ≠ []) :
    plainDigits? Char.isDigit cs = some cs := by
  induction cs with
  | nil => exact absurd rfl hne
  | cons c rest ih =>
    have hc := h c List.mem_cons_self
    cases rest with
    | nil => simp [plainDigits?, hc]
    | cons d rest =>
      have hd := h d (List.mem_cons_of_mem c List.mem_cons_self)
      have hmark : d ≠ '_' := by
        rintro rfl
        exact absurd hd (by decide)
      have hrest := ih (fun x hx => h x (List.mem_cons_of_mem c hx)) (List.cons_ne_nil d rest)
      unfold plainDigits?
      split
      · rename_i heq
        simp at heq
      · rename_i heq
        simp at heq
      · rename_i heq
        simp only [List.cons.injEq] at heq
        exact absurd heq.2.1 hmark
      · rename_i heq
        obtain ⟨rfl, rfl⟩ := List.cons.inj heq
        rw [if_pos hc, hrest]
        rfl

theorem numberIn_eq (h : ∀ c ∈ cs, c.isDigit = true) :
    numberIn 10 cs = Nat.ofDigitChars 10 cs 0 := by
  simp only [numberIn, Nat.ofDigitChars]
  generalize 0 = start
  induction cs generalizing start with
  | nil => rfl
  | cons c rest ih =>
    rw [List.foldl_cons, List.foldl_cons, ih fun x hx => h x (List.mem_cons_of_mem c hx)]
    have hc : digitValue c = c.toNat - '0'.toNat := by
      simp only [digitValue]
      rw [if_pos (h c List.mem_cons_self)]
      rfl
    rw [hc]

theorem decimalDigits?_eq (h : ∀ c ∈ cs, c.isDigit = true) (hne : cs ≠ [])
    (hlead : cs.head? = some '0' → cs.length = 1) : decimalDigits? cs = some cs := by
  simp only [decimalDigits?]
  rw [plainDigits?_eq h hne]
  simp only [Option.bind_eq_bind, Option.bind_some]
  rw [if_neg]
  simp only [Bool.and_eq_true, beq_iff_eq, bne_iff_ne, not_and, not_not]
  exact hlead

def IsNumeric (cs : List Char) : Prop :=
  ∃ c rest, cs = c :: rest ∧ (c.isDigit = true ∨ c = '-') ∧
    ∀ x ∈ rest, x.isDigit = true ∨ x = '.'

theorem isNumeric_signed (negative : Bool) (h : ∀ c ∈ cs, c.isDigit = true ∨ c = '.')
    (hhead : ∃ c rest, cs = c :: rest ∧ c.isDigit = true) :
    IsNumeric ((if negative then ['-'] else []) ++ cs) := by
  obtain ⟨c, rest, rfl, hc⟩ := hhead
  cases negative with
  | false => exact ⟨c, rest, rfl, .inl hc, fun x hx => h x (List.mem_cons_of_mem c hx)⟩
  | true => exact ⟨'-', c :: rest, rfl, .inr rfl, h⟩

theorem exists_digit (h : ∀ c ∈ cs, c.isDigit = true) (hne : cs ≠ []) (more : List Char) :
    ∃ c rest, cs ++ more = c :: rest ∧ c.isDigit = true := by
  cases cs with
  | nil => exact absurd rfl hne
  | cons c rest => exact ⟨c, rest ++ more, rfl, h c List.mem_cons_self⟩

theorem twoDigits?_eq_some {low high n : Nat} {rest : List Char}
    (h : twoDigits? low high cs = some (n, rest)) :
    ∃ a b, cs = a :: b :: rest ∧ a.isDigit = true := by
  unfold twoDigits? at h
  split at h
  · dsimp only at h
    split at h
    · rename_i hd
      cases h
      simp only [Bool.and_eq_true] at hd
      exact ⟨_, _, rfl, hd.1.1.1⟩
    · cases h
  · cases h

theorem skip?_eq_some {c : Char} {rest : List Char} (h : skip? c cs = some rest) :
    cs = c :: rest := by
  simp only [skip?] at h
  split at h
  · split at h
    · rename_i heq
      cases h
      rw [heq]
    · cases h
  · cases h

/-- A date has a dash after its year, a time a colon after its hour. -/
theorem IsNumeric.date?_eq_none (h : IsNumeric cs) : date? cs = none := by
  obtain ⟨c, rest, rfl, -, hrest⟩ := h
  rcases hd : date? (c :: rest) with _ | r
  · rfl
  · simp only [date?] at hd
    simp only [Option.bind_eq_bind, Option.bind_eq_some_iff, Prod.exists] at hd
    obtain ⟨high, r1, h1, low, r2, h2, r3, h3, -⟩ := hd
    obtain ⟨a, b, heq, -⟩ := twoDigits?_eq_some h1
    obtain ⟨a', b', rfl, -⟩ := twoDigits?_eq_some h2
    rw [skip?_eq_some h3] at heq
    obtain ⟨-, rfl⟩ := List.cons.inj heq
    rcases hrest '-' (by simp) with hx | hx
    · exact absurd hx (by decide)
    · exact absurd hx (by decide)

theorem IsNumeric.time?_eq_none (h : IsNumeric cs) (form : TimeForm) : time? form cs = none := by
  obtain ⟨c, rest, rfl, -, hrest⟩ := h
  rcases hd : time? form (c :: rest) with _ | r
  · rfl
  · simp only [time?] at hd
    simp only [Option.bind_eq_bind, Option.bind_eq_some_iff, Prod.exists] at hd
    obtain ⟨hour, r1, h1, r2, h2, -⟩ := hd
    obtain ⟨a, b, heq, -⟩ := twoDigits?_eq_some h1
    rw [skip?_eq_some h2] at heq
    obtain ⟨-, rfl⟩ := List.cons.inj heq
    rcases hrest ':' (by simp) with hx | hx
    · exact absurd hx (by decide)
    · exact absurd hx (by decide)

theorem IsNumeric.ofText?_eq_none (h : IsNumeric cs) (form : TimeForm) :
    DateTime.ofText? form cs = none := by
  simp only [DateTime.ofText?]
  rw [h.date?_eq_none, h.time?_eq_none]
  rfl

theorem IsNumeric.isDate_eq_false (h : IsNumeric cs) : isDate cs = false := by
  simp only [isDate]
  rw [h.date?_eq_none]

theorem IsNumeric.scalar?_eq (h : IsNumeric cs) (d : Dialect) :
    scalar? d cs = (float? d cs).or (integer? cs) := by
  simp only [scalar?]
  rw [h.ofText?_eq_none]
  obtain ⟨c, rest, rfl, hc, -⟩ := h
  have hletter : c ≠ 't' ∧ c ≠ 'f' := by
    constructor
    · rintro rfl
      exact absurd hc (by decide)
    · rintro rfl
      exact absurd hc (by decide)
  rw [if_neg (by simp [hletter.1]), if_neg (by simp [hletter.2])]
  rfl

theorem signOf_signed (negative : Bool) {c : Char} {rest : List Char} (hc : c.isDigit = true) :
    signOf ((if negative then ['-'] else []) ++ c :: rest) = (negative, c :: rest) := by
  cases negative with
  | true => rfl
  | false =>
    simp only [signOf]
    split
    · rename_i heq
      cases heq
      exact absurd hc (by decide)
    · rename_i heq
      cases heq
      exact absurd hc (by decide)
    · rfl

theorem span_eq (p : Char → Bool) (front : List Char) (c : Char) (back : List Char)
    (hf : ∀ x ∈ front, p x = true) (hc : p c = false) :
    (front ++ c :: back).span p = (front, c :: back) := by
  rw [List.span_eq_takeWhile_dropWhile, List.takeWhile_append_of_pos hf,
    List.dropWhile_append_of_pos hf]
  simp [hc]

theorem span_all (p : Char → Bool) (front : List Char) (hf : ∀ x ∈ front, p x = true) :
    front.span p = (front, []) := by
  rw [List.span_eq_takeWhile_dropWhile, List.takeWhile_eq_self_iff.mpr hf,
    List.dropWhile_eq_nil_iff.mpr hf]

theorem isMark_of_isDigit {c : Char} (h : c.isDigit = true) : isMark c = false := by
  simp only [isMark]
  simp only [Bool.or_eq_false_iff, decide_eq_false_iff_not]
  constructor
  · rintro rfl
    exact absurd h (by decide)
  · rintro rfl
    exact absurd h (by decide)

theorem ne_point_of_isDigit {c : Char} (h : c.isDigit = true) : (c != '.') = true := by
  rw [bne_iff_ne]
  rintro rfl
  exact absurd h (by decide)

theorem ne_word_of_isDigit {c : Char} (h : c.isDigit = true) (rest : List Char) :
    c :: rest ≠ ['i', 'n', 'f'] ∧ c :: rest ≠ ['n', 'a', 'n'] := by
  constructor
  · intro heq
    cases heq
    exact absurd h (by decide)
  · intro heq
    cases heq
    exact absurd h (by decide)

theorem float?_digits (d : Dialect) (negative : Bool) (h : ∀ c ∈ cs, c.isDigit = true)
    (hne : cs ≠ []) : float? d ((if negative then ['-'] else []) ++ cs) = none := by
  obtain ⟨c, rest, rfl⟩ := List.exists_cons_of_ne_nil hne
  have hc := h c List.mem_cons_self
  simp only [float?]
  rw [signOf_signed negative hc]
  dsimp only
  rw [if_neg (ne_word_of_isDigit hc rest).1, if_neg (ne_word_of_isDigit hc rest).2]
  rw [span_all (!isMark ·) _ fun x hx => by rw [isMark_of_isDigit (h x hx)]; rfl]
  dsimp only
  rw [span_all (· != '.') _ fun x hx => ne_point_of_isDigit (h x hx)]
  rfl

theorem intText_toList (n : Int) :
    (intText n).toList = (if decide (n < 0) then ['-'] else []) ++ Nat.toDigits 10 n.natAbs := by
  simp only [intText, natText]
  by_cases h : n < 0
  · simp [h]
  · simp [h]

theorem integer?_signed (negative : Bool) (n : Nat)
    (hb : isInt64 (if negative then -(n : Int) else n) = true) :
    integer? ((if negative then ['-'] else []) ++ Nat.toDigits 10 n) =
      some (.integer (if negative then -(n : Int) else n)) := by
  have hds := isDigit_of_mem_toDigits n
  have hval : numberIn 10 (Nat.toDigits 10 n) = n :=
    (numberIn_eq hds).trans Nat.ofDigitChars_ten_toDigits
  have hdecimal : decimalDigits? (Nat.toDigits 10 n) = some (Nat.toDigits 10 n) := by
    apply decimalDigits?_eq hds Nat.toDigits_ne_nil
    intro h0
    rcases Nat.eq_zero_or_pos n with rfl | hn
    · rfl
    · exact absurd h0 (head?_toDigits n hn)
  obtain ⟨c, rest, hcons⟩ := List.exists_cons_of_ne_nil (Nat.toDigits_ne_nil (n := n) (b := 10))
  have hsign : signOf ((if negative then ['-'] else []) ++ Nat.toDigits 10 n) =
      (negative, Nat.toDigits 10 n) := by
    rw [hcons]
    exact signOf_signed negative (hds c (by rw [hcons]; exact List.mem_cons_self))
  -- no letter follows a zero in front
  have hbase : ∀ x tail, x.isDigit = false →
      (if negative then ['-'] else []) ++ Nat.toDigits 10 n ≠ '0' :: x :: tail := by
    intro x tail hx heq
    cases negative with
    | true => simp at heq
    | false =>
      have hmem : x ∈ Nat.toDigits 10 n := by
        have heq' : Nat.toDigits 10 n = '0' :: x :: tail := heq
        rw [heq']
        simp
      rw [hds x hmem] at hx
      cases hx
  simp only [integer?]
  split
  · rename_i heq
    exact absurd heq (hbase _ _ rfl)
  · rename_i heq
    exact absurd heq (hbase _ _ rfl)
  · rename_i heq
    exact absurd heq (hbase _ _ rfl)
  · rw [hsign]
    simp only [Option.bind_eq_bind, hdecimal, Option.bind_some, hval]
    rw [if_pos hb]

theorem isNumeric_intText (n : Int) : IsNumeric (intText n).toList := by
  rw [intText_toList]
  have hds := isDigit_of_mem_toDigits n.natAbs
  apply isNumeric_signed _ fun c hc => .inl (hds c hc)
  obtain ⟨c, rest, hcons⟩ :=
    List.exists_cons_of_ne_nil (Nat.toDigits_ne_nil (n := n.natAbs) (b := 10))
  exact ⟨c, rest, hcons, hds c (by rw [hcons]; exact List.mem_cons_self)⟩

theorem scalar?_intText (d : Dialect) (n : Int) (h : isInt64 n = true) :
    scalar? d (intText n).toList = some (.integer n) := by
  have hn : (if decide (n < 0) = true then -(n.natAbs : Int) else n.natAbs) = n := by
    split
    · rename_i hlt
      have := of_decide_eq_true hlt
      omega
    · rename_i hlt
      have : ¬ n < 0 := fun hlt' => hlt (decide_eq_true hlt')
      omega
  rw [(isNumeric_intText n).scalar?_eq, intText_toList,
    float?_digits d _ (isDigit_of_mem_toDigits _) Nat.toDigits_ne_nil,
    integer?_signed _ _ (by rw [hn]; exact h), hn]
  rfl

/-- The text of a finite number. -/
theorem isNumeric_positional (x : Binary64) (hf : x.isFinite = true) :
    IsNumeric (positional x).toList := by
  obtain ⟨whole, places, htext, hp, -⟩ := positional_eq x hf
  rw [htext]
  apply isNumeric_signed
  · intro c hc
    rcases List.mem_append.mp hc with hc | hc
    · exact .inl (hp.whole_digits c hc)
    · rcases List.mem_cons.mp hc with rfl | hc
      · exact .inr rfl
      · exact .inl (hp.places_digits c hc)
  · exact exists_digit hp.whole_digits hp.whole_ne_nil _

theorem scalar?_positional (d : Dialect) (x : Binary64) (hf : x.isFinite = true) :
    scalar? d (positional x).toList = some (.float x) := by
  rw [(isNumeric_positional x hf).scalar?_eq]
  obtain ⟨whole, places, htext, hp, hx⟩ := positional_eq x hf
  rw [htext]
  obtain ⟨c, rest, hcons, hc⟩ := exists_digit hp.whole_digits hp.whole_ne_nil ('.' :: places)
  have hmarks : ∀ x ∈ whole ++ '.' :: places, (!isMark x) = true := by
    intro y hy
    rcases List.mem_append.mp hy with hy | hy
    · rw [isMark_of_isDigit (hp.whole_digits y hy)]
      rfl
    · rcases List.mem_cons.mp hy with rfl | hy
      · rfl
      · rw [isMark_of_isDigit (hp.places_digits y hy)]
        rfl
  have hdigits : ∀ c ∈ whole ++ places, c.isDigit = true := by
    intro y hy
    rcases List.mem_append.mp hy with hy | hy
    · exact hp.whole_digits y hy
    · exact hp.places_digits y hy
  have hfloat : float? d ((if x.isNegative then ['-'] else []) ++ (whole ++ '.' :: places)) =
      some (.float x) := by
    simp only [float?]
    rw [hcons, signOf_signed _ hc, ← hcons]
    dsimp only
    rw [if_neg (by rw [hcons]; exact (ne_word_of_isDigit hc rest).1),
      if_neg (by rw [hcons]; exact (ne_word_of_isDigit hc rest).2),
      span_all (!isMark ·) _ hmarks]
    dsimp only
    rw [span_eq (· != '.') _ _ _ (fun y hy => ne_point_of_isDigit (hp.whole_digits y hy)) rfl]
    simp only [List.isEmpty_cons, Bool.and_false, Bool.false_eq_true, if_false,
      decimalDigits?_eq hp.whole_digits hp.whole_ne_nil hp.lead,
      plainDigits?_eq hp.places_digits hp.places_ne_nil, exponent?, Option.bind_eq_bind,
      Option.bind_some, numberIn_eq hdigits]
    rw [zero_sub, hx, hf]
    rfl
  rw [hfloat]
  rfl

end LayeredConfig.Toml
