import LayeredConfig.Decimal.Integer
import LayeredConfig.Decimal.Layout
import LayeredConfig.Proofs.Decimal.Shortest

/-!
# Decimal texts stand for what they were made from

The digits of a text with a point are, as a decimal, the shortest decimal of the number, and
a decimal in the reach of a number is rounded to it.
-/

set_option autoImplicit false

namespace LayeredConfig

namespace Binary64

@[simp] theorem ofPattern_magnitude (x : Binary64) : ofPattern x.isNegative x.magnitude = x := by
  have hlt := x.bits.toNat_lt
  have hpat : (if x.isNegative then signBit + x.magnitude else x.magnitude) = x.bits.toNat := by
    rw [isNegative, magnitude, signBit]
    split
    · rename_i h
      have := of_decide_eq_true h
      omega
    · rename_i h
      have := of_decide_eq_false (Bool.eq_false_iff.mpr h)
      omega
  simp only [ofPattern]
  rw [hpat, UInt64.ofNat_toNat]

theorem zero_of_isZero (x : Binary64) (h : x.isZero = true) : zero x.isNegative = x := by
  have hm : x.magnitude = 0 := by simpa [isZero] using h
  simp only [zero]
  rw [← hm, ofPattern_magnitude]

theorem greatest_lt : (2 : ℚ) ^ (1024 : Int) < 10 ^ (310 : Int) := by
  have h : (2 : ℚ) ^ 205 < 10 ^ 62 := by norm_num
  calc (2 : ℚ) ^ (1024 : Int) ≤ 2 ^ (205 * 5 : Int) :=
    zpow_le_zpow_right₀ (by norm_num) (by norm_num)
    _ = (2 ^ 205) ^ 5 := by rw [zpow_mul]; rfl
    _ < (10 ^ 62) ^ 5 := pow_lt_pow_left₀ h (by positivity) (by norm_num)
    _ = 10 ^ (62 * 5 : Int) := by rw [zpow_mul]; rfl

theorem lt_least : (10 : ℚ) ^ (-330 : Int) < 2 ^ (-1075 : Int) := by
  have h : (2 : ℚ) ^ 33 < 10 ^ 10 := by norm_num
  rw [zpow_neg, zpow_neg]
  apply inv_strictAnti₀ (unit_pos _)
  calc (2 : ℚ) ^ (1075 : Int) ≤ 2 ^ (33 * 33 : Int) :=
    zpow_le_zpow_right₀ (by norm_num) (by norm_num)
    _ = (2 ^ 33) ^ 33 := by rw [zpow_mul]; rfl
    _ < (10 ^ 10) ^ 33 := pow_lt_pow_left₀ h (by positivity) (by norm_num)
    _ = 10 ^ (10 * 33 : Int) := by rw [zpow_mul]; rfl

section

variable {m : Nat} {q : Int} {narrow : Bool} {r : ℚ}

theorem InReach.least_le (hn : Normalized m q narrow) (h : InReach m q narrow r) :
    (2 : ℚ) ^ (-1075 : Int) ≤ r := by
  have hm : (1 : ℚ) ≤ m := by exact_mod_cast hn.pos
  have hq : (2 : ℚ) ^ (-1074 : Int) ≤ 2 ^ q := zpow_le_zpow_right₀ (by norm_num) hn.low
  calc (2 : ℚ) ^ (-1075 : Int) = 1 / 2 * 2 ^ (-1074 : Int) := by
        rw [show (-1075 : Int) = -1 + -1074 by norm_num, zpow_add₀ two_ne_zero, zpow_neg_one,
          one_div]
    _ ≤ 1 / 2 * 2 ^ q := by linarith
    _ ≤ (m - 1 / 2) * 2 ^ q := by
        apply mul_le_mul_of_nonneg_right _ (unit_pos _).le
        linarith
    _ ≤ r := h.bounds.1

theorem InReach.le_greatest (hn : Normalized m q narrow) (h : InReach m q narrow r) :
    r ≤ (2 : ℚ) ^ (1024 : Int) := by
  have hm : (m : ℚ) + 1 ≤ 2 ^ 53 := by exact_mod_cast hn.lt
  have hq : (2 : ℚ) ^ q ≤ 2 ^ (971 : Int) := zpow_le_zpow_right₀ (by norm_num) hn.high
  calc r ≤ (m + 1 / 2) * 2 ^ q := h.bounds.2
    _ ≤ 2 ^ 53 * 2 ^ q := by
        apply mul_le_mul_of_nonneg_right _ (unit_pos _).le
        linarith
    _ ≤ 2 ^ 53 * 2 ^ (971 : Int) := by linarith
    _ = 2 ^ (1024 : Int) := by
        rw [← zpow_natCast, ← zpow_add₀ two_ne_zero]
        norm_num

end

theorem decimal_lt (m : Nat) (e : Int) :
    (m : ℚ) * 10 ^ e < 10 ^ (e + (Nat.toDigits 10 m).length) := by
  have hhigh := Decimal.lt_pow_length m
  rw [zpow_add₀ (by norm_num), zpow_natCast, mul_comm]
  apply mul_lt_mul_of_pos_left _ (Decimal.ten_pos e)
  exact_mod_cast hhigh

theorem le_decimal (m : Nat) (hm : 0 < m) (e : Int) :
    (10 : ℚ) ^ (e + ((Nat.toDigits 10 m).length - 1 : Nat)) ≤ m * 10 ^ e := by
  have hlow := Decimal.pow_length_le m hm
  rw [zpow_add₀ (by norm_num), zpow_natCast, mul_comm]
  apply mul_le_mul_of_nonneg_right _ (Decimal.ten_pos e).le
  exact_mod_cast hlow

/-- A decimal in the reach of a number is read as that number. -/
theorem ofDecimal_of_inReach (x : Binary64) (hf : x.isFinite = true) (hz : x.isZero = false)
    (m : Nat) (e : Int) (h : InReach x.significand x.scale x.narrowBelow (m * 10 ^ e)) :
    ofDecimal x.isNegative m e = x := by
  have hn := x.normalized hf hz
  have hm : 0 < m := by
    have hpos := h.pos hn
    rcases Nat.eq_zero_or_pos m with rfl | hm
    · simp at hpos
    · exact hm
  have hlen := Nat.length_toDigits_pos (b := 10) (n := m)
  have htiny : ¬ e + (Nat.toDigits 10 m).length < -330 := by
    intro hlt
    have h1 := (decimal_lt m e).trans_le (zpow_le_zpow_right₀ (by norm_num) hlt.le)
    exact (h1.trans (lt_least.trans_le (h.least_le hn))).false
  have hhuge : ¬ 310 < e + (Nat.toDigits 10 m).length := by
    intro hlt
    have hle : (310 : Int) ≤ e + ((Nat.toDigits 10 m).length - 1 : Nat) := by omega
    have h1 := (zpow_le_zpow_right₀ (by norm_num) hle).trans (le_decimal m hm e)
    exact (h1.trans_lt ((h.le_greatest hn).trans_lt greatest_lt)).false
  have hround : ∀ num den : Nat, 0 < den → (num : ℚ) / den = m * 10 ^ e →
      ofRatio x.isNegative num den = x := by
    intro num den hden hr
    simp only [ofRatio]
    rw [nearestPattern_of_inReach num den hden hn (hr.symm ▸ h), ← magnitude_eq,
      ofPattern_magnitude]
  unfold ofDecimal
  dsimp only
  rw [if_neg (by omega), if_neg hhuge]
  split
  · rename_i he
    obtain ⟨n, rfl⟩ := Int.eq_ofNat_of_zero_le he
    apply hround _ _ Nat.one_pos
    simp
  · rename_i he
    obtain ⟨n, hn'⟩ := Int.eq_ofNat_of_zero_le (show 0 ≤ -e by omega)
    obtain rfl : e = -(n : Int) := by omega
    apply hround _ _ (Nat.pow_pos (by decide))
    simp [div_eq_mul_inv]

end Binary64

namespace Decimal

structure Pointed (whole places : List Char) : Prop where
  whole_digits : ∀ c ∈ whole, c.isDigit = true
  places_digits : ∀ c ∈ places, c.isDigit = true
  whole_ne_nil : whole ≠ []
  places_ne_nil : places ≠ []
  lead : whole.head? = some '0' → whole.length = 1

theorem isDigit_of_mem_toDigits (n : Nat) : ∀ c ∈ Nat.toDigits 10 n, c.isDigit = true :=
  fun _ hc => Nat.isDigit_of_mem_toDigits (by decide) (by decide) hc

theorem isDigit_of_mem_zeros (n : Nat) : ∀ c ∈ zeros n, c.isDigit = true := by
  intro c hc
  rw [List.eq_of_mem_replicate hc]
  rfl

theorem head?_toDigits (n : Nat) (hn : 0 < n) : (Nat.toDigits 10 n).head? ≠ some '0' := by
  induction n using Nat.strong_induction_on with
  | _ n ih =>
    by_cases h : 10 ≤ n
    · rw [Nat.toDigits_of_base_le (by decide) h, List.head?_append_of_ne_nil _ Nat.toDigits_ne_nil]
      exact ih (n / 10) (by omega) (by omega)
    · rw [Nat.toDigits_of_lt_base (by omega)]
      simp only [List.head?_cons, ne_eq, Option.some.injEq, Nat.digitChar_eq_zero]
      omega

def valueOf (whole places : List Char) : ℚ :=
  Nat.ofDigitChars 10 (whole ++ places) 0 * 10 ^ (-(places.length : Int))

section

variable {ds : List Char} (hds : ∀ c ∈ ds, c.isDigit = true) (hne : ds ≠ [])
  (hlead : ds.head? ≠ some '0')

include hds hne

theorem pointed_behind (k : Nat) : Pointed ['0'] (zeros k ++ ds) where
  whole_digits c hc := by
    rw [List.mem_singleton.mp hc]
    rfl
  places_digits c hc := by
    rcases List.mem_append.mp hc with hc | hc
    · exact isDigit_of_mem_zeros _ c hc
    · exact hds c hc
  whole_ne_nil := List.cons_ne_nil _ _
  places_ne_nil := List.append_ne_nil_of_right_ne_nil _ hne
  lead _ := rfl

include hlead

theorem pointed_between (k : Nat) (hpos : 0 < k) (hlt : k < ds.length) :
    Pointed (ds.take k) (ds.drop k) where
  whole_digits c hc := hds c (List.mem_of_mem_take hc)
  places_digits c hc := hds c (List.mem_of_mem_drop hc)
  whole_ne_nil := by
    rw [Ne, List.take_eq_nil_iff]
    exact fun h => h.elim hpos.ne' hne
  places_ne_nil := by
    rw [Ne, List.drop_eq_nil_iff]
    omega
  lead h := by
    rw [List.head?_take, if_neg hpos.ne'] at h
    exact absurd h hlead

theorem pointed_filled (k : Nat) : Pointed (ds ++ zeros k) ['0'] where
  whole_digits c hc := by
    rcases List.mem_append.mp hc with hc | hc
    · exact hds c hc
    · exact isDigit_of_mem_zeros _ c hc
  places_digits c hc := by
    rw [List.mem_singleton.mp hc]
    rfl
  whole_ne_nil := List.append_ne_nil_of_left_ne_nil hne _
  places_ne_nil := List.cons_ne_nil _ _
  lead h := by
    rw [List.head?_append_of_ne_nil _ hne] at h
    exact absurd h hlead

end

/-- A placed point splits a text that has the value of the digits. -/
theorem placePoint_eq (n : Nat) (hn : 0 < n) (e : Int) :
    ∃ whole places, placePoint (Nat.toDigits 10 n) ((Nat.toDigits 10 n).length + e) =
      whole ++ '.' :: places ∧ Pointed whole places ∧ valueOf whole places = n * 10 ^ e := by
  have hds := isDigit_of_mem_toDigits n
  have hval : Nat.ofDigitChars 10 (Nat.toDigits 10 n) 0 = n := Nat.ofDigitChars_ten_toDigits
  have hne : Nat.toDigits 10 n ≠ [] := Nat.toDigits_ne_nil
  have hlead := head?_toDigits n hn
  generalize Nat.toDigits 10 n = ds at hds hval hne hlead ⊢
  have hlen : 0 < ds.length := List.length_pos_iff.mpr hne
  simp only [placePoint]
  split
  · refine ⟨['0'], zeros (-(ds.length + e)).toNat ++ ds, rfl, pointed_behind hds hne _, ?_⟩
    simp only [valueOf, zeros]
    have hz :
        Nat.ofDigitChars 10 (['0'] ++ (List.replicate (-(ds.length + e)).toNat '0' ++ ds)) 0 =
          n := by
      rw [Nat.ofDigitChars_append, Nat.ofDigitChars_append, Nat.ofDigitChars_replicate_zero]
      simp [Nat.ofDigitChars_cons, hval]
    rw [hz, List.length_append, List.length_replicate]
    congr 2
    push_cast
    omega
  · split
    · refine ⟨ds.take (ds.length + e).toNat, ds.drop (ds.length + e).toNat, rfl,
        pointed_between hds hne hlead _ (by omega) (by omega), ?_⟩
      simp only [valueOf]
      rw [List.take_append_drop, hval, List.length_drop]
      congr 2
      omega
    · refine ⟨ds ++ zeros ((ds.length + e).toNat - ds.length), ['0'], by simp,
        pointed_filled hds hne hlead _, ?_⟩
      have he : 0 ≤ e := by omega
      obtain ⟨k, rfl⟩ := Int.eq_ofNat_of_zero_le he
      have hk : (ds.length + (k : Int)).toNat - ds.length = k := by omega
      simp only [valueOf, zeros]
      rw [hk, Nat.ofDigitChars_append, Nat.ofDigitChars_append, hval,
        Nat.ofDigitChars_replicate_zero]
      simp [Nat.ofDigitChars_cons]
      ring

/-- The text of a finite number splits at its point, and its digits are read as the number. -/
theorem positional_eq (x : Binary64) (hf : x.isFinite = true) :
    ∃ whole places, (positional x).toList =
      (if x.isNegative then ['-'] else []) ++ (whole ++ '.' :: places) ∧ Pointed whole places ∧
      Binary64.ofDecimal x.isNegative (Nat.ofDigitChars 10 (whole ++ places) 0)
        (-(places.length : Int)) = x := by
  have hsigned : ∀ text, (signed x text).toList = (if x.isNegative then ['-'] else []) ++ text := by
    intro text
    simp only [signed]
    split <;> simp
  by_cases hz : x.isZero = true
  · refine ⟨['0'], ['0'], ?_, ⟨by simp, by simp, by simp, by simp, by simp⟩, ?_⟩
    · simp only [positional, shortest]
      rw [if_pos hz]
      simp [hsigned]
    · have : Nat.ofDigitChars 10 (['0'] ++ ['0']) 0 = 0 := rfl
      rw [this]
      unfold Binary64.ofDecimal
      dsimp only
      rw [if_pos (.inl rfl), Binary64.zero_of_isZero x hz]
  · have hz' : x.isZero = false := Bool.eq_false_iff.mpr hz
    have hreach := shortest_inReach x hf hz'
    have hpos := hreach.pos (x.normalized hf hz')
    have hn : 0 < (shortest x).digits := by
      rcases Nat.eq_zero_or_pos (shortest x).digits with h0 | h0
      · rw [Scaled.toRat, h0] at hpos
        simp at hpos
      · exact h0
    obtain ⟨whole, places, htext, hpointed, hvalue⟩ := placePoint_eq _ hn (shortest x).exponent
    refine ⟨whole, places, ?_, hpointed, ?_⟩
    · unfold positional
      dsimp only
      rw [if_neg hn.ne', hsigned, htext]
    · apply Binary64.ofDecimal_of_inReach x hf hz'
      change Binary64.InReach _ _ _ (valueOf whole places)
      rw [hvalue]
      exact hreach

end Decimal

end LayeredConfig
