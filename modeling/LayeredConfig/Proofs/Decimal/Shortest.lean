import Mathlib.Data.Nat.Cast.Order.Field
import LayeredConfig.Decimal.Shortest
import LayeredConfig.Proofs.Decimal.Nearest

/-!
# The shortest decimal reads back

The candidates that `shortest` tries are checked to lie in the reach of the number, and on
the grid of 17 digits the nearest one always does, since the step of that grid is less than
the reach is wide. So what is found reads back, and stripping zeros does not change it.
-/

set_option autoImplicit false

namespace LayeredConfig.Decimal

open Binary64

namespace Scaled

def toRat (s : Scaled) : ℚ := s.digits * 10 ^ s.exponent

theorem toRat_strip (fuel : Nat) (s : Scaled) : (strip fuel s).toRat = s.toRat := by
  induction fuel generalizing s with
  | zero => rfl
  | succ fuel ih =>
    simp only [strip]
    split
    · rename_i h
      rw [ih]
      have hdigits : s.digits = 10 * (s.digits / 10) := by omega
      simp only [toRat]
      conv_rhs => rw [hdigits]
      push_cast
      rw [zpow_add₀ (by norm_num : (10 : ℚ) ≠ 0), zpow_one]
      ring
    · rfl

end Scaled

theorem ten_pos (k : Int) : (0 : ℚ) < 10 ^ k := zpow_pos (by norm_num) k

theorem zpow_eq_div (b : ℚ) (e : Int) : b ^ e = b ^ e.toNat / b ^ (-e).toNat := by
  rcases le_total 0 e with h | h
  · obtain ⟨n, rfl⟩ := Int.eq_ofNat_of_zero_le h
    simp
  · obtain ⟨n, hn⟩ := Int.eq_ofNat_of_zero_le (show 0 ≤ -e by omega)
    obtain rfl : e = -(n : Int) := by omega
    simp

theorem scaled_le_iff (bound c : Nat) (q k : Int) :
    (bound * Nat.pow 2 (q - 2).toNat * Nat.pow 10 (-k).toNat ≤
        c * Nat.pow 10 k.toNat * Nat.pow 2 (2 - q).toNat ↔
      (bound : ℚ) * 2 ^ (q - 2) ≤ c * 10 ^ k) ∧
    (c * Nat.pow 10 k.toNat * Nat.pow 2 (2 - q).toNat ≤
        bound * Nat.pow 2 (q - 2).toNat * Nat.pow 10 (-k).toNat ↔
      (c : ℚ) * 10 ^ k ≤ bound * 2 ^ (q - 2)) := by
  have h2 := zpow_eq_div 2 (q - 2)
  rw [neg_sub] at h2
  rw [h2, zpow_eq_div 10 k, mul_div_assoc', mul_div_assoc']
  have hp2 : (0 : ℚ) < 2 ^ (2 - q).toNat := by positivity
  have hp10 : (0 : ℚ) < 10 ^ (-k).toNat := by positivity
  rw [div_le_div_iff₀ hp2 hp10, div_le_div_iff₀ hp10 hp2]
  simp only [Nat.pow_eq]
  constructor
  · rw [← Nat.cast_le (α := ℚ)]
    push_cast
    rfl
  · rw [← Nat.cast_le (α := ℚ)]
    push_cast
    rfl

theorem readsBack_iff (m : Nat) (q : Int) (narrow : Bool) (c : Nat) (k : Int) (hm : 0 < m) :
    readsBack m q narrow c k = true ↔ InReach m q narrow (c * 10 ^ k) := by
  have hlow : ((4 * m - (if narrow then 1 else 2) : Nat) : ℚ) =
      4 * m - if narrow then 1 else 2 := by
    rw [Nat.cast_sub (by split <;> omega)]
    split <;> push_cast <;> rfl
  have hl := scaled_le_iff (4 * m - (if narrow then 1 else 2)) c q k
  have hh := scaled_le_iff (4 * m + 2) c q k
  rw [hlow] at hl
  push_cast at hh
  rw [readsBack, InReach]
  dsimp only
  split
  · rw [Bool.and_eq_true, decide_eq_true_eq, decide_eq_true_eq, hl.1, hh.2]
  · rw [Bool.and_eq_true, decide_eq_true_eq, decide_eq_true_eq, ← not_le, ← not_le, hl.2, hh.1,
      not_le, not_le]

theorem pow_length_le (n : Nat) (hn : 0 < n) : 10 ^ ((Nat.toDigits 10 n).length - 1) ≤ n := by
  by_cases h1 : (Nat.toDigits 10 n).length - 1 = 0
  · rw [h1]
    exact hn
  · by_contra hlt
    have := (Nat.length_toDigits_le_iff (b := 10) (by decide) (Nat.pos_of_ne_zero h1)).2
      (not_le.mp hlt)
    have := Nat.length_toDigits_pos (b := 10) (n := n)
    omega

theorem lt_pow_length (n : Nat) : n < 10 ^ (Nat.toDigits 10 n).length :=
  (Nat.length_toDigits_le_iff (by decide) Nat.length_toDigits_pos).1 le_rfl

theorem decimalExponent_le (num den : Nat) (hnum : 0 < num) (hden : 0 < den) :
    (10 : ℚ) ^ decimalExponent num den ≤ (num : ℚ) / den := by
  have hn : (0 : ℚ) < num := by exact_mod_cast hnum
  have hd : (0 : ℚ) < den := by exact_mod_cast hden
  rw [decimalExponent]
  split
  · rename_i h
    have hq : 0 < num / den := Nat.div_pos h hden
    have hlen := Nat.length_toDigits_pos (b := 10) (n := num / den)
    have hpow := pow_length_le (num / den) hq
    have hexp : ((Nat.toDigits 10 (num / den)).length : Int) - 1 =
        ((Nat.toDigits 10 (num / den)).length - 1 : Nat) := by omega
    rw [hexp, zpow_natCast]
    calc (10 : ℚ) ^ ((Nat.toDigits 10 (num / den)).length - 1)
        ≤ (num / den : Nat) := by exact_mod_cast hpow
      _ ≤ (num : ℚ) / den := Nat.cast_div_le
  · dsimp only
    have hr : den ≤ num * ((den + num - 1) / num) := by
      have hdiv := Nat.div_add_mod (den + num - 1) num
      have hmod := Nat.mod_lt (den + num - 1) hnum
      omega
    generalize (den + num - 1) / num = r at hr ⊢
    have hlt := lt_pow_length (r - 1)
    generalize (Nat.toDigits 10 (r - 1)).length = len at hlt ⊢
    have hpow : den ≤ num * 10 ^ len := hr.trans (Nat.mul_le_mul_left num (by omega))
    have hneg : Int.negOfNat len = -(len : Int) := by cases len <;> rfl
    rw [hneg, zpow_neg, zpow_natCast, inv_le_iff_one_le_mul₀ (by positivity), div_mul_eq_mul_div,
      one_le_div hd]
    exact_mod_cast hpow

theorem roundDiv_near (num den : Nat) (hden : 0 < den) :
    |(roundDiv num den : ℚ) - num / den| ≤ 1 / 2 := by
  have hd : (0 : ℚ) < den := by exact_mod_cast hden
  have hsplit : (num : ℚ) = den * (num / den : Nat) + (num % den : Nat) := by
    exact_mod_cast (Nat.div_add_mod num den).symm
  have hlt : num % den < den := Nat.mod_lt num hden
  have hq : (num : ℚ) / den = (num / den : Nat) + (num % den : Nat) / den := by
    rw [div_eq_iff hd.ne', add_mul, div_mul_cancel₀ _ hd.ne', mul_comm]
    exact hsplit
  rw [hq]
  unfold roundDiv
  generalize num % den = r at hlt ⊢
  generalize num / den = k
  have hr : (0 : ℚ) ≤ (r : ℚ) / den := by positivity
  have hr1 : (r : ℚ) / den < 1 := by
    rw [div_lt_one hd]
    exact_mod_cast hlt
  dsimp only
  rw [abs_le]
  split
  · rename_i h
    have : (r : ℚ) / den ≤ 1 / 2 := by
      have : (2 * r : ℚ) ≤ den := by exact_mod_cast h.le
      rw [div_le_iff₀ hd]
      linarith
    constructor <;> linarith
  · split
    · rename_i h
      have : 1 / 2 ≤ (r : ℚ) / den := by
        have : (den : ℚ) ≤ 2 * r := by exact_mod_cast h.le
        rw [le_div_iff₀ hd]
        linarith
      push_cast
      constructor <;> linarith
    · have hhalf : (r : ℚ) / den = 1 / 2 := by
        have : (2 * r : ℚ) = den := by exact_mod_cast (show 2 * r = den by omega)
        rw [div_eq_iff hd.ne']
        linarith
      rw [hhalf]
      rcases Nat.mod_two_eq_zero_or_one k with he | he
      · rw [he]
        push_cast
        constructor <;> linarith
      · rw [he]
        push_cast
        constructor <;> linarith

variable {m : Nat} {q : Int} {narrow : Bool}

/-- Less than the narrowest half of its reach away from a number. -/
theorem inReach_of_near (r : ℚ)
    (h : |r - m * 2 ^ q| < (if narrow then 1 / 4 else 1 / 2) * 2 ^ q) : InReach m q narrow r := by
  rw [four_quarters, abs_lt] at h
  have hq := unit_pos (q - 2)
  obtain ⟨hl, hh⟩ := h
  have hlow : (4 * (m : ℚ) - if narrow then 1 else 2) * 2 ^ (q - 2) < r := by
    cases narrow
    · simp only [Bool.false_eq_true, if_false] at hl ⊢
      linarith
    · simp only [if_true] at hl ⊢
      linarith
  have hhigh : r < (4 * (m : ℚ) + 2) * 2 ^ (q - 2) := by
    cases narrow
    · simp only [Bool.false_eq_true, if_false] at hh
      linarith
    · simp only [if_true] at hh
      linarith
  unfold InReach
  dsimp only
  split
  · exact ⟨hlow.le, hhigh.le⟩
  · exact ⟨hlow, hhigh⟩

def onGrid (m : Nat) (q k : Int) : Nat × Nat :=
  if 0 ≤ k then ((ratio m q).1, (ratio m q).2 * Nat.pow 10 k.toNat)
  else ((ratio m q).1 * Nat.pow 10 (-k).toNat, (ratio m q).2)

theorem onGrid_den_pos (m : Nat) (q k : Int) : 0 < (onGrid m q k).2 := by
  simp only [onGrid]
  split
  · exact Nat.mul_pos (ratio_den_pos m q) (Nat.pow_pos (by decide))
  · exact ratio_den_pos m q

theorem onGrid_eq (m : Nat) (q k : Int) :
    ((onGrid m q k).1 : ℚ) / (onGrid m q k).2 * 10 ^ k = m * 2 ^ q := by
  rw [← ratio_eq m q]
  have h10 : (10 : ℚ) ^ k ≠ 0 := (ten_pos k).ne'
  simp only [onGrid]
  split
  · rename_i h
    obtain ⟨n, rfl⟩ := Int.eq_ofNat_of_zero_le h
    rw [zpow_natCast] at h10 ⊢
    simp only [Int.toNat_natCast, Nat.pow_eq]
    push_cast
    rw [← div_div, div_mul_cancel₀ _ h10]
  · rename_i h
    obtain ⟨n, hn⟩ := Int.eq_ofNat_of_zero_le (show 0 ≤ -k by omega)
    obtain rfl : k = -(n : Int) := by omega
    rw [hn]
    simp only [Int.toNat_natCast, Nat.pow_eq]
    push_cast
    rw [zpow_neg, zpow_natCast, mul_div_right_comm]
    exact mul_inv_cancel_right₀ (by positivity) _

theorem roundDiv_eq_upper (num den : Nat) :
    roundDiv num den =
      if decide (den < 2 * (num % den)) || (2 * (num % den) == den && num / den % 2 == 1) then
        num / den + 1 else num / den := by
  unfold roundDiv
  dsimp only
  split
  · rw [if_neg]
    simp only [Bool.or_eq_true, decide_eq_true_eq, Bool.and_eq_true, beq_iff_eq]
    omega
  · split
    · rename_i h
      rw [if_pos (by simp [h])]
    · rename_i h h'
      rcases Nat.mod_two_eq_zero_or_one (num / den) with he | he
      · rw [if_neg (by simp [he, h']), he]
        rfl
      · rw [if_pos (by simp [he]; omega), he]

theorem readsBack_of_candidate (lead : Int) (n : Nat) (s : Scaled)
    (h : candidate m q narrow lead n = some s) :
    readsBack m q narrow s.digits s.exponent = true := by
  have checked : ∀ first second : Nat,
      (if readsBack m q narrow first (lead - n + 1) then some (⟨first, lead - n + 1⟩ : Scaled)
        else if readsBack m q narrow second (lead - n + 1) then some ⟨second, lead - n + 1⟩
        else none) = some s → readsBack m q narrow s.digits s.exponent = true := by
    intro first second hs
    split at hs
    · rename_i hb
      cases hs
      exact hb
    · split at hs
      · rename_i hb
        cases hs
        exact hb
      · cases hs
  exact checked _ _ h

theorem candidate_isSome (lead : Int) (n : Nat)
    (h : readsBack m q narrow
      (roundDiv (onGrid m q (lead - n + 1)).1 (onGrid m q (lead - n + 1)).2)
      (lead - n + 1) = true) :
    (candidate m q narrow lead n).isSome = true := by
  rw [roundDiv_eq_upper] at h
  rw [onGrid] at h
  rw [candidate]
  dsimp only
  rw [if_pos h]
  rfl

/-- On the grid of 17 digits the nearest point reads back. -/
theorem candidate_seventeen (hn : Normalized m q narrow) (lead : Int)
    (hlead : (10 : ℚ) ^ lead ≤ m * 2 ^ q) : (candidate m q narrow lead 17).isSome = true := by
  apply candidate_isSome
  rw [readsBack_iff _ _ _ _ _ hn.pos]
  apply inReach_of_near
  generalize hk : lead - (17 : Nat) + 1 = k
  have hstep : (10 : ℚ) ^ k * 10 ^ 16 ≤ m * 2 ^ q := by
    have : (10 : ℚ) ^ lead = 10 ^ k * 10 ^ 16 := by
      rw [← zpow_natCast, ← zpow_add₀ (by norm_num)]
      congr 1
      push_cast at hk ⊢
      omega
    rwa [← this]
  rw [← onGrid_eq m q k, ← sub_mul, abs_mul, abs_of_pos (ten_pos k)]
  have hnear := roundDiv_near (onGrid m q k).1 (onGrid m q k).2 (onGrid_den_pos m q k)
  have hq := unit_pos q
  refine (mul_le_mul_of_nonneg_right hnear (ten_pos k).le).trans_lt ?_
  cases hw : narrow with
  | true =>
    have hm : (m : ℚ) = 2 ^ 52 := by exact_mod_cast (hn.narrow.1 hw).1
    rw [hm] at hstep
    simp only [if_true]
    linarith
  | false =>
    have hm : (m : ℚ) < 2 ^ 53 := by exact_mod_cast hn.lt
    have := mul_lt_mul_of_pos_right hm hq
    simp only [Bool.false_eq_true, if_false]
    linarith

/-- The shortest decimal of a finite number other than zero is in its reach. -/
theorem shortest_inReach (x : Binary64) (hf : x.isFinite = true) (hz : x.isZero = false) :
    InReach x.significand x.scale x.narrowBelow (shortest x).toRat := by
  have hn := x.normalized hf hz
  have hnum : 0 < (ratio x.significand x.scale).1 := by
    simp only [ratio]
    have := hn.pos
    split
    · exact Nat.mul_pos this (Nat.pow_pos (by decide))
    · exact this
  have hlead := decimalExponent_le _ _ hnum (ratio_den_pos x.significand x.scale)
  rw [ratio_eq] at hlead
  simp only [shortest]
  rw [hz]
  simp only [Bool.false_eq_true, if_false]
  rw [Scaled.toRat_strip]
  change InReach _ _ _ (Scaled.toRat (Option.getD ((List.range 17).findSome? fun n =>
    candidate x.significand x.scale x.narrowBelow _ (n + 1)) _))
  rcases hs : (List.range 17).findSome? fun n => candidate x.significand x.scale x.narrowBelow
    (decimalExponent (ratio x.significand x.scale).1 (ratio x.significand x.scale).2) (n + 1) with
    _ | s
  · rw [List.findSome?_eq_none_iff] at hs
    have hnone := hs 16 (by decide)
    have hsome := candidate_seventeen hn _ hlead
    rw [hnone] at hsome
    cases hsome
  · rw [Option.getD_some]
    obtain ⟨n, -, hc⟩ := List.exists_of_findSome?_eq_some hs
    exact (readsBack_iff _ _ _ _ _ hn.pos).1 (readsBack_of_candidate _ _ s hc)

end LayeredConfig.Decimal
