import Mathlib.Data.Int.Log
import Mathlib.Data.Rat.Floor
import Mathlib.Tactic.FieldSimp
import Mathlib.Tactic.Linarith
import Mathlib.Tactic.NormNum
import Mathlib.Tactic.Positivity
import Mathlib.Tactic.Ring
import LayeredConfig.Decimal.Binary64

/-!
# Rounding to binary64

A ratio is rounded to a finite magnitude just when it lies in the reach of that magnitude:
between the middles to its two neighbours, the middles included when the significand is even.
The reach below a power of two is half as wide.
-/

set_option autoImplicit false

namespace LayeredConfig.Binary64

def IsNearest (m : Nat) (r : ℚ) : Prop :=
  if m % 2 = 0 then (m : ℚ) - 1 / 2 ≤ r ∧ r ≤ m + 1 / 2 else (m : ℚ) - 1 / 2 < r ∧ r < m + 1 / 2

theorem roundDiv_eq (num den m : Nat) (hden : 0 < den) (h : IsNearest m (num / den)) :
    roundDiv num den = m := by
  have hd : (0 : ℚ) < den := by exact_mod_cast hden
  have hsplit : num = den * (num / den) + num % den := (Nat.div_add_mod num den).symm
  have hlt : num % den < den := Nat.mod_lt num hden
  simp only [roundDiv]
  generalize num / den = k at hsplit ⊢
  generalize num % den = r at hsplit hlt ⊢
  -- both bounds of the reach, without the fractions
  have hb : 2 * m * den ≤ 2 * num + den ∧ 2 * num ≤ 2 * m * den + den ∧
      (m % 2 = 1 → 2 * m * den < 2 * num + den ∧ 2 * num < 2 * m * den + den) := by
    simp only [IsNearest] at h
    rw [sub_le_iff_le_add, sub_lt_iff_lt_add] at h
    have hq : (num : ℚ) / den * den = num := div_mul_cancel₀ _ hd.ne'
    split at h
    · rename_i he
      have hl := mul_le_mul_of_nonneg_right h.1 hd.le
      have hh := mul_le_mul_of_nonneg_right h.2 hd.le
      rw [add_mul, hq] at hl hh
      refine ⟨?_, ?_, fun ho => by omega⟩
      · have : (2 * m * den : ℚ) ≤ 2 * num + den := by linarith
        exact_mod_cast this
      · have : (2 * num : ℚ) ≤ 2 * m * den + den := by linarith
        exact_mod_cast this
    · have hl := mul_lt_mul_of_pos_right h.1 hd
      have hh := mul_lt_mul_of_pos_right h.2 hd
      rw [add_mul, hq] at hl hh
      have hl' : (2 * m * den : ℚ) < 2 * num + den := by linarith
      have hh' : (2 * num : ℚ) < 2 * m * den + den := by linarith
      have hl'' : 2 * m * den < 2 * num + den := by exact_mod_cast hl'
      have hh'' : 2 * num < 2 * m * den + den := by exact_mod_cast hh'
      exact ⟨hl''.le, hh''.le, fun _ => ⟨hl'', hh''⟩⟩
  obtain ⟨hl, hh, hodd⟩ := hb
  subst hsplit
  have hk : k = m ∨ k + 1 = m := by
    rcases Nat.lt_trichotomy k m with hlt' | heq | hgt
    · right
      by_contra hne
      have : (k + 2) * den ≤ m * den := Nat.mul_le_mul_right den (by omega)
      nlinarith
    · exact .inl heq
    · have : (m + 1) * den ≤ k * den := Nat.mul_le_mul_right den hgt
      nlinarith
  rcases hk with rfl | rfl
  · have hr : 2 * r ≤ den := by nlinarith
    have hr' : k % 2 = 1 → 2 * r < den := fun ho => by nlinarith [(hodd ho).2]
    grind
  · have hr : den ≤ 2 * r := by nlinarith
    have hr' : (k + 1) % 2 = 1 → den < 2 * r := fun ho => by nlinarith [(hodd ho).1]
    grind

theorem ratio_den_pos (m : Nat) (e : Int) : 0 < (ratio m e).2 := by
  simp only [ratio]
  split
  · exact Nat.one_pos
  · exact Nat.pow_pos (by decide)

theorem ratio_eq (m : Nat) (e : Int) : ((ratio m e).1 : ℚ) / (ratio m e).2 = m * 2 ^ e := by
  simp only [ratio]
  split
  · rename_i h
    obtain ⟨n, rfl⟩ := Int.eq_ofNat_of_zero_le h
    simp
  · rename_i h
    obtain ⟨n, hn⟩ := Int.eq_ofNat_of_zero_le (show 0 ≤ -e by omega)
    obtain rfl : e = -(n : Int) := by omega
    simp [div_eq_mul_inv]

theorem binaryExponent_eq (num den : Nat) (hnum : 0 < num) (hden : 0 < den) :
    binaryExponent num den = Int.log 2 ((num : ℚ) / den) := by
  have hn : (0 : ℚ) < num := by exact_mod_cast hnum
  have hd : (0 : ℚ) < den := by exact_mod_cast hden
  have hr : (0 : ℚ) < (num : ℚ) / den := div_pos hn hd
  have hn1 : (2 : ℚ) ^ (Nat.log2 num) ≤ num := by exact_mod_cast Nat.log2_self_le hnum.ne'
  have hn2 : (num : ℚ) < 2 ^ (Nat.log2 num + 1) := by exact_mod_cast Nat.lt_log2_self
  have hd1 : (2 : ℚ) ^ (Nat.log2 den) ≤ den := by exact_mod_cast Nat.log2_self_le hden.ne'
  have hd2 : (den : ℚ) < 2 ^ (Nat.log2 den + 1) := by exact_mod_cast Nat.lt_log2_self
  rw [binaryExponent]
  generalize he : (Nat.log2 num : Int) - Nat.log2 den = e
  have hpow : ∀ a b : Nat, (2 : ℚ) ^ a / 2 ^ b = 2 ^ ((a : Int) - b) := fun a b => by
    rw [zpow_sub₀ two_ne_zero, zpow_natCast, zpow_natCast]
  have hlow : e - 1 ≤ Int.log 2 ((num : ℚ) / den) := by
    rw [← Int.zpow_le_iff_le_log Nat.one_lt_two hr]
    have h := div_le_div₀ hn.le hn1 hd hd2.le
    rw [hpow] at h
    have : (Nat.log2 num : Int) - (Nat.log2 den + 1 : Nat) = e - 1 := by push_cast; omega
    rwa [this] at h
  have hhigh : Int.log 2 ((num : ℚ) / den) < e + 1 := by
    rw [← Int.lt_zpow_iff_log_lt Nat.one_lt_two hr]
    have h := div_lt_div₀ hn2 hd1 (by positivity) (by positivity)
    rw [hpow] at h
    have : ((Nat.log2 num + 1 : Nat) : Int) - (Nat.log2 den : Nat) = e + 1 := by push_cast; omega
    rwa [this] at h
  have hle : ((ratio den e).1 ≤ num * (ratio den e).2) ↔ e ≤ Int.log 2 ((num : ℚ) / den) := by
    have hp : (0 : ℚ) < (ratio den e).2 := by exact_mod_cast ratio_den_pos den e
    rw [← Int.zpow_le_iff_le_log Nat.one_lt_two hr, le_div_iff₀ hd]
    have := ratio_eq den e
    rw [div_eq_iff hp.ne'] at this
    rw [← Nat.cast_le (α := ℚ), this]
    push_cast
    rw [mul_le_mul_iff_left₀ hp, mul_comm]
  dsimp only
  split
  · rename_i h
    have := hle.1 h
    omega
  · rename_i h
    have := mt hle.2 h
    omega

theorem nearestPattern_eq (num den m : Nat) (unit : Int) (hnum : 0 < num) (hden : 0 < den)
    (hu : max (Int.log 2 ((num : ℚ) / den) - 52) (-1074) = unit)
    (hm : IsNearest m ((num : ℚ) / den / 2 ^ unit)) :
    nearestPattern num den = min ((unit + 1074).toNat * fractionCount + m) infinityBits := by
  rw [nearestPattern]
  rw [if_neg (by omega), binaryExponent_eq num den hnum hden, hu]
  have hd : (den : ℚ) ≠ 0 := by exact_mod_cast hden.ne'
  dsimp only
  split
  · rename_i h
    obtain ⟨n, rfl⟩ := Int.eq_ofNat_of_zero_le h
    have hr : roundDiv num (den * Nat.pow 2 n) = m := by
      apply roundDiv_eq _ _ _ (Nat.mul_pos hden (Nat.pow_pos (by decide)))
      push_cast at hm ⊢
      rwa [zpow_natCast, div_div] at hm
    simp only [Int.toNat_natCast, Nat.pow_eq] at hr ⊢
    rw [hr]
  · rename_i h
    obtain ⟨n, hn⟩ := Int.eq_ofNat_of_zero_le (show 0 ≤ -unit by omega)
    have hr : roundDiv (num * Nat.pow 2 n) den = m := by
      apply roundDiv_eq _ _ _ hden
      obtain rfl : unit = -(n : Int) := by omega
      rw [zpow_neg, zpow_natCast, div_inv_eq_mul] at hm
      rw [Nat.pow_eq]
      push_cast
      rwa [mul_div_right_comm]
    simp only [hn, Int.toNat_natCast, Nat.pow_eq] at hr ⊢
    rw [hr]

/-- The numbers that round to `m * 2 ^ q`: four quarters of a unit make the significand `m`,
and below a power of two the next number is only half a unit away. -/
def InReach (m : Nat) (q : Int) (narrowBelow : Bool) (r : ℚ) : Prop :=
  let low : ℚ := (4 * m - (if narrowBelow then 1 else 2)) * 2 ^ (q - 2)
  let high : ℚ := (4 * m + 2) * 2 ^ (q - 2)
  if m % 2 = 0 then low ≤ r ∧ r ≤ high else low < r ∧ r < high

structure Normalized (m : Nat) (q : Int) (narrowBelow : Bool) : Prop where
  pos : 0 < m
  lt : m < 2 ^ 53
  low : -1074 ≤ q
  high : q ≤ 971
  full : 2 ^ 52 ≤ m ∨ q = -1074
  narrow : narrowBelow = true ↔ m = 2 ^ 52 ∧ -1074 < q

def narrowBelow (x : Binary64) : Bool := x.fraction == 0 && decide (1 < x.exponentField)

theorem normalized (x : Binary64) (hf : x.isFinite = true) (hz : x.isZero = false) :
    Normalized x.significand x.scale x.narrowBelow := by
  have hfin : x.magnitude < 2047 * 2 ^ 52 := of_decide_eq_true hf
  have hpos : x.magnitude ≠ 0 := by simpa [isZero] using hz
  have hE : x.exponentField = x.magnitude / 2 ^ 52 := rfl
  have hF : x.fraction = x.magnitude % 2 ^ 52 := rfl
  simp only [significand, scale, narrowBelow]
  rw [show fractionCount = 2 ^ 52 from rfl]
  constructor
  · split <;> omega
  · split <;> omega
  · omega
  · omega
  · split <;> omega
  · simp only [Bool.and_eq_true, beq_iff_eq, decide_eq_true_eq]
    split <;> omega

theorem magnitude_eq (x : Binary64) :
    x.magnitude = (x.scale + 1074).toNat * fractionCount + x.significand := by
  have hE : x.exponentField = x.magnitude / 2 ^ 52 := rfl
  have hF : x.fraction = x.magnitude % 2 ^ 52 := rfl
  simp only [significand, scale]
  rw [show fractionCount = 2 ^ 52 from rfl]
  split <;> omega

variable {m : Nat} {q : Int} {narrow : Bool} {r : ℚ}

theorem unit_pos (q : Int) : (0 : ℚ) < 2 ^ q := zpow_pos two_pos q

theorem four_quarters (q : Int) : (2 : ℚ) ^ q = 4 * 2 ^ (q - 2) := by
  have h : (2 : ℚ) ^ q = 2 ^ (2 : Int) * 2 ^ (q - 2) := by
    rw [← zpow_add₀ two_ne_zero, add_sub_cancel]
  rw [h]
  norm_num

theorem InReach.bounds (h : InReach m q narrow r) :
    ((m : ℚ) - 1 / 2) * 2 ^ q ≤ r ∧ r ≤ (m + 1 / 2) * 2 ^ q := by
  have hq := unit_pos (q - 2)
  rw [four_quarters]
  unfold InReach at h
  dsimp only at h
  have hl : (4 * (m : ℚ) - 2) * 2 ^ (q - 2) ≤ (4 * m - if narrow then 1 else 2) * 2 ^ (q - 2) := by
    apply mul_le_mul_of_nonneg_right _ hq.le
    split <;> linarith
  split at h
  · constructor <;> linarith [h.1, h.2]
  · constructor <;> linarith [h.1, h.2]

theorem InReach.pos (hn : Normalized m q narrow) (h : InReach m q narrow r) : 0 < r := by
  have hm : (1 : ℚ) ≤ m := by exact_mod_cast hn.pos
  have : (0 : ℚ) < (m - 1 / 2) * 2 ^ q := mul_pos (by linarith) (unit_pos q)
  exact this.trans_le h.bounds.1

/-- In its reach a significand is the nearest on its own grid, unless the grid below it is finer
and the number lies there. -/
theorem InReach.isNearest (hn : Normalized m q narrow) (h : InReach m q narrow r)
    (hside : narrow = true → 2 ^ (52 : Int) * 2 ^ q ≤ r) : IsNearest m (r / 2 ^ q) := by
  cases narrow with
  | false =>
    simp only [InReach, Bool.false_eq_true, if_false] at h
    simp only [IsNearest]
    split
    · rename_i he
      rw [if_pos he] at h
      rw [le_div_iff₀ (unit_pos q), div_le_iff₀ (unit_pos q), four_quarters]
      constructor <;> linarith [h.1, h.2]
    · rename_i he
      rw [if_neg he] at h
      rw [lt_div_iff₀ (unit_pos q), div_lt_iff₀ (unit_pos q), four_quarters]
      constructor <;> linarith [h.1, h.2]
  | true =>
    obtain ⟨hm, -⟩ := hn.narrow.1 rfl
    have hge := hside rfl
    simp only [IsNearest]
    rw [if_pos (by rw [hm]; norm_num), le_div_iff₀ (unit_pos q), div_le_iff₀ (unit_pos q)]
    constructor
    · rw [show (2 : ℚ) ^ (52 : Int) = 2 ^ 52 by norm_num] at hge
      rw [hm]
      push_cast
      have := unit_pos q
      linarith
    · exact h.bounds.2

theorem InReach.log_lt (hn : Normalized m q narrow) (h : InReach m q narrow r) :
    Int.log 2 r < q + 53 := by
  rw [← Int.lt_zpow_iff_log_lt Nat.one_lt_two (h.pos hn)]
  have hm : (m : ℚ) + 1 ≤ 2 ^ 53 := by exact_mod_cast hn.lt
  have hq := unit_pos q
  push_cast
  rw [zpow_add₀ two_ne_zero, mul_comm]
  calc r ≤ (m + 1 / 2) * 2 ^ q := h.bounds.2
    _ < 2 ^ (53 : Int) * 2 ^ q := by
      apply mul_lt_mul_of_pos_right _ hq
      have : (2 : ℚ) ^ (53 : Int) = 2 ^ 53 := by norm_num
      linarith

theorem le_log_of_le (hr : 0 < r) (h : (2 : ℚ) ^ (52 : Int) * 2 ^ q ≤ r) :
    q + 52 ≤ Int.log 2 r := by
  rw [← Int.zpow_le_iff_le_log Nat.one_lt_two hr]
  push_cast
  rwa [zpow_add₀ two_ne_zero, mul_comm]

theorem InReach.unit_eq (hn : Normalized m q narrow) (h : InReach m q narrow r)
    (hside : narrow = true → 2 ^ (52 : Int) * 2 ^ q ≤ r) :
    max (Int.log 2 r - 52) (-1074) = q := by
  have hupper := h.log_lt hn
  have hlow := hn.low
  by_cases hq : q = -1074
  · omega
  · have hle : q + 52 ≤ Int.log 2 r := by
      apply le_log_of_le (h.pos hn)
      by_cases hw : narrow = true
      · exact hside hw
      · have hfull := hn.full.resolve_right hq
        have hm : 2 ^ 52 + 1 ≤ m := by
          have := mt hn.narrow.2 hw
          omega
        have hm' : (2 : ℚ) ^ 52 + 1 ≤ m := by exact_mod_cast hm
        rw [show (2 : ℚ) ^ (52 : Int) = 2 ^ 52 by norm_num]
        apply le_trans _ h.bounds.1
        apply mul_le_mul_of_nonneg_right _ (unit_pos q).le
        linarith
    omega

/-- Just below a power of two the grid is twice as fine. -/
theorem InReach.below (hn : Normalized m q true) (h : InReach m q true r)
    (hlt : r < 2 ^ (52 : Int) * 2 ^ q) :
    max (Int.log 2 r - 52) (-1074) = q - 1 ∧ IsNearest (2 ^ 53) (r / 2 ^ (q - 1)) := by
  obtain ⟨hm, hq⟩ := hn.narrow.1 rfl
  have hr := h.pos hn
  have hquarter := unit_pos (q - 2)
  have h52 : (2 : ℚ) ^ (52 : Int) = 2 ^ 52 := by norm_num
  have hge : ((2 : ℚ) ^ 54 - 1) * 2 ^ (q - 2) ≤ r := by
    simp only [InReach] at h
    rw [hm] at h
    norm_num at h ⊢
    exact h.1
  have hhalf : (2 : ℚ) ^ (q - 1) = 2 * 2 ^ (q - 2) := by
    rw [show q - 1 = 1 + (q - 2) by omega, zpow_add₀ two_ne_zero, zpow_one]
  constructor
  · have h1 : Int.log 2 r < q + 52 := by
      rw [← Int.lt_zpow_iff_log_lt Nat.one_lt_two hr]
      push_cast
      rwa [zpow_add₀ two_ne_zero, mul_comm]
    have h2 : (q - 1) + 52 ≤ Int.log 2 r := by
      apply le_log_of_le hr
      rw [hhalf, h52]
      linarith
    omega
  · simp only [IsNearest]
    rw [if_pos (by norm_num), le_div_iff₀ (unit_pos _), div_le_iff₀ (unit_pos _), hhalf]
    rw [h52, four_quarters q] at hlt
    push_cast
    constructor <;> linarith

/-- What lies in the reach of a finite number rounds to it. -/
theorem nearestPattern_of_inReach (num den : Nat) (hden : 0 < den) (hn : Normalized m q narrow)
    (h : InReach m q narrow ((num : ℚ) / den)) :
    nearestPattern num den = (q + 1074).toNat * fractionCount + m := by
  have hnum : 0 < num := by
    have hd : (0 : ℚ) < den := by exact_mod_cast hden
    have hr : (0 : ℚ) < num := by
      rw [← div_pos_iff_of_pos_right hd]
      exact h.pos hn
    exact_mod_cast hr
  have hfin : (q + 1074).toNat * fractionCount + m < infinityBits := by
    have := hn.lt
    have := hn.high
    have := hn.low
    simp only [infinityBits, fractionCount]
    omega
  by_cases hside : narrow = true → 2 ^ (52 : Int) * 2 ^ q ≤ (num : ℚ) / den
  · rw [nearestPattern_eq num den m q hnum hden (h.unit_eq hn hside) (h.isNearest hn hside)]
    exact min_eq_left hfin.le
  · obtain ⟨hw, hlt⟩ := Classical.not_imp.mp hside
    subst hw
    obtain ⟨hunit, hnear⟩ := h.below hn (not_le.mp hlt)
    obtain ⟨hm, hq⟩ := hn.narrow.1 rfl
    rw [nearestPattern_eq num den (2 ^ 53) (q - 1) hnum hden hunit hnear, hm]
    rw [hm] at hfin
    simp only [fractionCount] at hfin ⊢
    omega

theorem roundDiv_le (num den : Nat) : roundDiv num den ≤ num / den + 1 := by
  unfold roundDiv
  dsimp only
  split
  · omega
  · split
    · omega
    · omega

theorem nearestPattern_one_lt (n : Nat) (hn : n < 2 ^ 64) : nearestPattern n 1 < infinityBits := by
  rcases Nat.eq_zero_or_pos n with rfl | hpos
  · decide
  · have hlog : Int.log 2 ((n : ℚ) / (1 : Nat)) = (Nat.log 2 n : Int) := by
      rw [Nat.cast_one, div_one]
      exact Int.log_natCast 2 n
    have hbound : Nat.log 2 n < 64 := Nat.log_lt_of_lt_pow hpos.ne' hn
    have hpow : n < 2 ^ (Nat.log 2 n + 1) := Nat.lt_pow_succ_log_self Nat.one_lt_two n
    rw [nearestPattern]
    rw [if_neg (by omega), binaryExponent_eq n 1 hpos Nat.one_pos, hlog]
    generalize Nat.log 2 n = k at hbound hpow
    -- the significand has at most 53 bits before it is rounded
    obtain ⟨unit, hunit, heq⟩ : ∃ unit : Int, unit = k - 52 ∧ max ((k : Int) - 52) (-1074) = unit :=
      ⟨_, rfl, by omega⟩
    rw [heq]
    dsimp only
    have hfinite : ∀ m, m ≤ 2 ^ 53 →
        min ((unit + 1074).toNat * fractionCount + m) infinityBits < infinityBits := by
      intro m hm
      rw [min_lt_iff]
      left
      simp only [infinityBits, fractionCount]
      omega
    split
    · have hdiv : n / (1 * Nat.pow 2 unit.toNat) < 2 ^ 53 := by
        rw [Nat.one_mul, Nat.pow_eq, Nat.div_lt_iff_lt_mul (Nat.pow_pos Nat.zero_lt_two),
          ← Nat.pow_add]
        exact hpow.trans_le (Nat.pow_le_pow_right Nat.zero_lt_two (by omega))
      exact hfinite _ ((roundDiv_le n (1 * Nat.pow 2 unit.toNat)).trans hdiv)
    · have hmul : n * Nat.pow 2 (-unit).toNat / 1 < 2 ^ 53 := by
        have hlt :=
          Nat.mul_lt_mul_of_pos_right hpow (Nat.pow_pos (n := (-unit).toNat) Nat.zero_lt_two)
        rw [← Nat.pow_add, show k + 1 + (-unit).toNat = 53 by omega] at hlt
        rwa [Nat.div_one]
      exact hfinite _ ((roundDiv_le (n * Nat.pow 2 (-unit).toNat) 1).trans hmul)

theorem ofInt_isFinite (n : Int) (hlow : -0x8000000000000000 ≤ n)
    (hhigh : n < 0x10000000000000000) :
    (ofInt n).isFinite = true := by
  have hpattern := nearestPattern_one_lt n.natAbs (by omega)
  have hinf : infinityBits < signBit := by decide
  simp only [ofInt, ofRatio, isFinite]
  apply decide_eq_true
  generalize nearestPattern n.natAbs 1 = p at hpattern
  simp only [ofPattern, magnitude]
  rw [UInt64.toNat_ofNat']
  simp only [signBit] at hinf ⊢
  split
  · omega
  · omega

end LayeredConfig.Binary64
