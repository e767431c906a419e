import FormulaPlot.Proofs.Number.Bits
import Mathlib.Data.Int.Log
import Mathlib.Data.Rat.Floor
import Mathlib.Tactic.FieldSimp
import Mathlib.Tactic.Ring

/-!
# Proofs/Number/Nearest — a double's own value rounds to it

`nearest num den` computes on a numerator and a denominator, but it is their ratio that counts: the
binary exponent is its logarithm (`binaryExponent_eq_log`), and the integer nearest to a quotient
does not change when both sides are multiplied by one number (`roundToEven_congr`).  So the
magnitude of a double rounds to the double, however it is written as a quotient (`nearest_eq_self`).
-/

namespace FormulaPlot.Number

/-! ## Scaled quotients -/

theorem scaled_of_nonneg (base n k : Nat) : scaled base n k = n * base ^ k := rfl

theorem scaled_neg (base n k : Nat) : scaled base n (-(k : Int)) = n :=
  scaled_of_nonpos base n (by omega)

/-- **Scaling the two sides** scales the ratio. -/
theorem cast_scaled_div {base : Nat} (hbase : 0 < base) (n m : Nat) (k : Int) :
    (scaled base n k : ℚ) / scaled base m (-k) = n / m * (base : ℚ) ^ k := by
  have hne : (base : ℚ) ≠ 0 := Nat.cast_ne_zero.2 (Nat.pos_iff_ne_zero.1 hbase)
  obtain ⟨j, rfl | rfl⟩ := Int.eq_nat_or_neg k
  · rw [scaled_of_nonneg, scaled_neg, zpow_natCast]
    push_cast
    ring
  · rw [neg_neg, scaled_of_nonneg, scaled_neg, zpow_neg, zpow_natCast]
    push_cast
    field_simp

theorem scaled_pos {base n : Nat} (hbase : 0 < base) (hn : 0 < n) (k : Int) :
    0 < scaled base n k := Nat.mul_pos hn (Nat.pow_pos hbase)

/-- Equal ratios are equal cross products. -/
theorem div_eq_div_iff_mul {num den num' den' : Nat} (hden : 0 < den) (hden' : 0 < den') :
    (num : ℚ) / den = num' / den' ↔ num * den' = num' * den := by
  rw [div_eq_div_iff (by positivity) (by positivity)]
  exact_mod_cast Iff.rfl

/-! ## The integer nearest to a quotient -/

theorem roundToEven_mul_left {c : Nat} (hc : 0 < c) (num den : Nat) :
    roundToEven (c * num) (c * den) = roundToEven num den := by
  have hfloor : c * num / (c * den) = num / den := Nat.mul_div_mul_left num den hc
  have hmod : 2 * (c * num % (c * den)) = c * (2 * (num % den)) := by
    rw [Nat.mul_mod_mul_left]
    ring
  simp only [roundToEven, hfloor, hmod, Nat.mul_lt_mul_left hc]

/-- **The integer nearest to a quotient** depends on the ratio alone. -/
theorem roundToEven_congr {num den num' den' : Nat} (hden : 0 < den) (hden' : 0 < den')
    (h : (num : ℚ) / den = num' / den') : roundToEven num den = roundToEven num' den' := by
  have hcross : num * den' = num' * den := (div_eq_div_iff_mul hden hden').1 h
  calc roundToEven num den
      = roundToEven (den' * num) (den' * den) := (roundToEven_mul_left hden' num den).symm
    _ = roundToEven (den * num') (den * den') := by
        rw [Nat.mul_comm den' num, hcross, Nat.mul_comm num' den, Nat.mul_comm den' den]
    _ = roundToEven num' den' := roundToEven_mul_left hden num' den'

/-! ## Binary exponents -/

section Log

variable {num den : Nat} (hnum : 0 < num) (hden : 0 < den)
include hnum hden

/-- The power of two between the sizes of two numbers is next to the logarithm of their ratio. -/
theorem log_near_log2 :
    (num.log2 - den.log2 - 1 : ℤ) ≤ Int.log 2 ((num : ℚ) / den)
      ∧ Int.log 2 ((num : ℚ) / den) ≤ (num.log2 - den.log2 : ℤ) := by
  have hratio : 0 < (num : ℚ) / den := by positivity
  have hnumLow : (2 : ℚ) ^ num.log2 ≤ num := by
    exact_mod_cast Nat.log2_self_le (Nat.pos_iff_ne_zero.1 hnum)
  have hnumHigh : (num : ℚ) < 2 ^ (num.log2 + 1) := by exact_mod_cast Nat.lt_log2_self
  have hdenLow : (2 : ℚ) ^ den.log2 ≤ den := by
    exact_mod_cast Nat.log2_self_le (Nat.pos_iff_ne_zero.1 hden)
  have hdenHigh : (den : ℚ) < 2 ^ (den.log2 + 1) := by exact_mod_cast Nat.lt_log2_self
  constructor
  · have hpow : ((2 : ℕ) : ℚ) ^ (num.log2 - den.log2 - 1 : ℤ)
        = 2 ^ num.log2 / 2 ^ (den.log2 + 1) := by
      rw [Int.sub_sub, Nat.cast_ofNat, zpow_sub₀ two_ne_zero]
      exact_mod_cast rfl
    rw [← Int.zpow_le_iff_le_log one_lt_two hratio, hpow]
    exact div_le_div₀ (by positivity) hnumLow (by positivity) hdenHigh.le
  · have hpow : ((2 : ℕ) : ℚ) ^ (num.log2 - den.log2 + 1 : ℤ)
        = 2 ^ (num.log2 + 1) / 2 ^ den.log2 := by
      rw [show (num.log2 - den.log2 + 1 : ℤ) = num.log2 + 1 - den.log2 by ring, Nat.cast_ofNat,
        zpow_sub₀ two_ne_zero]
      exact_mod_cast rfl
    rw [← Int.lt_add_one_iff, ← Int.lt_zpow_iff_log_lt one_lt_two hratio, hpow]
    exact div_lt_div₀ hnumHigh hdenLow (by positivity) (by positivity)

/-- **The binary exponent is the logarithm of the ratio.** -/
theorem binaryExponent_eq_log : binaryExponent num den = Int.log 2 ((num : ℚ) / den) := by
  have hratio : 0 < (num : ℚ) / den := by positivity
  obtain ⟨hlow, hhigh⟩ := log_near_log2 hnum hden
  have htest (e : ℤ) :
      scaled 2 den e ≤ scaled 2 num (-e) ↔ e ≤ Int.log 2 ((num : ℚ) / den) := by
    have hscaled := cast_scaled_div two_pos den num e
    have hpos : 0 < (scaled 2 num (-e) : ℚ) := by exact_mod_cast scaled_pos two_pos hnum (-e)
    rw [← Int.zpow_le_iff_le_log one_lt_two hratio, ← Nat.cast_le (α := ℚ), ← div_le_one hpos,
      hscaled, div_mul_eq_mul_div, div_le_one (by positivity), le_div_iff₀ (by positivity),
      mul_comm]
  simp only [binaryExponent, htest]
  split <;> omega

end Log

/-! ## The magnitude of a double -/

/-- The magnitude of a finite double, as a rational number. -/
def magnitude (x : Float) : ℚ := mantissa x * 2 ^ exponent x

theorem magnitude_pos {x : Float} (h : 0 < mantissa x) : 0 < magnitude x :=
  mul_pos (Nat.cast_pos.2 h) (zpow_pos two_pos _)

/-- The weight of the last place, from the logarithm of the magnitude. -/
theorem max_log_magnitude {x : Float} (h : 0 < mantissa x) :
    max (Int.log 2 (magnitude x) - 52) (-1074) = exponent x := by
  have hpos := magnitude_pos h
  have hhigh : Int.log 2 (magnitude x) < 53 + exponent x := by
    have hlt : (mantissa x : ℚ) < 2 ^ (53 : ℤ) := by exact_mod_cast mantissa_lt x
    rw [← Int.lt_zpow_iff_log_lt one_lt_two hpos, Nat.cast_ofNat, zpow_add₀ two_ne_zero]
    exact mul_lt_mul_of_pos_right hlt (zpow_pos two_pos _)
  have hleast := neg_1074_le_exponent x
  rcases hleast.eq_or_lt with hexp | hexp
  · omega
  · have hlow : 52 + exponent x ≤ Int.log 2 (magnitude x) := by
      have hle : (2 : ℚ) ^ (52 : ℤ) ≤ mantissa x := by
        exact_mod_cast hiddenWeight_le_mantissa hexp
      rw [← Int.zpow_le_iff_le_log one_lt_two hpos, Nat.cast_ofNat, zpow_add₀ two_ne_zero]
      exact mul_le_mul_of_nonneg_right hle (zpow_pos two_pos _).le
    omega

/-- Of zero both parts are as small as they can be. -/
theorem exponent_of_mantissa_eq_zero {x : Float} (h : mantissa x = 0) : exponent x = -1074 := by
  refine ((neg_1074_le_exponent x).eq_or_lt.resolve_right fun hlt => ?_).symm
  have hhidden := hiddenWeight_le_mantissa hlt
  rw [h] at hhidden
  cases hhidden

theorem eq_zero_of_mantissa_eq_zero {x : Float} (hsign : isNegative x = false)
    (h : mantissa x = 0) : x = 0 := by
  have hbits := toNat_toBits hsign
  rw [h, exponent_of_mantissa_eq_zero h] at hbits
  exact Float.toBits_inj.1 (UInt64.toNat_inj.1 hbits)

/-- In units of its last place a double is its mantissa. -/
theorem roundToEven_of_div_eq_magnitude {x : Float} {num den : Nat} (hden : 0 < den)
    (h : (num : ℚ) / den = magnitude x) :
    roundToEven (scaled 2 num (-exponent x)) (scaled 2 den (exponent x)) = mantissa x := by
  have hratio := cast_scaled_div two_pos num den (-exponent x)
  rw [neg_neg, h, magnitude, Nat.cast_ofNat, mul_assoc, ← zpow_add₀ two_ne_zero, add_neg_cancel,
    zpow_zero, mul_one] at hratio
  rw [← roundToEven_mul (mantissa x) one_pos]
  refine roundToEven_congr (scaled_pos two_pos hden _) one_pos ?_
  rw [hratio, mul_one, Nat.cast_one, div_one]

/-- **A double's own magnitude rounds to the double.** -/
theorem nearest_eq_self {x : Float} (hfinite : x.isFinite = true) (hsign : isNegative x = false)
    {num den : Nat} (hden : 0 < den) (h : (num : ℚ) / den = magnitude x) :
    nearest num den = x := by
  rcases Nat.eq_zero_or_pos (mantissa x) with hzero | hpos
  · have hnum : num = 0 := by
      rw [magnitude, hzero, Nat.cast_zero, zero_mul, div_eq_zero_iff] at h
      exact_mod_cast h.resolve_right (Nat.cast_ne_zero.2 (Nat.pos_iff_ne_zero.1 hden))
    rw [nearest, if_pos hnum, eq_zero_of_mantissa_eq_zero hsign hzero]
  · have hnum : 0 < num := by
      refine Nat.pos_of_ne_zero fun hzero => ?_
      rw [hzero, Nat.cast_zero, zero_div] at h
      exact absurd h (magnitude_pos hpos).ne
    have hbits : min ((exponent x + 1074).toNat * hiddenWeight + mantissa x) infinityBits
        = x.toBits.toNat := by
      rw [← toNat_toBits hsign]
      exact Nat.min_eq_left (toNat_toBits_lt hfinite hsign).le
    simp only [nearest, if_neg (Nat.pos_iff_ne_zero.1 hnum), binaryExponent_eq_log hnum hden, h,
      max_log_magnitude hpos, roundToEven_of_div_eq_magnitude hden h, hbits, UInt64.ofNat_toNat,
      Float.ofBits_toBits]

end FormulaPlot.Number
