import Mathlib

/-!
# Proofs/Number/Rounding — rounding as a function on the rationals

A rational number is rounded to a multiple of its last place: the weight of the fifty-third digit
from its leading one, and no less than `2 ^ -1074`.  What is halfway between two multiples goes to
the even one.  There is no largest number here; a double overflows if it would have to be `2 ^ 1024`
or more.

* `rounded_mono` — rounding keeps the order;
* `rounded_mul_zpow` — what fits in fifty-three digits stays as it is;
* `rounded_le` — rounding up is by no more than one part in `2 ^ 53`;
* `abs_rounded_lt_iff` — which numbers overflow.
-/

namespace FormulaPlot.Number

/-! ## Integers -/

/-- The integer nearest to a rational number, the even one of two that are equally near. -/
def nearestEven (q : ℚ) : ℤ :=
  if Int.fract q < 1 / 2 then ⌊q⌋
  else if 1 / 2 < Int.fract q then ⌊q⌋ + 1
  else ⌊q⌋ + ⌊q⌋ % 2

theorem nearestEven_intCast (n : ℤ) : nearestEven n = n := by
  rw [nearestEven, Int.fract_intCast, Int.floor_intCast, if_pos (by norm_num)]

theorem floor_le_nearestEven (q : ℚ) : ⌊q⌋ ≤ nearestEven q := by
  unfold nearestEven
  split_ifs <;> omega

theorem nearestEven_le_floor_add_one (q : ℚ) : nearestEven q ≤ ⌊q⌋ + 1 := by
  unfold nearestEven
  split_ifs <;> omega

/-- Rounding is within half a unit. -/
theorem nearestEven_le (q : ℚ) : (nearestEven q : ℚ) ≤ q + 1 / 2 := by
  have hsplit := Int.floor_add_fract q
  unfold nearestEven
  split_ifs with hlow hhigh
  · linarith [Int.fract_nonneg q]
  · push_cast
    linarith
  · have hparity : ((⌊q⌋ % 2 : ℤ) : ℚ) ≤ 1 := by
      exact_mod_cast (by omega : ⌊q⌋ % 2 ≤ 1)
    push_cast at hparity ⊢
    linarith

theorem nearestEven_mono {q r : ℚ} (h : q ≤ r) : nearestEven q ≤ nearestEven r := by
  rcases (Int.floor_le_floor h).eq_or_lt with heq | hlt
  · have hfract : Int.fract q ≤ Int.fract r := by
      rw [Int.fract, Int.fract, heq]
      linarith
    unfold nearestEven
    rw [heq]
    split_ifs <;> first | omega | linarith
  · calc nearestEven q ≤ ⌊q⌋ + 1 := nearestEven_le_floor_add_one q
      _ ≤ ⌊r⌋ := hlt
      _ ≤ nearestEven r := floor_le_nearestEven r

theorem nearestEven_neg (q : ℚ) : nearestEven (-q) = -nearestEven q := by
  by_cases hq : Int.fract q = 0
  · obtain ⟨n, rfl⟩ := Int.fract_eq_zero_iff.1 hq
    rw [← Int.cast_neg, nearestEven_intCast, nearestEven_intCast]
  · have hfract := Int.fract_neg hq
    have hfloor : ⌊-q⌋ = -⌊q⌋ - 1 := by
      have hpos : 0 < Int.fract q := (Int.fract_nonneg q).lt_of_ne' hq
      have hsplit := Int.floor_add_fract q
      have hlt := Int.fract_lt_one q
      rw [Int.floor_eq_iff]
      push_cast
      constructor <;> linarith
    unfold nearestEven
    rw [hfract, hfloor]
    split_ifs <;> first | omega | (exfalso; linarith)

/-! ## Multiples of a power of two -/

/-- The multiple of `2 ^ e` nearest to a number. -/
def roundAt (e : ℤ) (q : ℚ) : ℚ := nearestEven (q / 2 ^ e) * 2 ^ e

theorem roundAt_mono (e : ℤ) {q r : ℚ} (h : q ≤ r) : roundAt e q ≤ roundAt e r := by
  have hdiv : q / 2 ^ e ≤ r / 2 ^ e := div_le_div_of_nonneg_right h (zpow_pos two_pos e).le
  refine mul_le_mul_of_nonneg_right ?_ (zpow_pos two_pos e).le
  exact_mod_cast nearestEven_mono hdiv

theorem roundAt_neg (e : ℤ) (q : ℚ) : roundAt e (-q) = -roundAt e q := by
  rw [roundAt, neg_div, nearestEven_neg, Int.cast_neg, neg_mul, roundAt]

/-- Multiples of it stay as they are. -/
theorem roundAt_mul_zpow {e k : ℤ} (h : e ≤ k) (n : ℤ) : roundAt e (n * 2 ^ k) = n * 2 ^ k := by
  obtain ⟨j, rfl⟩ := Int.le.dest h
  have hcast : (n : ℚ) * 2 ^ (e + j) / 2 ^ e = (n * 2 ^ j : ℤ) := by
    rw [zpow_add₀ two_ne_zero, zpow_natCast]
    push_cast
    field_simp
  rw [roundAt, hcast, nearestEven_intCast, zpow_add₀ two_ne_zero, zpow_natCast]
  push_cast
  ring

theorem roundAt_zpow {e k : ℤ} (h : e ≤ k) : roundAt e (2 ^ k) = 2 ^ k := by
  have hone := roundAt_mul_zpow h 1
  rwa [Int.cast_one, one_mul] at hone

/-- Rounding is within half a unit of the last place. -/
theorem roundAt_le (e : ℤ) (q : ℚ) : roundAt e q ≤ q + 2 ^ e / 2 := by
  have hpos : (0 : ℚ) < 2 ^ e := zpow_pos two_pos e
  calc roundAt e q ≤ (q / 2 ^ e + 1 / 2) * 2 ^ e :=
        mul_le_mul_of_nonneg_right (nearestEven_le _) hpos.le
    _ = q + 2 ^ e / 2 := by field_simp

/-! ## Rounding -/

/-- The exponent of the last place of a number. -/
def lastPlace (q : ℚ) : ℤ := max (Int.log 2 |q| - 52) (-1074)

/-- A number rounded to its last place. -/
def rounded (q : ℚ) : ℚ := roundAt (lastPlace q) q

theorem rounded_neg (q : ℚ) : rounded (-q) = -rounded q := by
  rw [rounded, lastPlace, abs_neg, roundAt_neg, rounded, lastPlace]

theorem rounded_zero : rounded 0 = 0 := by
  have hzero := roundAt_mul_zpow (le_refl (lastPlace 0)) 0
  rwa [Int.cast_zero, zero_mul] at hzero

theorem rounded_nonneg {q : ℚ} (h : 0 ≤ q) : 0 ≤ rounded q := by
  have hmono := roundAt_mono (lastPlace q) h
  have hzero := roundAt_mul_zpow (le_refl (lastPlace q)) 0
  rw [Int.cast_zero, zero_mul] at hzero
  rwa [hzero] at hmono

theorem abs_rounded (q : ℚ) : |rounded q| = rounded |q| := by
  rcases le_total 0 q with h | h
  · rw [abs_of_nonneg h, abs_of_nonneg (rounded_nonneg h)]
  · have hneg : 0 ≤ rounded (-q) := rounded_nonneg (neg_nonneg.2 h)
    rw [abs_of_nonpos h, rounded_neg, abs_of_nonpos]
    rwa [rounded_neg, neg_nonneg] at hneg

section Positive

variable {q : ℚ} (hq : 0 < q)
include hq

theorem lt_zpow_of_log_lt {k : ℤ} (h : Int.log 2 q < k) : q < 2 ^ k := by
  have hlt := (Int.lt_zpow_iff_log_lt one_lt_two hq).2 h
  rwa [Nat.cast_ofNat] at hlt

theorem zpow_le_of_le_log {k : ℤ} (h : k ≤ Int.log 2 q) : (2 : ℚ) ^ k ≤ q := by
  have hle := (Int.zpow_le_iff_le_log one_lt_two hq).2 h
  rwa [Nat.cast_ofNat] at hle

/-- A positive number is below fifty-three digits of its last place. -/
theorem lt_zpow_lastPlace : q < 2 ^ (lastPlace q + 53) := by
  refine lt_zpow_of_log_lt hq ?_
  rw [lastPlace, abs_of_pos hq]
  omega

/-- It has fifty-three digits, or ends with the last place of all. -/
theorem zpow_lastPlace_le (h : -1074 < lastPlace q) : (2 : ℚ) ^ (lastPlace q + 52) ≤ q := by
  refine zpow_le_of_le_log hq ?_
  rw [lastPlace, abs_of_pos hq] at h ⊢
  omega

/-- In units of the last place a number rounds to fifty-three digits, or to the power of two behind
them. -/
theorem nearestEven_lastPlace_le : nearestEven (q / 2 ^ lastPlace q) ≤ 2 ^ 53 := by
  have hle : q / 2 ^ lastPlace q ≤ (2 ^ 53 : ℤ) := by
    have hlt := lt_zpow_lastPlace hq
    rw [add_comm, zpow_add₀ two_ne_zero] at hlt
    rw [div_le_iff₀ (zpow_pos two_pos _)]
    exact_mod_cast hlt.le
  exact (nearestEven_mono hle).trans_eq (nearestEven_intCast _)

theorem le_nearestEven_lastPlace :
    2 ^ 52 ≤ nearestEven (q / 2 ^ lastPlace q) ∨ lastPlace q = -1074 := by
  have hleast : -1074 ≤ lastPlace q := le_max_right _ _
  rcases hleast.eq_or_lt with heq | hlt
  · exact .inr heq.symm
  · have hle : (2 ^ 52 : ℤ) ≤ q / 2 ^ lastPlace q := by
      have hle := zpow_lastPlace_le hq hlt
      rw [add_comm, zpow_add₀ two_ne_zero] at hle
      rw [le_div_iff₀ (zpow_pos two_pos _)]
      exact_mod_cast hle
    exact .inl ((nearestEven_intCast _).symm.trans_le (nearestEven_mono hle))

theorem lastPlace_le {r : ℚ} (h : q ≤ r) : lastPlace q ≤ lastPlace r := by
  have hlog : Int.log 2 q ≤ Int.log 2 r := Int.log_mono_right hq h
  rw [lastPlace, lastPlace, abs_of_pos hq, abs_of_pos (hq.trans_le h)]
  omega

theorem rounded_le_rounded_of_pos {r : ℚ} (h : q ≤ r) : rounded q ≤ rounded r := by
  rcases (lastPlace_le hq h).eq_or_lt with heq | hlt
  · rw [rounded, rounded, heq]
    exact roundAt_mono _ h
  · -- A power of two parts numbers with different last places, and is a multiple of both.
    have hleast : -1074 ≤ lastPlace q := le_max_right _ _
    have hbelow : q ≤ 2 ^ (lastPlace r + 52) :=
      (lt_zpow_lastPlace hq).le.trans (zpow_le_zpow_right₀ one_le_two (by omega))
    calc rounded q ≤ roundAt (lastPlace q) (2 ^ (lastPlace r + 52)) := roundAt_mono _ hbelow
      _ = 2 ^ (lastPlace r + 52) := roundAt_zpow (by omega)
      _ = roundAt (lastPlace r) (2 ^ (lastPlace r + 52)) := (roundAt_zpow (by omega)).symm
      _ ≤ rounded r := roundAt_mono _ (zpow_lastPlace_le (hq.trans_le h) (by omega))

end Positive

/-- **Rounding keeps the order.** -/
theorem rounded_mono {q r : ℚ} (h : q ≤ r) : rounded q ≤ rounded r := by
  rcases lt_or_ge 0 q with hq | hq
  · exact rounded_le_rounded_of_pos hq h
  · rcases lt_or_ge r 0 with hr | hr
    · have hneg := rounded_le_rounded_of_pos (neg_pos.2 hr) (neg_le_neg h)
      rwa [rounded_neg, rounded_neg, neg_le_neg_iff] at hneg
    · have hneg := rounded_nonneg (neg_nonneg.2 hq)
      rw [rounded_neg, neg_nonneg] at hneg
      exact hneg.trans (rounded_nonneg hr)

/-- **What fits in fifty-three digits** stays as it is. -/
theorem rounded_mul_zpow {n : ℤ} {k : ℤ} (hn : |n| < 2 ^ 53) (hk : -1074 ≤ k) :
    rounded (n * 2 ^ k) = n * 2 ^ k := by
  rcases eq_or_ne n 0 with rfl | hne
  · rw [Int.cast_zero, zero_mul, rounded_zero]
  · refine roundAt_mul_zpow (max_le ?_ hk) n
    have hpos : 0 < |(n : ℚ) * 2 ^ k| :=
      abs_pos.2 (mul_ne_zero (Int.cast_ne_zero.2 hne) (zpow_pos two_pos k).ne')
    have hlt : |(n : ℚ) * 2 ^ k| < ((2 : ℕ) : ℚ) ^ (53 + k) := by
      rw [abs_mul, abs_of_pos (zpow_pos two_pos k : (0 : ℚ) < 2 ^ k), Nat.cast_ofNat,
        zpow_add₀ two_ne_zero]
      refine mul_lt_mul_of_pos_right ?_ (zpow_pos two_pos k)
      exact_mod_cast hn
    have hlog := (Int.lt_zpow_iff_log_lt one_lt_two hpos).1 hlt
    omega

theorem rounded_zpow {k : ℤ} (hk : -1074 ≤ k) : rounded (2 ^ k) = 2 ^ k := by
  have hone := rounded_mul_zpow (n := 1) (by norm_num) hk
  rwa [Int.cast_one, one_mul] at hone

/-- **Rounding up** is by no more than one part in `2 ^ 53`. -/
theorem rounded_le {q : ℚ} (h : 2 ^ (-1022 : ℤ) ≤ q) : rounded q ≤ q * (1 + 1 / 2 ^ 53) := by
  have hq : 0 < q := (zpow_pos two_pos _).trans_le h
  have hplace : (2 : ℚ) ^ lastPlace q * 2 ^ 52 ≤ q := by
    have hlog : -1022 ≤ Int.log 2 q := by
      rw [← Int.zpow_le_iff_le_log one_lt_two hq, Nat.cast_ofNat]
      exact h
    have hle : (2 : ℚ) ^ (lastPlace q + 52) ≤ q := by
      refine zpow_le_of_le_log hq ?_
      rw [lastPlace, abs_of_pos hq]
      omega
    rwa [zpow_add₀ two_ne_zero] at hle
  calc rounded q ≤ q + 2 ^ lastPlace q / 2 := roundAt_le _ _
    _ ≤ q * (1 + 1 / 2 ^ 53) := by linarith

/-! ## Overflow -/

section Power

variable {k : ℤ} (hk : -1074 ≤ k)
include hk

/-- Between two powers of two there is one last place. -/
theorem lastPlace_eq {q : ℚ} (hlow : 2 ^ (k + 52) ≤ q) (hhigh : q < 2 ^ (k + 53)) :
    lastPlace q = k := by
  have hpos : 0 < q := (zpow_pos two_pos _).trans_le hlow
  have hle : k + 52 ≤ Int.log 2 q := by
    rwa [← Int.zpow_le_iff_le_log one_lt_two hpos, Nat.cast_ofNat]
  have hlt : Int.log 2 q < k + 53 := by
    rwa [← Int.lt_zpow_iff_log_lt one_lt_two hpos, Nat.cast_ofNat]
  rw [lastPlace, abs_of_pos hpos]
  omega

/-- Halfway between the last number of fifty-three digits and the power of two behind it, rounding
goes up. -/
theorem rounded_halfway : rounded ((2 ^ 53 - 1 / 2) * 2 ^ k) = 2 ^ (k + 53) := by
  have hunit : (0 : ℚ) < 2 ^ k := zpow_pos two_pos k
  have hlow : (2 : ℚ) ^ (k + 52) = 2 ^ 52 * 2 ^ k := by rw [zpow_add₀ two_ne_zero, mul_comm]; rfl
  have hhigh : (2 : ℚ) ^ (k + 53) = 2 ^ 53 * 2 ^ k := by rw [zpow_add₀ two_ne_zero, mul_comm]; rfl
  have hplace : lastPlace ((2 ^ 53 - 1 / 2) * 2 ^ k) = k := by
    refine lastPlace_eq hk ?_ ?_
    · rw [hlow]
      exact mul_le_mul_of_nonneg_right (by norm_num) hunit.le
    · rw [hhigh]
      exact mul_lt_mul_of_pos_right (by norm_num) hunit
  have hfloor : ⌊(2 ^ 53 - 1 / 2 : ℚ)⌋ = 2 ^ 53 - 1 := by
    rw [Int.floor_eq_iff]
    norm_num
  have hnearest : nearestEven (2 ^ 53 - 1 / 2) = 2 ^ 53 := by
    rw [nearestEven, Int.fract, hfloor]
    norm_num
  rw [rounded, hplace, roundAt, mul_div_cancel_right₀ _ hunit.ne', hnearest, hhigh]
  push_cast
  rfl

/-- **A power of two is reached** from halfway on. -/
theorem rounded_lt_zpow_iff {q : ℚ} :
    rounded q < 2 ^ (k + 53) ↔ q < (2 ^ 53 - 1 / 2) * 2 ^ k := by
  have hunit : (0 : ℚ) < 2 ^ k := zpow_pos two_pos k
  have hhigh : (2 : ℚ) ^ (k + 53) = 2 ^ 53 * 2 ^ k := by rw [zpow_add₀ two_ne_zero, mul_comm]; rfl
  constructor
  · refine fun h => lt_of_not_ge fun hge => ?_
    have hmono := rounded_mono hge
    rw [rounded_halfway hk] at hmono
    exact hmono.not_gt h
  · intro h
    rcases lt_or_ge q (2 ^ (k + 52)) with hlt | hge
    · calc rounded q ≤ rounded (2 ^ (k + 52)) := rounded_mono hlt.le
        _ = 2 ^ (k + 52) := rounded_zpow (by omega)
        _ < 2 ^ (k + 53) := zpow_lt_zpow_right₀ one_lt_two (by omega)
    · have hbelow : q < 2 ^ (k + 53) := by
        rw [hhigh]
        exact h.trans (mul_lt_mul_of_pos_right (by norm_num) hunit)
      have hnearest : (nearestEven (q / 2 ^ k) : ℚ) < 2 ^ 53 := by
        have hquotient := (div_lt_iff₀ hunit).2 h
        exact (nearestEven_le _).trans_lt (by linarith)
      rw [rounded, lastPlace_eq hk hge hbelow, roundAt, hhigh]
      exact mul_lt_mul_of_pos_right hnearest hunit

end Power

/-- **A number overflows** from halfway between the largest double and `2 ^ 1024` on. -/
theorem abs_rounded_lt_iff {q : ℚ} : |rounded q| < 2 ^ 1024 ↔ |q| < 2 ^ 1024 - 2 ^ 970 := by
  have hiff := rounded_lt_zpow_iff (k := 971) (by decide) (q := |q|)
  have hbound : (2 : ℚ) ^ (971 + 53 : ℤ) = 2 ^ 1024 := zpow_ofNat 2 1024
  have hhalfway : (2 ^ 53 - 1 / 2) * (2 : ℚ) ^ (971 : ℤ) = 2 ^ 1024 - 2 ^ 970 := by
    have hpower : (2 : ℚ) ^ 1024 = 2 ^ 53 * 2 ^ (971 : ℤ) := by
      rw [zpow_ofNat]
      exact pow_add 2 53 971
    have hhalf : 1 / 2 * (2 : ℚ) ^ (971 : ℤ) = 2 ^ 970 := by
      rw [zpow_ofNat, pow_succ', ← mul_assoc, one_div_mul_cancel (two_ne_zero' ℚ), one_mul]
    rw [sub_mul, hhalf, hpower]
  rw [abs_rounded, ← hbound, hiff, hhalfway, hbound]

end FormulaPlot.Number
