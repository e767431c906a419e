import FormulaPlot.Number.Whole
import FormulaPlot.Proofs.Number.Operations

/-!
# Proofs/Number/Whole — cutting a double at the point loses nothing

The whole part of a finite double and the rest are those of its magnitude, with its sign; neither is
rounded (`value_trunc`, `value_fract`).  So a double is whole exactly if the rest is zero.

* `fract_beq_zero_iff` — whole doubles;
* `toNat_toUInt64` — a double that is a natural number, taken for a word.
-/

namespace FormulaPlot.Number

open Float.Model Float.Model.UnpackedFloat

/-! ## Signs -/

theorem value_zero : (0 : Float).isFinite = true ∧ value 0 = 0 := by
  have hzero := value_ofNat (n := 0) (by decide)
  rwa [Nat.cast_zero] at hzero

/-- **The opposite of a double** is never rounded. -/
theorem value_neg {x : Float} (h : x.isFinite = true) :
    (-x).isFinite = true ∧ value (-x) = -value x := by
  have hpacked : -x = packed (ofParts (-sign x) (mantissa x) (exponent x)) := by
    show packed x.toModel.unpack.neg = _
    rw [unpack_eq_ofParts h, neg_ofParts]
  have hunpack := unpack_packed_ofParts (-sign x) (isCanonical x) (exponent_le_of_isFinite h)
  rw [← hpacked] at hunpack
  rw [value_eq_signed x, ← signed_neg_sign]
  exact value_of_unpack hunpack

theorem value_withSign {x y : Float} (hy : y.isFinite = true) :
    (withSign (isNegative x) y).isFinite = true
      ∧ value (withSign (isNegative x) y) = signed (sign x) (value y) := by
  rw [sign]
  cases isNegative x with
  | false => exact ⟨hy, rfl⟩
  | true => exact value_neg hy

/-! ## Powers of two -/

/-- A negative power of two divides. -/
theorem natCast_mul_zpow_of_nonpos {e : ℤ} (h : e ≤ 0) (n : ℕ) :
    (n : ℚ) * 2 ^ e = n / (2 ^ (-e).toNat : ℕ) := by
  obtain ⟨k, hk⟩ := Int.eq_ofNat_of_zero_le (neg_nonneg.2 h)
  obtain rfl : e = -k := by omega
  rw [neg_neg, Int.toNat_natCast, zpow_neg, zpow_natCast, Nat.cast_pow, Nat.cast_ofNat,
    div_eq_mul_inv]

theorem natCast_mul_zpow_of_nonneg {e : ℤ} (h : 0 ≤ e) (n : ℕ) :
    (n : ℚ) * 2 ^ e = (n * 2 ^ e.toNat : ℕ) := by
  obtain ⟨k, rfl⟩ := Int.eq_ofNat_of_zero_le h
  rw [Int.toNat_natCast, zpow_natCast, Nat.cast_mul, Nat.cast_pow, Nat.cast_ofNat]

/-! ## Cutting -/

/-- The digits behind the point are no more than those of the mantissa. -/
theorem rounded_fract_magnitude (x : Float) :
    rounded (Int.fract (magnitude x)) = Int.fract (magnitude x) := by
  rcases le_total 0 (exponent x) with hwhole | hpoint
  · rw [magnitude, natCast_mul_zpow_of_nonneg hwhole, Int.fract_natCast, rounded_zero]
  · have hlt : |((mantissa x % 2 ^ (-exponent x).toNat : ℕ) : ℤ)| < 2 ^ 53 := by
      rw [Nat.abs_cast]
      exact_mod_cast (Nat.mod_le _ _).trans_lt (mantissa_lt x)
    have hround := rounded_mul_zpow hlt (neg_1074_le_exponent x)
    rwa [Int.cast_natCast, natCast_mul_zpow_of_nonpos hpoint,
      ← Int.fract_div_natCast_eq_div_natCast_mod, ← natCast_mul_zpow_of_nonpos hpoint] at hround

section Cutting

variable {x : Float} (h : x.isFinite = true)
include h

/-- **The whole part of a double** is that of its magnitude, with its sign. -/
theorem value_trunc :
    (trunc x).isFinite = true ∧ value (trunc x) = signed (sign x) ⌊magnitude x⌋ := by
  rw [trunc]
  split
  · next hwhole =>
    refine ⟨h, ?_⟩
    rw [value_eq_signed, magnitude, natCast_mul_zpow_of_nonneg hwhole, Int.floor_natCast,
      Int.cast_natCast]
  · next hpoint =>
    have hfloor : ⌊magnitude x⌋ = (mantissa x / 2 ^ (-exponent x).toNat : ℕ) := by
      rw [magnitude, natCast_mul_zpow_of_nonpos (not_le.1 hpoint).le]
      exact Rat.floor_natCast_div_natCast _ _
    have hlt : mantissa x / 2 ^ (-exponent x).toNat < 2 ^ 53 :=
      (Nat.div_le_self _ _).trans_lt (mantissa_lt x)
    obtain ⟨hfinite, hvalue⟩ := value_ofNat hlt
    rw [Nat.shiftRight_eq_div_pow, hfloor, Int.cast_natCast, ← hvalue]
    exact value_withSign hfinite

/-- **The rest of a double** is that of its magnitude, with its sign. -/
theorem value_fract :
    (fract x).isFinite = true ∧ value (fract x) = signed (sign x) (Int.fract (magnitude x)) := by
  obtain ⟨hfinite, hvalue⟩ := value_trunc h
  have hrest : value x - value (trunc x) = signed (sign x) (Int.fract (magnitude x)) := by
    rw [value_eq_signed, hvalue, signed_sub, Int.self_sub_floor]
  have hexact : rounded (signed (sign x) (Int.fract (magnitude x)))
      = signed (sign x) (Int.fract (magnitude x)) := by
    rw [rounded_signed, rounded_fract_magnitude]
  have hround := rounds_sub h hfinite
  rw [hrest] at hround
  rw [← hexact]
  refine hround.finite ?_
  rw [hexact, abs_signed, Int.abs_fract]
  exact (Int.fract_lt_one _).trans (one_lt_pow₀ one_lt_two (by decide))

/-- **A double is whole** exactly if the rest is zero. -/
theorem fract_beq_zero_iff : (fract x == 0) = true ↔ ∃ k : ℤ, value x = k := by
  obtain ⟨hfinite, hvalue⟩ := value_fract h
  obtain ⟨hzero, hvalueZero⟩ := value_zero
  rw [beq_iff_value_eq hfinite hzero, hvalue, hvalueZero, signed_eq_zero_iff,
    Int.fract_eq_zero_iff, value_eq_signed]
  cases sign x with
  | positive => exact ⟨fun ⟨k, hk⟩ => ⟨k, hk.symm⟩, fun ⟨k, hk⟩ => ⟨k, hk.symm⟩⟩
  | negative =>
    constructor
    · rintro ⟨k, hk⟩
      exact ⟨-k, by rw [signed, ← hk, Int.cast_neg]⟩
    · rintro ⟨k, hk⟩
      exact ⟨-k, by rw [Int.cast_neg, ← hk, signed, neg_neg]⟩

end Cutting

/-! ## Words -/

/-- A number is made an integer by cutting it. -/
theorem roundToInt_eq (s : Sign) (m : ℕ) (e : ℤ) :
    roundToInt s m e = s.apply ⌊(m : ℚ) * 2 ^ e⌋ := by
  have hle : (decreaseExponent m e 0).2 ≤ 0 := by
    show e - (e - 0).toNat ≤ 0
    omega
  have hcut := (Cut.exact (decreaseExponent m e 0).1).shiftRight
    (0 - (decreaseExponent m e 0).2).toNat
  rw [← cast_decreaseExponent m e 0, natCast_mul_zpow_of_nonpos hle, Nat.cast_pow, Nat.cast_ofNat,
    ← zero_sub, hcut.floor]
  rfl

/-- **A double that is a natural number** is that number as a word, if it fits. -/
theorem toNat_toUInt64 {x : Float} {n : ℕ} (h : x.isFinite = true) (hvalue : value x = n)
    (hlt : n < 2 ^ 64) : x.toUInt64.toNat = n := by
  have hint : x.toModel.unpack.toInt 0 (UInt64.size - 1) = n := by
    rcases unpack_cases h with ⟨s, hunpack, hzero⟩ | ⟨hm, hunpack, hpos⟩ | ⟨hm, hunpack, hneg⟩
    · obtain rfl : n = 0 := by exact_mod_cast hvalue.symm.trans hzero
      rw [hunpack]
      rfl
    · rw [hunpack]
      show roundToInt .positive (mantissa x) (exponent x) = n
      rw [roundToInt_eq, ← magnitude, ← hpos, hvalue, Int.floor_natCast]
      rfl
    · have hnonneg : (0 : ℚ) ≤ n := Nat.cast_nonneg n
      linarith [magnitude_pos hm]
  show (UInt64.ofNatClamp (x.toModel.unpack.toInt 0 (UInt64.size - 1)).toNat).toNat = n
  rw [hint, Int.toNat_natCast, UInt64.ofNatClamp_eq_ofNat n hlt]
  exact UInt64.toNat_ofNat_of_lt' hlt

end FormulaPlot.Number
