import FormulaPlot.Proofs.Number.Nearest
import FormulaPlot.Proofs.Number.NotANumber

/-!
# Proofs/Number/Order — finite doubles compare as the numbers they stand for

A finite double stands for a rational number, its `value`: the magnitude with the sign.  Core's
model of doubles compares signs, then exponents, then mantissas, and on finite doubles that is the
order of the values (`compare_unpack`), because a larger magnitude has no smaller exponent
(`exponent_le_of_magnitude_le`).

* `lt_iff_value_lt`, `le_iff_value_le`, `beq_iff_value_eq` — comparisons of finite doubles.
-/

namespace FormulaPlot.Number

open Float.Model Float.Model.UnpackedFloat

/-! ## Finite doubles, taken apart -/

/-- The sign of a double. -/
def sign (x : Float) : Sign := if isNegative x then .negative else .positive

theorem ofBitVec_unpackSign_bits (x : Float) : Sign.ofBitVec (unpackSign (bits x)) = sign x := by
  have hweight : (unpackSign (bits x)).toNat = x.toBits.toNat / signWeight :=
    toNat_unpackSign (bits x)
  have hlt : x.toBits.toNat < 2 * signWeight := x.toBits.toNat_lt
  cases hneg : isNegative x with
  | true =>
    have hle : signWeight ≤ x.toBits.toNat := of_decide_eq_true hneg
    have hone : unpackSign (bits x) = 1#1 := BitVec.eq_of_toNat_eq (hweight.trans (by
      rw [signWeight] at *
      show _ = 1
      omega))
    rw [sign, hneg, hone]
    rfl
  | false =>
    have hsign : x.toBits.toNat < signWeight := Nat.lt_of_not_le (of_decide_eq_false hneg)
    have hzero : unpackSign (bits x) = 0#1 :=
      BitVec.eq_of_toNat_eq (hweight.trans (Nat.div_eq_of_lt hsign))
    rw [sign, hneg, hzero]
    rfl

/-- **A finite double is its sign, its mantissa and its exponent.** -/
theorem unpack_of_isFinite {x : Float} (h : x.isFinite = true) :
    x.toModel.unpack
      = if hm : mantissa x = 0 then .zero (sign x)
        else .finite (sign x) (mantissa x) (exponent x) (Nat.pos_of_ne_zero hm) := by
  have hexponent := toNat_exponent_bits x
  have hfraction : (unpackMantissa (bits x)).toNat = x.toBits.toNat % hiddenWeight :=
    toNat_unpackMantissa (bits x)
  have hones : unpackExponent (bits x) ≠ -1#_ := by
    intro hones
    rw [hones] at hexponent
    exact isFinite_iff.1 h hexponent.symm
  show UnpackedFloat.unpack Format.binary64 (bits x) = _
  rw [UnpackedFloat.unpack, if_neg hones, ofBitVec_unpackSign_bits]
  by_cases hfield : exponentField x = 0
  · have hnone : unpackExponent (bits x) = 0#_ := BitVec.eq_of_toNat_eq (hexponent.trans hfield)
    have hm : (unpackMantissa (bits x)).toNat = mantissa x := by
      rw [hfraction, mantissa, if_pos hfield]
    have hmzero : unpackMantissa (bits x) = 0#_ ↔ mantissa x = 0 :=
      ⟨fun h => hm ▸ congrArg BitVec.toNat h, fun h => BitVec.eq_of_toNat_eq (hm.trans h)⟩
    rw [if_pos hnone]
    by_cases hzero : mantissa x = 0
    · rw [dif_pos hzero, dif_pos (hmzero.2 hzero)]
    · rw [dif_neg hzero, dif_neg (mt hmzero.1 hzero), finite.injEq]
      refine ⟨rfl, hm, ?_⟩
      rw [hexponent, exponent, hfield]
      rfl
  · have hsome : unpackExponent (bits x) ≠ 0#_ := fun h =>
      hfield (hexponent ▸ congrArg BitVec.toNat h)
    have hm : (1#1 ++ unpackMantissa (bits x)).toNat = mantissa x := by
      rw [mantissa, if_neg hfield, ← hfraction, BitVec.toNat_append, Nat.or_comm,
        show (1#1).toNat <<< 52 = 2 ^ 52 from rfl,
        Nat.or_two_pow_eq_add_of_lt (unpackMantissa (bits x)).isLt, Nat.add_comm]
      rfl
    have hpos : mantissa x ≠ 0 := by
      rw [mantissa, if_neg hfield, hiddenWeight]
      omega
    rw [if_neg hsome, dif_neg hpos, finite.injEq]
    refine ⟨rfl, hm, ?_⟩
    rw [hexponent, exponent, Nat.max_eq_left (Nat.pos_of_ne_zero hfield)]
    rfl

/-! ## Magnitudes -/

theorem magnitude_nonneg (x : Float) : 0 ≤ magnitude x :=
  mul_nonneg (Nat.cast_nonneg _) (zpow_pos two_pos _).le

theorem magnitude_of_mantissa_eq_zero {x : Float} (h : mantissa x = 0) : magnitude x = 0 := by
  rw [magnitude, h, Nat.cast_zero, zero_mul]

section Magnitude

variable {x y : Float} (hx : 0 < mantissa x) (hy : 0 < mantissa y)
include hx hy

/-- **A larger magnitude has no smaller exponent.** -/
theorem exponent_le_of_magnitude_le (h : magnitude x ≤ magnitude y) : exponent x ≤ exponent y := by
  have hlog : Int.log 2 (magnitude x) ≤ Int.log 2 (magnitude y) :=
    Int.log_mono_right (magnitude_pos hx) h
  rw [← max_log_magnitude hx, ← max_log_magnitude hy]
  omega

/-- **Magnitudes are compared by their exponents first**, then by their mantissas. -/
theorem compare_exponent_mantissa :
    (compare (exponent x) (exponent y)).then (compare (mantissa x) (mantissa y))
      = compare (magnitude x) (magnitude y) := by
  rcases lt_trichotomy (exponent x) (exponent y) with hlt | heq | hgt
  · have hmagnitude : magnitude x < magnitude y :=
      lt_of_not_ge fun hle => hlt.not_ge (exponent_le_of_magnitude_le hy hx hle)
    rw [compare_lt_iff_lt.2 hlt, compare_lt_iff_lt.2 hmagnitude]
    rfl
  · -- In units of one exponent the magnitudes are the mantissas.
    have hcmp : cmp (magnitude x) (magnitude y) = cmp (mantissa x) (mantissa y) := by
      rw [magnitude, magnitude, heq, cmp_mul_pos_right (zpow_pos two_pos _),
        Nat.strictMono_cast.cmp_map_eq]
    rw [compare_eq_iff_eq.2 heq, ← cmp_eq_compare (magnitude x), hcmp, cmp_eq_compare]
    rfl
  · have hmagnitude : magnitude y < magnitude x :=
      lt_of_not_ge fun hle => hgt.not_ge (exponent_le_of_magnitude_le hx hy hle)
    rw [compare_gt_iff_gt.2 hgt, compare_gt_iff_gt.2 hmagnitude]
    rfl

end Magnitude

/-! ## Values -/

/-- The number that a finite double stands for. -/
def value (x : Float) : ℚ := if isNegative x then -magnitude x else magnitude x

/-- **A finite double is zero, positive or negative**, and its value tells which. -/
theorem unpack_cases {x : Float} (h : x.isFinite = true) :
    (∃ s, x.toModel.unpack = .zero s ∧ value x = 0)
      ∨ (∃ hm : 0 < mantissa x,
        x.toModel.unpack = .finite .positive (mantissa x) (exponent x) hm
          ∧ value x = magnitude x)
      ∨ ∃ hm : 0 < mantissa x,
        x.toModel.unpack = .finite .negative (mantissa x) (exponent x) hm
          ∧ value x = -magnitude x := by
  rw [unpack_of_isFinite h, sign, value]
  by_cases hm : mantissa x = 0
  · refine .inl ⟨_, dif_pos hm, ?_⟩
    rw [magnitude_of_mantissa_eq_zero hm, neg_zero, ite_self]
  · have hpos : 0 < mantissa x := Nat.pos_of_ne_zero hm
    rw [dif_neg hm]
    cases isNegative x with
    | true => exact .inr (.inr ⟨hpos, rfl, rfl⟩)
    | false => exact .inr (.inl ⟨hpos, rfl, rfl⟩)

/-- **Finite doubles compare as their values.** -/
theorem compare_unpack {x y : Float} (hx : x.isFinite = true) (hy : y.isFinite = true) :
    x.toModel.unpack.compare y.toModel.unpack = some (compare (value x) (value y)) := by
  rcases unpack_cases hx with ⟨s, hux, hvx⟩ | ⟨hmx, hux, hvx⟩ | ⟨hmx, hux, hvx⟩ <;>
    rcases unpack_cases hy with ⟨t, huy, hvy⟩ | ⟨hmy, huy, hvy⟩ | ⟨hmy, huy, hvy⟩ <;>
    rw [hux, huy, hvx, hvy]
  case inl.inl => exact congrArg some (compare_eq_iff_eq.2 rfl).symm
  case inl.inr.inl => exact congrArg some (compare_lt_iff_lt.2 (magnitude_pos hmy)).symm
  case inl.inr.inr =>
    exact congrArg some (compare_gt_iff_gt.2 (neg_lt_zero.2 (magnitude_pos hmy))).symm
  case inr.inl.inl => exact congrArg some (compare_gt_iff_gt.2 (magnitude_pos hmx)).symm
  case inr.inl.inr.inl => exact congrArg some (compare_exponent_mantissa hmx hmy)
  case inr.inl.inr.inr =>
    refine congrArg some (compare_gt_iff_gt.2 ?_).symm
    exact (neg_lt_zero.2 (magnitude_pos hmy)).trans (magnitude_pos hmx)
  case inr.inr.inl =>
    exact congrArg some (compare_lt_iff_lt.2 (neg_lt_zero.2 (magnitude_pos hmx))).symm
  case inr.inr.inr.inl =>
    refine congrArg some (compare_lt_iff_lt.2 ?_).symm
    exact (neg_lt_zero.2 (magnitude_pos hmx)).trans (magnitude_pos hmy)
  case inr.inr.inr.inr =>
    -- Of two negative numbers the one with the larger magnitude is smaller.
    have hanti : StrictAnti (Neg.neg : ℚ → ℚ) := fun _ _ => neg_lt_neg
    rw [← cmp_eq_compare, hanti.cmp_map_eq, ← cmp_swap, cmp_eq_compare,
      ← compare_exponent_mantissa hmx hmy]
    rfl

theorem lt_iff_value_lt {x y : Float} (hx : x.isFinite = true) (hy : y.isFinite = true) :
    x < y ↔ value x < value y := by
  rw [lt_iff, UnpackedFloat.lt, compare_unpack hx hy, beq_iff_eq, Option.some.injEq,
    compare_lt_iff_lt]

theorem le_iff_value_le {x y : Float} (hx : x.isFinite = true) (hy : y.isFinite = true) :
    x ≤ y ↔ value x ≤ value y := by
  rw [le_iff, UnpackedFloat.le, compare_unpack hx hy, Option.any_some, Ordering.isLE_iff_ne_gt]
  exact compare_le_iff_le

theorem beq_iff_value_eq {x y : Float} (hx : x.isFinite = true) (hy : y.isFinite = true) :
    (x == y) = true ↔ value x = value y := by
  show x.toModel.unpack.beq y.toModel.unpack = true ↔ _
  rw [UnpackedFloat.beq, compare_unpack hx hy, beq_iff_eq, Option.some.injEq, compare_eq_iff_eq]

/-- What lies between finite doubles is finite. -/
theorem isFinite_of_le {lo x hi : Float} (hlo : lo.isFinite = true) (hhi : hi.isFinite = true)
    (hle : lo ≤ x) (hge : x ≤ hi) : x.isFinite = true := by
  rw [le_iff] at hle hge
  show x.toModel.unpack.isFinite = true
  cases hx : x.toModel.unpack with
  | finite s m e hm => rfl
  | zero s => rfl
  | notANumber =>
    rw [hx] at hge
    cases hge
  | infinity s =>
    rw [hx] at hle hge
    cases s with
    | positive =>
      rcases unpack_cases hhi with ⟨t, hu, -⟩ | ⟨hm, hu, -⟩ | ⟨hm, hu, -⟩ <;>
        (rw [hu] at hge; cases hge)
    | negative =>
      rcases unpack_cases hlo with ⟨t, hu, -⟩ | ⟨hm, hu, -⟩ | ⟨hm, hu, -⟩ <;>
        (rw [hu] at hle; cases hle)

end FormulaPlot.Number
