import Mathlib
import FormulaPlot.Number.Binary

/-!
# Proofs/Number/Bits — a double is its mantissa, its exponent and its sign

The bits of a double are a sign bit, eleven exponent bits and fifty-two fraction bits.  Core's model
of doubles takes them apart and packs them again; here they are tied to `mantissa`, `exponent` and
`isNegative`, which are plain arithmetic on the bits:

* `isFinite_iff` — finite is what has an exponent field other than all ones;
* `abs_eq_self` — a double without a sign is its own magnitude;
* `toNat_toBits` — without a sign the bits are the exponent and the mantissa, added up.
-/

namespace FormulaPlot.Number

open Float.Model Float.Model.UnpackedFloat

/-! ## Fields -/

section Fields

variable (b : BitVec Format.binary64.numBits)

theorem toNat_unpackMantissa : (unpackMantissa b).toNat = b.toNat % hiddenWeight := by
  simp [unpackMantissa, hiddenWeight]

theorem toNat_unpackExponent : (unpackExponent b).toNat = b.toNat / hiddenWeight % 0x800 := by
  simp [unpackExponent, hiddenWeight, Nat.shiftRight_eq_div_pow]

theorem toNat_unpackSign : (unpackSign b).toNat = b.toNat / signWeight := by
  have hb : b.toNat < 2 ^ 64 := b.isLt
  simp only [unpackSign, signWeight, BitVec.toNat_cast, BitVec.extractLsb_toNat,
    Nat.shiftRight_eq_div_pow]
  omega

end Fields

/-! ## Doubles -/

/-- The bits of a double, as core's model takes them apart. -/
def bits (x : Float) : BitVec Format.binary64.numBits := x.toModel.toBits.toBitVec

theorem valid_bits (x : Float) : Format.binary64.Valid (bits x) := x.toModel.valid

theorem toNat_exponent_bits (x : Float) : (unpackExponent (bits x)).toNat = exponentField x :=
  toNat_unpackExponent (bits x)

theorem isFinite_iff {x : Float} : x.isFinite = true ↔ exponentField x ≠ 0x7FF := by
  have hones : unpackExponent (bits x) = -1#_ ↔ exponentField x = 0x7FF := by
    rw [← toNat_exponent_bits]
    exact ⟨congrArg BitVec.toNat, fun h => BitVec.eq_of_toNat_eq h⟩
  have hunpack : x.isFinite = (UnpackedFloat.unpack Format.binary64 (bits x)).isFinite := rfl
  rw [hunpack, UnpackedFloat.unpack, ne_eq, ← hones]
  split
  · next h =>
    refine ⟨fun hfinite => ?_, fun hne => absurd h hne⟩
    split at hfinite <;> cases hfinite
  · next h =>
    refine ⟨fun _ => h, fun _ => ?_⟩
    split
    · split <;> rfl
    · rfl

/-- What is not finite is infinite or not a number. -/
theorem not_isFinite (x : Float) : (!x.isFinite) = (x.isInf || x.isNaN) := by
  show (!x.toModel.unpack.isFinite) = (x.toModel.unpack.isInf || x.toModel.unpack.isNaN)
  cases x.toModel.unpack <;> rfl

theorem isNaN_of_isFinite {x : Float} (h : x.isFinite = true) : x.isNaN = false := by
  have hneither := not_isFinite x
  rw [h] at hneither
  exact (Bool.or_eq_false_iff.1 hneither.symm).2

theorem isInf_of_isFinite {x : Float} (h : x.isFinite = true) : x.isInf = false := by
  have hneither := not_isFinite x
  rw [h] at hneither
  exact (Bool.or_eq_false_iff.1 hneither.symm).1

/-- **A double without a sign is its own magnitude.** -/
theorem abs_eq_self {x : Float} (h : isNegative x = false) : x.abs = x := by
  have hlt : x.toBits.toNat < signWeight := by simpa [isNegative] using h
  have hsign : unpackSign (bits x) = 0#1 :=
    BitVec.eq_of_toNat_eq ((toNat_unpackSign (bits x)).trans (Nat.div_eq_of_lt hlt))
  have habs : (UnpackedFloat.unpack Format.binary64 (bits x)).abs
      = UnpackedFloat.unpack Format.binary64 (bits x) := by
    rw [UnpackedFloat.unpack, hsign]
    split
    · split <;> rfl
    · split
      · split <;> rfl
      · rfl
  have hpack := pack_unpack_of_valid (valid_bits x)
  rw [← habs] at hpack
  refine Float.toBits_inj.1 ?_
  exact congrArg UInt64.ofBitVec hpack

/-- The finite doubles without a sign have the bits below those of infinity. -/
theorem toNat_toBits_lt {x : Float} (hfinite : x.isFinite = true) (hsign : isNegative x = false) :
    x.toBits.toNat < infinityBits := by
  have hlt : x.toBits.toNat < signWeight := by simpa [isNegative] using hsign
  have hfield : x.toBits.toNat / hiddenWeight % 0x800 ≠ 0x7FF := isFinite_iff.1 hfinite
  rw [signWeight] at hlt
  rw [hiddenWeight] at hfield
  rw [infinityBits]
  omega

/-! ## Mantissas and exponents -/

theorem neg_1074_le_exponent (x : Float) : -1074 ≤ exponent x := by
  rw [exponent]
  omega

theorem mantissa_lt (x : Float) : mantissa x < 2 ^ 53 := by
  have hfraction : x.toBits.toNat % hiddenWeight < hiddenWeight := Nat.mod_lt _ (by decide)
  simp only [mantissa]
  split <;> rw [hiddenWeight] at * <;> omega

/-- A double above the least exponent has its hidden bit. -/
theorem hiddenWeight_le_mantissa {x : Float} (h : -1074 < exponent x) :
    hiddenWeight ≤ mantissa x := by
  have hfield : exponentField x ≠ 0 := by
    rintro hzero
    rw [exponent, hzero] at h
    omega
  simp only [mantissa, if_neg hfield]
  exact Nat.le_add_right _ _

/-- **Without a sign the bits are the exponent and the mantissa.** -/
theorem toNat_toBits {x : Float} (h : isNegative x = false) :
    x.toBits.toNat = (exponent x + 1074).toNat * hiddenWeight + mantissa x := by
  have hlt : x.toBits.toNat < signWeight := by simpa [isNegative] using h
  have hfield : exponentField x = x.toBits.toNat / hiddenWeight % 0x800 := rfl
  rw [signWeight] at hlt
  rw [hiddenWeight] at hfield ⊢
  simp only [exponent, mantissa, hiddenWeight]
  by_cases hzero : exponentField x = 0
  · rw [if_pos hzero]
    omega
  · rw [if_neg hzero]
    omega

end FormulaPlot.Number
