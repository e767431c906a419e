import Mathlib
import FormulaPlot.Number.Numeral
import FormulaPlot.Proofs.Number.Bits

/-!
# Proofs/Number/NotANumber — where not-a-number comes from, and where it cannot

A text that spells an unsigned decimal is read as a number without a sign, an infinity at worst.
Comparisons with not-a-number fail, so whatever passes one is a number:

* `isUnsigned_of_readFront?` — what is read off the front of a text is unsigned;
* `isNaN_of_lt`, `isNaN_of_le` — the sides of a comparison that holds are numbers;
* `isNaN_abs`, `isNaN_sqrt` — magnitudes and square roots of numbers from `0` on are numbers.
-/

namespace FormulaPlot.Number

open Float.Model Float.Model.UnpackedFloat

/-! ## Unsigned numbers -/

/-- A number with its sign bit clear; not-a-number is none. -/
def IsUnsigned (x : Float) : Prop := x.isNaN = false ∧ isNegative x = false

instance (x : Float) : Decidable (IsUnsigned x) := inferInstanceAs (Decidable (_ ∧ _))

/-- Bits up to those of infinity are not those of not-a-number, and are kept. -/
theorem toNat_toBits_ofBits {n : Nat} (h : n ≤ infinityBits) :
    (Float.ofBits (UInt64.ofNat n)).toBits.toNat = n := by
  have hlt : n < 2 ^ 64 := Nat.lt_of_le_of_lt h (by decide)
  have hn : (UInt64.ofNat n).toBitVec.toNat = n := UInt64.toNat_ofNat_of_lt' hlt
  have hnan : ¬ @isNaNBits Format.binary64 (UInt64.ofNat n).toBitVec = true := by
    rw [isNaNBits, decide_eq_true_eq]
    rintro ⟨hexponent, hmantissa⟩
    have hones := congrArg BitVec.toNat hexponent
    rw [toNat_unpackExponent, hn] at hones
    refine hmantissa (BitVec.eq_of_toNat_eq ?_)
    rw [toNat_unpackMantissa, hn]
    rw [infinityBits] at h
    rw [hiddenWeight] at hones ⊢
    replace hones : n / 0x10000000000000 % 0x800 = 0x7FF := hones
    show n % 0x10000000000000 = 0
    omega
  have hpack := @UnpackedFloat.pack_unpack Format.binary64 (UInt64.ofNat n).toBitVec
  rw [if_neg hnan] at hpack
  exact (congrArg BitVec.toNat hpack).trans hn

theorem isUnsigned_ofBits {n : Nat} (h : n ≤ infinityBits) :
    IsUnsigned (Float.ofBits (UInt64.ofNat n)) := by
  have hbits := toNat_toBits_ofBits h
  constructor
  · rw [Float.isNaN_eq_decide_eq_nan, decide_eq_false_iff_not]
    intro hnan
    rw [hnan] at hbits
    subst hbits
    revert h
    decide
  · rw [isNegative, hbits]
    exact decide_eq_false (Nat.not_le.2 (Nat.lt_of_le_of_lt h (by decide)))

/-- The nearest double to a ratio is unsigned; to a ratio too large for a double it is infinity. -/
theorem isUnsigned_nearest (num den : Nat) : IsUnsigned (nearest num den) := by
  unfold nearest
  split
  · decide
  · exact isUnsigned_ofBits (Nat.min_le_right _ _)

theorem isUnsigned_toFloat (d : Decimal) : IsUnsigned d.toFloat := by
  unfold Decimal.toFloat
  split
  · decide
  · split <;> exact isUnsigned_nearest _ _

/-- **What is read off the front of a text is unsigned.** -/
theorem isUnsigned_of_readFront? {s : List Char} {v : Float} (h : readFront? s = some v) :
    IsUnsigned v := by
  obtain ⟨⟨n, rest⟩, -, rfl⟩ := Option.map_eq_some_iff.1 h
  exact isUnsigned_toFloat n.value

/-! ## Numbers and comparisons -/

theorem isNaN_zero : (0 : Float).isNaN = false := by decide

theorem lt_iff {x y : Float} : x < y ↔ x.toModel.unpack.lt y.toModel.unpack = true :=
  decide_eq_true_iff

theorem le_iff {x y : Float} : x ≤ y ↔ x.toModel.unpack.le y.toModel.unpack = true :=
  decide_eq_true_iff

/-- The sides of a comparison that holds are numbers. -/
theorem isNaN_of_le {x y : Float} (h : x ≤ y) : x.isNaN = false ∧ y.isNaN = false := by
  rw [le_iff] at h
  show x.toModel.unpack.isNaN = false ∧ y.toModel.unpack.isNaN = false
  cases hx : x.toModel.unpack with
  | notANumber => rw [hx] at h; cases h
  | _ =>
    cases hy : y.toModel.unpack with
    | notANumber => rw [hx, hy] at h; cases h
    | _ => exact ⟨rfl, rfl⟩

theorem le_of_lt {x y : Float} (h : x < y) : x ≤ y := by
  rw [lt_iff, UnpackedFloat.lt, beq_iff_eq] at h
  rw [le_iff, UnpackedFloat.le, h]
  rfl

theorem isNaN_of_lt {x y : Float} (h : x < y) : x.isNaN = false ∧ y.isNaN = false :=
  isNaN_of_le (le_of_lt h)

/-! ## Operations -/

/-- Only not-a-number is packed into the bits of not-a-number. -/
theorem isNaN_ofModel_pack (u : UnpackedFloat) :
    (Float.ofModel (Float.Model.pack u)).isNaN = u.isNaN := by
  cases u with
  | notANumber => decide
  | infinity sign => cases sign <;> decide
  | zero sign => cases sign <;> decide
  | finite sign m e hm =>
    refine Bool.eq_false_iff.2 fun h => ?_
    have hpack := (isNaN_unpack_iff_of_valid valid_pack).1 h
    have hmantissa := congrArg unpackMantissa hpack
    have hexponent := congrArg unpackExponent hpack
    rw [packedNaN, unpackMantissa_packComponents] at hmantissa
    rw [packedNaN, unpackExponent_packComponents] at hexponent
    simp only [UnpackedFloat.pack] at hmantissa hexponent
    -- All ones in the exponent only an overflow has, and its fraction is that of infinity.
    split at hexponent
    · next hlarge =>
      rw [if_pos hlarge, packedInfinity, unpackMantissa_packComponents] at hmantissa
      exact absurd hmantissa (by decide)
    · next hlarge =>
      split at hexponent
      · rw [unpackExponent_packComponents] at hexponent
        have hones := congrArg BitVec.toNat hexponent
        rw [BitVec.toNat_ofNat, Nat.mod_eq_of_lt (by omega)] at hones
        replace hones : _ = 2047 := hones
        rw [hones] at hlarge
        exact hlarge (Nat.le_refl _)
      · rw [unpackExponent_packComponents] at hexponent
        exact absurd hexponent (by decide)

theorem isNaN_abs (x : Float) : x.abs.isNaN = x.isNaN := by
  refine (isNaN_ofModel_pack _).trans ?_
  show x.toModel.unpack.abs.isNaN = x.toModel.unpack.isNaN
  cases x.toModel.unpack <;> rfl

/-- **The square root of a number from `0` on is a number.** -/
theorem isNaN_sqrt {x : Float} (h : 0 ≤ x) : x.sqrt.isNaN = false := by
  have hzero : (0 : Float).toModel.unpack = .zero .positive := rfl
  rw [le_iff, hzero] at h
  refine (isNaN_ofModel_pack _).trans ?_
  cases hx : x.toModel.unpack with
  | notANumber => rw [hx] at h; cases h
  | zero sign => rfl
  | infinity sign =>
    cases sign with
    | positive => rfl
    | negative => rw [hx] at h; cases h
  | finite sign m e hm =>
    cases sign with
    | positive =>
      simp only [UnpackedFloat.sqrt, roundWithAccuracy]
      split <;> rfl
    | negative => rw [hx] at h; cases h

end FormulaPlot.Number
