import FormulaPlot.Proofs.Number.Cutting
import FormulaPlot.Proofs.Number.Order

/-!
# Proofs/Number/Packing — canonical numbers are doubles

A sign, a mantissa and an exponent are packed into a double.  If mantissa and exponent are canonical
nothing is lost: the double that comes out has them for its own, so it stands for the same number
(`value_of_unpack`).  A number from `2 ^ 1024` on has too large an exponent and becomes an infinity.

* `unpack_packed_ofParts`, `unpack_packed_ofParts_of_lt` — what packing makes of canonical numbers;
* `rounded_value`, `rounded_sub_value` — values of doubles, and their small differences, need no
  rounding.
-/

namespace FormulaPlot.Number

open Float.Model Float.Model.UnpackedFloat

/-! ## Signs -/

/-- A number with a sign given to it. -/
def signed (s : Sign) (q : ℚ) : ℚ :=
  match s with
  | .negative => -q
  | .positive => q

theorem value_eq_signed (x : Float) : value x = signed (sign x) (magnitude x) := by
  rw [value, sign]
  split <;> rfl

theorem cast_apply (s : Sign) (n : ℤ) : ((s.apply n : ℤ) : ℚ) = signed s n := by
  cases s with
  | negative => exact Int.cast_neg n
  | positive => rfl

theorem apply_neg (s : Sign) (n : ℤ) : (-s).apply n = -s.apply n := by
  cases s with
  | negative => exact (neg_neg n).symm
  | positive => rfl

theorem signed_neg_sign (s : Sign) (q : ℚ) : signed (-s) q = -signed s q := by
  cases s with
  | negative => exact (neg_neg q).symm
  | positive => rfl

theorem signed_zero (s : Sign) : signed s 0 = 0 := by
  cases s with
  | negative => exact neg_zero
  | positive => rfl

theorem signed_eq_zero_iff {s : Sign} {q : ℚ} : signed s q = 0 ↔ q = 0 := by
  cases s with
  | negative => exact neg_eq_zero
  | positive => exact Iff.rfl

theorem signed_sub (s : Sign) (q r : ℚ) : signed s q - signed s r = signed s (q - r) := by
  cases s with
  | negative => exact (neg_sub' q r).symm
  | positive => rfl

theorem abs_signed (s : Sign) (q : ℚ) : |signed s q| = |q| := by
  cases s with
  | negative => exact abs_neg q
  | positive => rfl

theorem rounded_signed (s : Sign) (q : ℚ) : rounded (signed s q) = signed s (rounded q) := by
  cases s with
  | negative => exact rounded_neg q
  | positive => rfl

theorem signed_mul (s : Sign) (q r : ℚ) : signed s q * r = signed s (q * r) := by
  cases s with
  | negative => exact neg_mul q r
  | positive => rfl

theorem signed_mul_signed (s t : Sign) (q r : ℚ) :
    signed s q * signed t r = signed (s * t) (q * r) := by
  cases s <;> cases t
  case negative.negative => exact neg_mul_neg q r
  case negative.positive => exact neg_mul q r
  case positive.negative => exact mul_neg q r
  case positive.positive => rfl

theorem signed_div_signed (s t : Sign) (q r : ℚ) :
    signed s q / signed t r = signed (s / t) (q / r) := by
  cases s <;> cases t
  case negative.negative => exact neg_div_neg_eq q r
  case negative.positive => exact neg_div r q
  case positive.negative => exact div_neg q
  case positive.positive => rfl

/-! ## Packing -/

/-- The double that a number is packed into. -/
def packed (u : UnpackedFloat) : Float := .ofModel (Float.Model.pack u)

theorem isCanonical (x : Float) : IsCanonical (mantissa x) (exponent x) := by
  refine ⟨mantissa_lt x, neg_1074_le_exponent x, ?_⟩
  rcases (neg_1074_le_exponent x).eq_or_lt with heq | hlt
  · exact .inr heq.symm
  · exact .inl (hiddenWeight_le_mantissa hlt)

theorem unpack_eq_ofParts {x : Float} (h : x.isFinite = true) :
    x.toModel.unpack = ofParts (sign x) (mantissa x) (exponent x) := unpack_of_isFinite h

theorem unpack_packedInfinity (s : Sign) :
    UnpackedFloat.unpack Format.binary64 (packedInfinity Format.binary64 s) = .infinity s := by
  simp [UnpackedFloat.unpack, packedInfinity]

theorem exponent_le_of_isFinite {x : Float} (h : x.isFinite = true) : exponent x ≤ 971 := by
  have hfield := isFinite_iff.1 h
  have hlt : exponentField x < 0x800 := Nat.mod_lt _ (by decide)
  rw [exponent]
  omega

theorem ofParts_zero (s : Sign) (e : ℤ) : ofParts s 0 e = .zero s := rfl

theorem ofParts_of_pos (s : Sign) {m : ℕ} (hm : 0 < m) (e : ℤ) :
    ofParts s m e = .finite s m e hm := dif_neg hm.ne'

/-- Packing undoes unpacking. -/
theorem packed_unpack (x : Float) : packed x.toModel.unpack = x :=
  Float.toBits_inj.1 (congrArg UInt64.ofBitVec (pack_unpack_of_valid (valid_bits x)))

section Fields

variable (s : Sign) {n f : ℕ}

theorem toNat_ofNat_field (hn : n < 2047) : (BitVec.ofNat 11 n).toNat = n :=
  Nat.mod_eq_of_lt (hn.trans (by decide))

theorem ofNat_field_ne (hn : n < 2047) : BitVec.ofNat 11 n ≠ -1#11 := fun heq =>
  hn.ne ((toNat_ofNat_field hn).symm.trans (congrArg BitVec.toNat heq))

/-- With an exponent field there is a hidden bit. -/
theorem unpack_packComponents (hn : 0 < n) (hn' : n < 2047) :
    UnpackedFloat.unpack Format.binary64
        (packComponents Format.binary64 s (.ofNat 11 n) (.ofNat 52 f))
      = .finite s (2 ^ 52 + f % 2 ^ 52) (n - 1075) (by positivity) := by
  have hsome : BitVec.ofNat 11 n ≠ 0#11 := fun heq =>
    hn.ne' ((toNat_ofNat_field hn').symm.trans (congrArg BitVec.toNat heq))
  have hhidden : (1#1 ++ BitVec.ofNat 52 f).toNat = 2 ^ 52 + f % 2 ^ 52 := by
    rw [BitVec.toNat_append, Nat.or_comm, show (1#1).toNat <<< 52 = 2 ^ 52 from rfl,
      Nat.or_two_pow_eq_add_of_lt (BitVec.ofNat 52 f).isLt, BitVec.toNat_ofNat, Nat.add_comm]
  rw [UnpackedFloat.unpack]
  simp only [unpackMantissa_packComponents, unpackExponent_packComponents,
    unpackSign_packComponents, Sign.ofBitVec_toBitVec]
  rw [if_neg (ofNat_field_ne hn'), if_neg hsome, finite.injEq]
  refine ⟨rfl, hhidden, ?_⟩
  rw [toNat_ofNat_field hn']
  rfl

/-- Without one the exponent is the least. -/
theorem unpack_packComponents_zero (hf : 0 < f) (hf' : f < 2 ^ 52) :
    UnpackedFloat.unpack Format.binary64
        (packComponents Format.binary64 s (.ofNat 11 0) (.ofNat 52 f))
      = .finite s f (-1074) hf := by
  have hfraction : (BitVec.ofNat 52 f).toNat = f := Nat.mod_eq_of_lt hf'
  have hsome : BitVec.ofNat 52 f ≠ 0#52 := fun heq =>
    hf.ne' (hfraction.symm.trans (congrArg BitVec.toNat heq))
  rw [UnpackedFloat.unpack]
  simp only [unpackMantissa_packComponents, unpackExponent_packComponents,
    unpackSign_packComponents, Sign.ofBitVec_toBitVec]
  rw [if_neg (ofNat_field_ne (by decide)), if_pos trivial, dif_neg hsome, finite.injEq]
  exact ⟨rfl, hfraction, rfl⟩

end Fields

section Packing

variable (s : Sign) {m : ℕ} {e : ℤ} (h : IsCanonical m e)
include h

/-- The three ways of packing, by the size of the number. -/
theorem pack_finite (hm : 0 < m) :
    UnpackedFloat.pack Format.binary64 (.finite s m e hm)
      = if 971 < e then packedInfinity Format.binary64 s
        else packComponents Format.binary64 s
          (.ofNat 11 (if 2 ^ 52 ≤ m then (e + 1075).toNat else 0)) (.ofNat 52 m) := by
  have hlt := h.lt
  have hleast := h.least
  have hlarge : 2 ^ 11 ≤ (e + (1023 : ℕ) + (52 : ℕ)).toNat + 1 ↔ 971 < e := by omega
  have hnormal : m.log2 + 1 = 53 ↔ 2 ^ 52 ≤ m := by
    rw [Nat.add_right_cancel_iff, Nat.log2_eq_iff hm.ne']
    omega
  have hbiased : (e + (1023 : ℕ) + (52 : ℕ)).toNat = (e + 1075).toNat := by omega
  show (if 2 ^ 11 ≤ (e + (1023 : ℕ) + (52 : ℕ)).toNat + 1 then _
    else if m.log2 + 1 = 53 then packComponents Format.binary64 s
      (.ofNat 11 (e + (1023 : ℕ) + (52 : ℕ)).toNat) _ else _) = _
  rw [hbiased] at hlarge ⊢
  rw [if_congr hlarge rfl rfl, if_congr hnormal rfl rfl]
  split_ifs <;> rfl

/-- Up to the largest exponent nothing is lost. -/
theorem unpack_packed_ofParts (he : e ≤ 971) :
    (packed (ofParts s m e)).toModel.unpack = ofParts s m e := by
  show UnpackedFloat.unpack Format.binary64 (UnpackedFloat.pack Format.binary64 _) = _
  unfold ofParts
  split
  · exact unpack_packedZero
  · next hm =>
    have hlt := h.lt
    have hleast := h.least
    rw [pack_finite s h, if_neg he.not_gt]
    split
    · next hnormal =>
      rw [unpack_packComponents s (by omega) (by omega), finite.injEq]
      refine ⟨rfl, ?_, ?_⟩ <;> omega
    · next hsubnormal =>
      rw [unpack_packComponents_zero s (Nat.pos_of_ne_zero hm) (Nat.lt_of_not_le hsubnormal),
        finite.injEq]
      exact ⟨rfl, rfl, (h.normal.resolve_left hsubnormal).symm⟩

/-- Larger numbers become infinities. -/
theorem unpack_packed_ofParts_of_lt (he : 971 < e) :
    (packed (ofParts s m e)).toModel.unpack = .infinity s := by
  have hm : m ≠ 0 := by
    have hnormal := h.normal
    omega
  show UnpackedFloat.unpack Format.binary64 (UnpackedFloat.pack Format.binary64 _) = _
  rw [ofParts, dif_neg hm, pack_finite s h, if_pos he, unpack_packedInfinity]

/-- The numbers that are packed without loss are those below `2 ^ 1024`. -/
theorem lt_zpow_iff_le : (m : ℚ) * 2 ^ e < 2 ^ 1024 ↔ e ≤ 971 := by
  have hunit (k : ℤ) : (0 : ℚ) < 2 ^ k := zpow_pos two_pos k
  rw [← zpow_natCast]
  constructor
  · refine fun hlt => le_of_not_gt fun hgt => hlt.not_ge ?_
    have hm : (2 ^ 52 : ℚ) ≤ m := by
      have hnormal := h.normal
      exact_mod_cast (by omega : 2 ^ 52 ≤ m)
    calc (2 : ℚ) ^ ((1024 : ℕ) : ℤ) ≤ 2 ^ (52 + e) := zpow_le_zpow_right₀ one_le_two (by omega)
      _ = 2 ^ 52 * 2 ^ e := zpow_add₀ two_ne_zero 52 e
      _ ≤ m * 2 ^ e := mul_le_mul_of_nonneg_right hm (hunit e).le
  · intro hle
    have hm : (m : ℚ) < 2 ^ 53 := by exact_mod_cast h.lt
    calc (m : ℚ) * 2 ^ e < 2 ^ 53 * 2 ^ e := mul_lt_mul_of_pos_right hm (hunit e)
      _ = 2 ^ (53 + e) := (zpow_add₀ two_ne_zero 53 e).symm
      _ ≤ 2 ^ ((1024 : ℕ) : ℤ) := zpow_le_zpow_right₀ one_le_two (by omega)

end Packing

theorem isFinite_ofParts (s : Sign) (m : ℕ) (e : ℤ) : (ofParts s m e).isFinite = true := by
  unfold ofParts
  split <;> rfl

/-- The value is that of the parts. -/
theorem value_of_unpack {x : Float} {s : Sign} {m : ℕ} {e : ℤ}
    (h : x.toModel.unpack = ofParts s m e) :
    x.isFinite = true ∧ value x = signed s (m * 2 ^ e) := by
  have hfinite : x.isFinite = true := by
    show x.toModel.unpack.isFinite = true
    rw [h, isFinite_ofParts]
  refine ⟨hfinite, ?_⟩
  rw [unpack_eq_ofParts hfinite] at h
  rw [value_eq_signed, magnitude]
  unfold ofParts at h
  split at h <;> split at h
  · next hx hm => rw [hx, hm, Nat.cast_zero, zero_mul, zero_mul, signed_zero, signed_zero]
  · cases h
  · cases h
  · obtain ⟨hs, hm, he⟩ := finite.inj h
    rw [hs, hm, he]

/-! ## Values of doubles -/

theorem rounded_parts {m : ℕ} {e : ℤ} (h : IsCanonical m e) :
    rounded (m * 2 ^ e) = m * 2 ^ e := by
  have hlt : |(m : ℤ)| < 2 ^ 53 := by
    rw [Nat.abs_cast]
    exact_mod_cast h.lt
  exact_mod_cast rounded_mul_zpow hlt h.least

/-- **The value of a double** needs no rounding. -/
theorem rounded_value (x : Float) : rounded (value x) = value x := by
  rw [value_eq_signed, rounded_signed, magnitude, rounded_parts (isCanonical x)]

/-- Doubles are multiples of the least of them. -/
theorem exists_value_eq (x : Float) : ∃ n : ℤ, value x = n * 2 ^ (-1074 : ℤ) := by
  obtain ⟨k, hk⟩ := Int.le.dest (neg_1074_le_exponent x)
  refine ⟨(sign x).apply (mantissa x * 2 ^ k), ?_⟩
  rw [cast_apply, signed_mul, value_eq_signed, magnitude, ← hk, zpow_add₀ two_ne_zero,
    zpow_natCast, Int.cast_mul, Int.cast_natCast, Int.cast_pow, Int.cast_ofNat, mul_assoc,
    mul_comm (2 ^ k : ℚ)]

/-- **A small difference** needs no rounding either. -/
theorem rounded_sub_value {x y : Float} (h : |value x - value y| < 2 ^ (-1022 : ℤ)) :
    rounded (value x - value y) = value x - value y := by
  obtain ⟨m, hm⟩ := exists_value_eq x
  obtain ⟨n, hn⟩ := exists_value_eq y
  have hunit : (0 : ℚ) < 2 ^ (-1074 : ℤ) := zpow_pos two_pos _
  have hdifference : value x - value y = (m - n : ℤ) * 2 ^ (-1074 : ℤ) := by
    rw [hm, hn, ← sub_mul, Int.cast_sub]
  rw [hdifference] at h ⊢
  refine rounded_mul_zpow ?_ le_rfl
  rw [abs_mul, abs_of_pos hunit, show (-1022 : ℤ) = 52 + -1074 from rfl,
    zpow_add₀ two_ne_zero, mul_lt_mul_iff_left₀ hunit] at h
  have hlt : |m - n| < (2 ^ 52 : ℤ) := by exact_mod_cast h
  exact hlt.trans (by norm_num)

theorem abs_value_lt {x : Float} (h : x.isFinite = true) : |value x| < 2 ^ 1024 := by
  rw [value_eq_signed, abs_signed, abs_of_nonneg (magnitude_nonneg x), magnitude,
    lt_zpow_iff_le (isCanonical x)]
  exact exponent_le_of_isFinite h

end FormulaPlot.Number
