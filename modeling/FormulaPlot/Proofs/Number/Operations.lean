import FormulaPlot.Proofs.Number.Packing

/-!
# Proofs/Number/Operations — every operation rounds its exact result

Addition, subtraction, multiplication and division of finite doubles are the ones of their values,
with the result rounded once (`Rounds`): the double that comes out stands for the rounded number, or
it is an infinity if that number is too large.

* `rounds_add`, `rounds_sub`, `rounds_mul`, `rounds_div` — the operations;
* `value_ofNat` — natural numbers below `2 ^ 53` are doubles.
-/

namespace FormulaPlot.Number

open Float.Model Float.Model.UnpackedFloat

/-! ## Rounded results -/

/-- The double `z` is the number `q`, rounded, or the infinity of its sign if that is too large. -/
structure Rounds (z : Float) (q : ℚ) : Prop where
  finite : |rounded q| < 2 ^ 1024 → z.isFinite = true ∧ value z = rounded q
  overflow : 2 ^ 1024 ≤ |rounded q| →
    z.toModel.unpack = .infinity (if q < 0 then .negative else .positive)

/-- A rounded number is packed into the double that it rounds to. -/
theorem rounds_packed (s : Sign) {m : ℕ} {e : ℤ} {q : ℚ} (h : IsCanonical m e) (hq : 0 ≤ q)
    (hvalue : (m : ℚ) * 2 ^ e = rounded q) : Rounds (packed (ofParts s m e)) (signed s q) := by
  have habs : |rounded (signed s q)| = m * 2 ^ e := by
    rw [rounded_signed, abs_signed, abs_of_nonneg (rounded_nonneg hq), hvalue]
  constructor
  · intro hlt
    rw [habs, lt_zpow_iff_le h] at hlt
    rw [rounded_signed, ← hvalue]
    exact value_of_unpack (unpack_packed_ofParts s h hlt)
  · intro hge
    rw [habs, ← not_lt, lt_zpow_iff_le h, not_le] at hge
    rw [unpack_packed_ofParts_of_lt s h hge]
    have hpos : 0 < q := hq.lt_of_ne fun hzero => by
      rw [← hzero, rounded_zero] at hvalue
      have hone := (lt_zpow_iff_le h).1 (by rw [hvalue]; positivity)
      omega
    cases s with
    | negative => exact congrArg _ (if_pos (neg_lt_zero.2 hpos)).symm
    | positive => exact congrArg _ (if_neg hpos.not_gt).symm

theorem rounds_parts (s : Sign) {m : ℕ} {e : ℤ} (h : IsCanonical m e) :
    Rounds (packed (ofParts s m e)) (signed s (m * 2 ^ e)) :=
  rounds_packed s h (mul_nonneg (Nat.cast_nonneg m) (zpow_pos two_pos e).le) (rounded_parts h).symm

section Rounding

variable (s : Sign) {m : ℕ} {e : ℤ}

theorem rounds_roundWithAccuracy {acc : Accuracy} {x : ℚ} (hx : 0 < x)
    (hcut : Cut (.ofMantissaAndAccuracy m acc) x)
    (he : e ≤ Format.binary64.targetExponent (totalExponent m e)) :
    Rounds (packed (roundWithAccuracy Format.binary64 s m e acc)) (signed s (x * 2 ^ e)) := by
  obtain ⟨m', e', hparts, hcanonical, hvalue⟩ := exists_roundWithAccuracy s hx hcut he
  rw [hparts]
  exact rounds_packed s hcanonical (mul_pos hx (zpow_pos two_pos e)).le hvalue

/-- Shifting to the left keeps the number. -/
theorem cast_decreaseExponent (m : ℕ) (e t : ℤ) :
    ((decreaseExponent m e t).1 : ℚ) * 2 ^ (decreaseExponent m e t).2 = m * 2 ^ e := by
  show ((m <<< (e - t).toNat : ℕ) : ℚ) * 2 ^ (e - (e - t).toNat) = m * 2 ^ e
  rw [Nat.shiftLeft_eq, zpow_sub₀ two_ne_zero, zpow_natCast]
  push_cast
  field_simp

theorem decreaseExponent_snd (m : ℕ) {e t : ℤ} (h : t ≤ e) : (decreaseExponent m e t).2 = t := by
  show e - (e - t).toNat = t
  omega

theorem decreaseExponent_fst_pos (hm : 0 < m) (e t : ℤ) : 0 < (decreaseExponent m e t).1 := by
  show 0 < m <<< (e - t).toNat
  rw [Nat.shiftLeft_eq]
  positivity

theorem log2_mul_two_pow (hm : m ≠ 0) (k : ℕ) : (m * 2 ^ k).log2 = m.log2 + k := by
  induction k with
  | zero => rw [pow_zero, mul_one, Nat.add_zero]
  | succ k ih =>
    rw [pow_succ, ← mul_assoc, mul_comm, Nat.log2_two_mul (by positivity), ih, Nat.add_assoc]

theorem totalExponent_decreaseExponent (hm : 0 < m) (t : ℤ) :
    totalExponent (decreaseExponent m e t).1 (decreaseExponent m e t).2 = totalExponent m e := by
  show (((m <<< (e - t).toNat).log2 : ℕ) : ℤ) + 1 + (e - (e - t).toNat) = m.log2 + 1 + e
  rw [Nat.shiftLeft_eq, log2_mul_two_pow hm.ne']
  omega

theorem rounds_round (hm : 0 < m) :
    Rounds (packed (round Format.binary64 s m e)) (signed s (m * 2 ^ e)) := by
  have htotal := totalExponent_decreaseExponent (e := e) hm
    (Format.binary64.targetExponent (totalExponent m e))
  have hcast := cast_decreaseExponent m e (Format.binary64.targetExponent (totalExponent m e))
  rw [← hcast]
  refine rounds_roundWithAccuracy s ?_ (Cut.exact _) ?_
  · exact Nat.cast_pos.2 (decreaseExponent_fst_pos hm _ _)
  · have hle (t : ℤ) : (decreaseExponent m e t).2 ≤ t := by
      show e - (e - t).toNat ≤ t
      omega
    exact (hle _).trans_eq (congrArg _ htotal.symm)

end Rounding

theorem rounds_zero (s : Sign) : Rounds (packed (.zero s)) 0 := by
  have hzero := rounds_parts s (m := 0) ⟨by decide, le_rfl, .inr rfl⟩
  rwa [Nat.cast_zero, zero_mul, signed_zero] at hzero

/-- An integer times a power of two is rounded with its sign. -/
theorem rounds_normalize (n : ℤ) (e : ℤ) (zeroSign : Sign) :
    Rounds (packed (UnpackedFloat.normalize Format.binary64 n e zeroSign)) (n * 2 ^ e) := by
  rcases lt_trichotomy n 0 with hlt | rfl | hgt
  · have hn : (((-n).toNat : ℕ) : ℚ) = -n := by
      exact_mod_cast Int.toNat_of_nonneg (by omega : 0 ≤ -n)
    have hround := rounds_round .negative (m := (-n).toNat) (e := e) (by omega)
    rw [hn, neg_mul, signed, neg_neg] at hround
    rw [UnpackedFloat.normalize, compare_lt_iff_lt.2 hlt]
    exact hround
  · rw [Int.cast_zero, zero_mul]
    exact rounds_zero zeroSign
  · have hn : ((n.toNat : ℕ) : ℚ) = n := by exact_mod_cast Int.toNat_of_nonneg hgt.le
    have hround := rounds_round .positive (m := n.toNat) (e := e) (by omega)
    rw [hn, signed] at hround
    rw [UnpackedFloat.normalize, compare_gt_iff_gt.2 hgt]
    exact hround

/-! ## Operations -/

theorem neg_ofParts (s : Sign) (m : ℕ) (e : ℤ) : (ofParts s m e).neg = ofParts (-s) m e := by
  unfold ofParts
  split <;> rfl

/-- **A difference** is a sum. -/
theorem sub_eq_add_neg_unpacked (u v : UnpackedFloat) :
    UnpackedFloat.sub Format.binary64 u v = UnpackedFloat.add Format.binary64 u v.neg := by
  cases u <;> cases v <;> try rfl
  case finite.finite s m e _ t n f _ =>
    show UnpackedFloat.normalize _ (s.apply _ - t.apply _) _ _
      = UnpackedFloat.normalize _ (s.apply _ + (-t).apply _) _ _
    rw [apply_neg, sub_eq_add_neg]

section Parts

variable (s t : Sign) {m n : ℕ} {e f : ℤ} (hm : IsCanonical m e) (hn : IsCanonical n f)
include hm hn

/-- **A sum** is that of the mantissas in units of the smaller exponent. -/
theorem rounds_add_parts :
    Rounds (packed (UnpackedFloat.add Format.binary64 (ofParts s m e) (ofParts t n f)))
      (signed s (m * 2 ^ e) + signed t (n * 2 ^ f)) := by
  rcases Nat.eq_zero_or_pos m with rfl | hmpos <;> rcases Nat.eq_zero_or_pos n with rfl | hnpos
  · rw [Nat.cast_zero, zero_mul, zero_mul, signed_zero, signed_zero, add_zero]
    show Rounds (packed (if s == t then .zero s else .zero .positive)) 0
    split <;> exact rounds_zero _
  · have hsum := rounds_parts t hn
    rw [ofParts_of_pos t hnpos] at hsum ⊢
    rwa [Nat.cast_zero, zero_mul, signed_zero, zero_add]
  · have hsum := rounds_parts s hm
    rw [ofParts_of_pos s hmpos] at hsum ⊢
    rwa [Nat.cast_zero, zero_mul, signed_zero, add_zero]
  · have hleft := cast_decreaseExponent m e (min e f)
    have hright := cast_decreaseExponent n f (min e f)
    rw [decreaseExponent_snd _ (min_le_left e f)] at hleft
    rw [decreaseExponent_snd _ (min_le_right e f)] at hright
    have hsum := rounds_normalize
      (s.apply (decreaseExponent m e (min e f)).1 + t.apply (decreaseExponent n f (min e f)).1)
      (min e f) .positive
    rw [Int.cast_add, cast_apply, cast_apply, add_mul, signed_mul, signed_mul, Int.cast_natCast,
      Int.cast_natCast, hleft, hright] at hsum
    rwa [ofParts_of_pos s hmpos, ofParts_of_pos t hnpos]

/-- **A product** has mantissa enough to be rounded, or too small an exponent. -/
theorem rounds_mul_parts :
    Rounds (packed (UnpackedFloat.mul Format.binary64 (ofParts s m e) (ofParts t n f)))
      (signed s (m * 2 ^ e) * signed t (n * 2 ^ f)) := by
  rcases Nat.eq_zero_or_pos m with rfl | hmpos
  · rw [Nat.cast_zero, zero_mul, signed_zero, zero_mul, ofParts_zero]
    unfold ofParts
    split <;> exact rounds_zero _
  rcases Nat.eq_zero_or_pos n with rfl | hnpos
  · rw [Nat.cast_zero, zero_mul, signed_zero, mul_zero, ofParts_zero, ofParts_of_pos s hmpos]
    exact rounds_zero _
  · have hproduct : (m * 2 ^ e : ℚ) * (n * 2 ^ f) = (m * n : ℕ) * 2 ^ (e + f) := by
      rw [zpow_add₀ two_ne_zero]
      push_cast
      ring
    rw [signed_mul_signed, hproduct, ofParts_of_pos s hmpos, ofParts_of_pos t hnpos]
    refine rounds_roundWithAccuracy (s * t) (by positivity) (Cut.exact _) ?_
    rw [targetExponent_eq]
    by_cases hlarge : 2 ^ 52 ≤ m * n
    · have hlog := (Nat.le_log2 (Nat.mul_pos hmpos hnpos).ne').2 hlarge
      omega
    · -- Factors with fewer digits have the least exponent.
      have hleft : e = -1074 := hm.normal.resolve_left fun hle =>
        hlarge (hle.trans (Nat.le_mul_of_pos_right m hnpos))
      have hright : f = -1074 := hn.normal.resolve_left fun hle =>
        hlarge (hle.trans (Nat.le_mul_of_pos_left n hmpos))
      omega

end Parts

/-- The quotient has mantissa enough, or its exponent is too small. -/
theorem divCore_le {m n : ℕ} {e f : ℤ} (hm : 0 < m) (hn : 0 < n) :
    let core := divCore Format.binary64 m e n f
    core.2.1 ≤ Format.binary64.targetExponent (totalExponent core.1 core.2.1) := by
  intro core
  set t := min (e - f)
    (Format.binary64.targetExponent (totalExponent m e - totalExponent n f)) with ht
  have hcore : core = (m <<< (e - f - t).toNat / n, t, _) := rfl
  have htarget : Format.binary64.targetExponent (totalExponent m e - totalExponent n f)
      = max (m.log2 + e - n.log2 - f - 53) (-1074) := by
    simp only [Format.targetExponent, totalExponent, Format.mantissaBits, Format.minExponent]
    omega
  rw [hcore, targetExponent_eq]
  dsimp only
  by_cases hsmall : t ≤ -1074
  · omega
  · have hlog : n.log2 + 53 ≤ (m * 2 ^ (e - f - t).toNat).log2 := by
      rw [log2_mul_two_pow hm.ne']
      omega
    have hlarge : 2 ^ 52 ≤ m <<< (e - f - t).toNat / n := by
      rw [Nat.shiftLeft_eq, Nat.le_div_iff_mul_le hn]
      calc 2 ^ 52 * n ≤ 2 ^ 52 * 2 ^ (n.log2 + 1) := Nat.mul_le_mul_left _ Nat.lt_log2_self.le
        _ = 2 ^ (n.log2 + 53) := by rw [← pow_add, Nat.add_comm 52]
        _ ≤ m * 2 ^ (e - f - t).toNat := (Nat.le_log2 (by positivity)).1 hlog
    have hdigits := (Nat.le_log2 (by omega)).2 hlarge
    omega

/-- **A quotient** is divided out with the remainder kept in mind. -/
theorem rounds_div_parts (s t : Sign) {m n : ℕ} {e f : ℤ} (hn : 0 < n) :
    Rounds (packed (UnpackedFloat.div Format.binary64 (ofParts s m e) (ofParts t n f)))
      (signed s (m * 2 ^ e) / signed t (n * 2 ^ f)) := by
  rw [ofParts_of_pos t hn]
  rcases Nat.eq_zero_or_pos m with rfl | hm
  · rw [Nat.cast_zero, zero_mul, signed_zero, zero_div, ofParts_zero]
    exact rounds_zero _
  · set t' := (divCore Format.binary64 m e n f).2.1
    have hcast := cast_decreaseExponent m (e - f) t'
    have hle : t' ≤ e - f := min_le_left _ _
    rw [decreaseExponent_snd m hle] at hcast
    have hquotient : (m * 2 ^ e : ℚ) / (n * 2 ^ f)
        = (decreaseExponent m (e - f) t').1 / n * 2 ^ t' := by
      rw [div_mul_eq_mul_div, hcast, zpow_sub₀ two_ne_zero]
      field_simp
    rw [signed_div_signed, hquotient, ofParts_of_pos s hm]
    refine rounds_roundWithAccuracy (s / t) ?_ (Cut.quotient _ hn) (divCore_le hm hn)
    have hpos := decreaseExponent_fst_pos hm (e - f) t'
    positivity

section Doubles

variable {x y : Float} (hx : x.isFinite = true) (hy : y.isFinite = true)
include hx hy

theorem rounds_add : Rounds (x + y) (value x + value y) := by
  show Rounds (packed (UnpackedFloat.add _ x.toModel.unpack y.toModel.unpack)) _
  rw [unpack_eq_ofParts hx, unpack_eq_ofParts hy, value_eq_signed, value_eq_signed]
  exact rounds_add_parts (sign x) (sign y) (isCanonical x) (isCanonical y)

theorem rounds_sub : Rounds (x - y) (value x - value y) := by
  show Rounds (packed (UnpackedFloat.sub _ x.toModel.unpack y.toModel.unpack)) _
  rw [unpack_eq_ofParts hx, unpack_eq_ofParts hy, value_eq_signed, value_eq_signed,
    sub_eq_add_neg_unpacked, neg_ofParts, sub_eq_add_neg, ← signed_neg_sign]
  exact rounds_add_parts (sign x) (-sign y) (isCanonical x) (isCanonical y)

theorem rounds_mul : Rounds (x * y) (value x * value y) := by
  show Rounds (packed (UnpackedFloat.mul _ x.toModel.unpack y.toModel.unpack)) _
  rw [unpack_eq_ofParts hx, unpack_eq_ofParts hy, value_eq_signed, value_eq_signed]
  exact rounds_mul_parts (sign x) (sign y) (isCanonical x) (isCanonical y)

theorem rounds_div (hne : value y ≠ 0) : Rounds (x / y) (value x / value y) := by
  have hpos : 0 < mantissa y := by
    refine Nat.pos_of_ne_zero fun hzero => hne ?_
    rw [value_eq_signed, magnitude_of_mantissa_eq_zero hzero, signed_zero]
  show Rounds (packed (UnpackedFloat.div _ x.toModel.unpack y.toModel.unpack)) _
  rw [unpack_eq_ofParts hx, unpack_eq_ofParts hy, value_eq_signed, value_eq_signed]
  exact rounds_div_parts (sign x) (sign y) hpos

end Doubles

/-! ## Infinity -/

theorem packed_infinity : packed (.infinity .positive) = Float.inf := by decide

theorem packed_notANumber : packed .notANumber = Float.nan := by decide

theorem unpack_inf : Float.inf.toModel.unpack = .infinity .positive := rfl

theorem unpack_nan : Float.nan.toModel.unpack = .notANumber := rfl

theorem Rounds.eq_inf {z : Float} {q : ℚ} (h : Rounds z q) (hq : 0 ≤ q)
    (hlarge : 2 ^ 1024 ≤ |rounded q|) : z = Float.inf := by
  rw [← packed_unpack z, h.overflow hlarge, if_neg hq.not_gt, packed_infinity]

theorem add_nan (x : Float) : x + Float.nan = Float.nan := by
  show packed (UnpackedFloat.add Format.binary64 x.toModel.unpack Float.nan.toModel.unpack) = _
  rw [unpack_nan, ← packed_notANumber]
  cases x.toModel.unpack <;> rfl

section Infinity

variable {x : Float} (h : x.isFinite = true)
include h

theorem add_inf : x + Float.inf = Float.inf := by
  show packed (UnpackedFloat.add Format.binary64 x.toModel.unpack Float.inf.toModel.unpack) = _
  rw [unpack_inf, unpack_eq_ofParts h, ← packed_infinity]
  unfold ofParts
  split <;> rfl

theorem zero_mul_inf (hzero : value x = 0) : x * Float.inf = Float.nan := by
  show packed (UnpackedFloat.mul Format.binary64 x.toModel.unpack Float.inf.toModel.unpack) = _
  rw [unpack_inf, ← packed_notANumber]
  rcases unpack_cases h with ⟨s, hunpack, -⟩ | ⟨hm, -, hvalue⟩ | ⟨hm, -, hvalue⟩
  · rw [hunpack]
    rfl
  · exact absurd (hvalue.symm.trans hzero) (magnitude_pos hm).ne'
  · exact absurd (hvalue.symm.trans hzero) (neg_neg_of_pos (magnitude_pos hm)).ne

theorem pos_mul_inf (hpos : 0 < value x) : x * Float.inf = Float.inf := by
  show packed (UnpackedFloat.mul Format.binary64 x.toModel.unpack Float.inf.toModel.unpack) = _
  rw [unpack_inf, ← packed_infinity]
  rcases unpack_cases h with ⟨s, -, hvalue⟩ | ⟨hm, hunpack, -⟩ | ⟨hm, -, hvalue⟩
  · exact absurd hvalue hpos.ne'
  · rw [hunpack]
    rfl
  · exact absurd (hvalue ▸ hpos) (neg_neg_of_pos (magnitude_pos hm)).not_gt

end Infinity

/-! ## Natural numbers -/

theorem value_one_bits :
    (Float.ofBits 0x3FF0000000000000).isFinite = true
      ∧ value (Float.ofBits 0x3FF0000000000000) = 1 := by
  have hunpack : (Float.ofBits 0x3FF0000000000000).toModel.unpack
      = ofParts .positive (2 ^ 52) (-52) := rfl
  obtain ⟨hfinite, hvalue⟩ := value_of_unpack hunpack
  refine ⟨hfinite, hvalue.trans ?_⟩
  show ((2 ^ 52 : ℕ) : ℚ) * 2 ^ (-52 : ℤ) = 1
  norm_num

section Natural

variable {n : ℕ} (h : n < 2 ^ 53)
include h

theorem rounded_natCast : rounded n = n := by
  have hlt : |(n : ℤ)| < 2 ^ 53 := by
    rw [Nat.abs_cast]
    exact_mod_cast h
  have hround := rounded_mul_zpow (k := 0) hlt (by decide)
  rwa [zpow_zero, mul_one, Int.cast_natCast] at hround

theorem abs_rounded_natCast_lt : |rounded n| < 2 ^ 1024 := by
  have hlt : (n : ℚ) < 2 ^ 53 := by exact_mod_cast h
  rw [rounded_natCast h, Nat.abs_cast]
  exact hlt.trans_le (pow_le_pow_right₀ one_le_two (by decide))

theorem value_toFloat :
    n.toUInt64.toFloat.isFinite = true ∧ value n.toUInt64.toFloat = n := by
  have hword : n.toUInt64.toNat = n := UInt64.toNat_ofNat_of_lt' (h.trans (by decide))
  have hround := rounds_normalize n.toUInt64.toNat 0 .positive
  rw [zpow_zero, mul_one, Int.cast_natCast, hword] at hround
  have hvalue := hround.finite (abs_rounded_natCast_lt h)
  rw [rounded_natCast h] at hvalue
  have hpacked : n.toUInt64.toFloat
      = packed (UnpackedFloat.normalize Format.binary64 n.toUInt64.toNat 0 .positive) := rfl
  rwa [hpacked, hword]

/-- **Natural numbers below `2 ^ 53`** are doubles. -/
theorem value_ofNat : (Float.ofNat n).isFinite = true ∧ value (Float.ofNat n) = n := by
  have hproduct : Float.ofNat n = n.toUInt64.toFloat * Float.ofBits 0x3FF0000000000000 := by
    unfold Float.ofNat
    exact dif_pos ⟨h, by decide⟩
  obtain ⟨hfinite, hvalue⟩ := value_toFloat h
  obtain ⟨hone, hvalueOne⟩ := value_one_bits
  have hround := rounds_mul hfinite hone
  rw [hvalue, hvalueOne, mul_one] at hround
  have hresult := hround.finite (abs_rounded_natCast_lt h)
  rwa [rounded_natCast h, ← hproduct] at hresult

end Natural

end FormulaPlot.Number
