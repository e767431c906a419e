import FormulaPlot.Proofs.Number.Rounding

/-!
# Proofs/Number/Cutting — what is kept of an exact result

Core's model of doubles computes with integers and keeps two bits for what it cuts off.  Those bits
say all about the exact number that rounding asks for (`Cut`), however far the mantissa is shifted
on.  It is rounded in two steps, since rounding may carry into a fifty-fourth digit; mantissa and
exponent behind the second step are those of a double (`IsCanonical`).

* `Cut.roundedMantissa` — the bits that are kept are enough to round;
* `exists_roundWithAccuracy` — the two steps round the exact number.
-/

namespace FormulaPlot.Number

open Float.Model Float.Model.UnpackedFloat

/-! ## What is cut off -/

/-- The number `x` is cut to an integer and two bits: whether half a unit or more is cut off, and
whether that is neither nothing nor half a unit. -/
structure Cut (em : ExtendedMantissa) (x : ℚ) : Prop where
  floor : ⌊x⌋ = em.mantissa
  round : em.roundBit = true ↔ 1 / 2 ≤ Int.fract x
  sticky : em.stickyBit = true ↔ Int.fract x ≠ 0 ∧ Int.fract x ≠ 1 / 2

theorem mantissa_ofMantissaAndAccuracy (m : ℕ) (acc : Accuracy) :
    (ExtendedMantissa.ofMantissaAndAccuracy m acc).mantissa = m := by
  cases acc with
  | exact => rfl
  | inexact o => cases o <;> rfl

/-- The bits that a remainder `r` of a division by `d` leaves. -/
theorem bits_accuracyOfFraction (m r : ℕ) {d : ℕ} (hd : 0 < d) :
    let em := ExtendedMantissa.ofMantissaAndAccuracy m (accuracyOfFraction r d)
    (em.roundBit = true ↔ d ≤ 2 * r) ∧ (em.stickyBit = true ↔ r ≠ 0 ∧ 2 * r ≠ d) := by
  unfold accuracyOfFraction
  split
  · next hr =>
    subst hr
    simp [ExtendedMantissa.ofMantissaAndAccuracy, hd.ne']
  · next hr =>
    rcases lt_trichotomy (2 * r) d with hlt | heq | hgt
    · rw [Nat.compare_eq_lt.2 hlt]
      simp [ExtendedMantissa.ofMantissaAndAccuracy, hr, hlt, hlt.ne]
    · rw [Nat.compare_eq_eq.2 heq]
      simp [ExtendedMantissa.ofMantissaAndAccuracy, heq]
    · rw [Nat.compare_eq_gt.2 hgt]
      simp [ExtendedMantissa.ofMantissaAndAccuracy, hr, hgt.le, hgt.ne']

namespace Cut

variable {em : ExtendedMantissa} {x : ℚ}

/-- **The bits that are kept** are enough to round. -/
theorem roundedMantissa (h : Cut em x) : (em.roundedMantissa : ℤ) = nearestEven x := by
  obtain ⟨m, r, s⟩ := em
  obtain ⟨hfloor, hround, hsticky⟩ := h
  dsimp only at hfloor hround hsticky
  rw [nearestEven, hfloor]
  cases r <;> cases s
  case false.false =>
    have hlow : Int.fract x < 1 / 2 := by simpa using hround
    rw [if_pos hlow]
    rfl
  case false.true =>
    have hlow : Int.fract x < 1 / 2 := by simpa using hround
    rw [if_pos hlow]
    rfl
  case true.false =>
    have hhalf : Int.fract x = 1 / 2 := by
      have hle : 1 / 2 ≤ Int.fract x := by simpa using hround
      by_contra hne
      exact absurd (hsticky.2 ⟨by linarith, hne⟩) Bool.false_ne_true
    rw [hhalf, if_neg (lt_irrefl _), if_neg (lt_irrefl _)]
    exact Int.natCast_add m (m % 2)
  case true.true =>
    have hhigh : 1 / 2 < Int.fract x :=
      lt_of_le_of_ne' (hround.1 rfl) (hsticky.1 rfl).2
    rw [if_neg hhigh.not_gt, if_pos hhigh]
    rfl

/-- Of half a number the lowest digit is cut off, too. -/
theorem shiftRightOne (h : Cut em x) : Cut em.shiftRightOne (x / 2) := by
  have hx := Int.floor_add_fract x
  have hlow := Int.fract_nonneg x
  have hhigh := Int.fract_lt_one x
  have hdigits : (em.mantissa : ℚ) = 2 * (em.mantissa / 2 : ℕ) + (em.mantissa % 2 : ℕ) := by
    exact_mod_cast (Nat.div_add_mod em.mantissa 2).symm
  have hdigit : ((em.mantissa % 2 : ℕ) : ℚ) = 0 ∨ ((em.mantissa % 2 : ℕ) : ℚ) = 1 := by
    exact_mod_cast Nat.mod_two_eq_zero_or_one em.mantissa
  rw [h.floor, Int.cast_natCast, hdigits] at hx
  have hfloor : ⌊x / 2⌋ = (em.mantissa / 2 : ℕ) := by
    rw [Int.floor_eq_iff, Int.cast_natCast]
    rcases hdigit with hdigit | hdigit <;> constructor <;> linarith
  have hfract : Int.fract (x / 2) = ((em.mantissa % 2 : ℕ) + Int.fract x) / 2 := by
    rw [Int.fract, hfloor, Int.cast_natCast]
    linarith
  refine ⟨hfloor, ?_, ?_⟩
  · have hbit : em.shiftRightOne.roundBit = true ↔ ((em.mantissa % 2 : ℕ) : ℚ) ≠ 0 := by
      rw [Nat.cast_ne_zero]
      exact bne_iff_ne
    rw [hbit, hfract]
    rcases hdigit with hdigit | hdigit <;> rw [hdigit] <;> grind
  · have hbits : em.shiftRightOne.stickyBit = true ↔ Int.fract x ≠ 0 := by
      refine (Bool.or_eq_true _ _).to_iff.trans ?_
      rw [h.round, h.sticky]
      grind
    rw [hbits, hfract]
    rcases hdigit with hdigit | hdigit <;> rw [hdigit] <;> grind

/-- **Shifting on** keeps the bits true. -/
theorem shiftRight (h : Cut em x) (n : ℕ) : Cut (em >>> n) (x / 2 ^ n) := by
  induction n with
  | zero =>
    rw [pow_zero, div_one]
    exact h
  | succ n ih =>
    rw [pow_succ, ← div_div]
    exact ih.shiftRightOne

/-- An integer is cut without loss. -/
theorem exact (m : ℕ) : Cut (.ofMantissaAndAccuracy m .exact) m := by
  constructor <;> simp [ExtendedMantissa.ofMantissaAndAccuracy]

/-- A quotient of integers is cut to the whole quotient, and the remainder tells the bits. -/
theorem quotient (n : ℕ) {d : ℕ} (hd : 0 < d) :
    Cut (.ofMantissaAndAccuracy (n / d) (accuracyOfFraction (n % d) d)) ((n : ℚ) / d) := by
  have hd' : (0 : ℚ) < d := Nat.cast_pos.2 hd
  have hfloor : ⌊(n : ℚ) / d⌋ = (n / d : ℕ) := Rat.floor_natCast_div_natCast n d
  have hfract : Int.fract ((n : ℚ) / d) = (n % d : ℕ) / d :=
    Int.fract_div_natCast_eq_div_natCast_mod
  obtain ⟨hround, hsticky⟩ := bits_accuracyOfFraction (n / d) (n % d) hd
  constructor
  · rw [hfloor, mantissa_ofMantissaAndAccuracy]
  · rw [hround, hfract, div_le_div_iff₀ two_pos hd', one_mul, mul_comm]
    exact_mod_cast Iff.rfl
  · have hzero : ((n % d : ℕ) : ℚ) / d = 0 ↔ n % d = 0 := by
      rw [div_eq_zero_iff, or_iff_left hd'.ne', Nat.cast_eq_zero]
    have hhalf : ((n % d : ℕ) : ℚ) / d = 1 / 2 ↔ 2 * (n % d) = d := by
      rw [div_eq_div_iff hd'.ne' two_ne_zero, one_mul, mul_comm]
      exact_mod_cast Iff.rfl
    rw [hsticky, hfract, ne_eq, ne_eq, ne_eq, ne_eq, hzero, hhalf]

end Cut

/-! ## Rounding in two steps -/

/-- Mantissa and exponent are those of a number with fifty-three digits, or of a smaller one with
the least exponent. -/
structure IsCanonical (m : ℕ) (e : ℤ) : Prop where
  lt : m < 2 ^ 53
  least : -1074 ≤ e
  normal : 2 ^ 52 ≤ m ∨ e = -1074

/-- Zero or a finite number, by its sign, its mantissa and its exponent. -/
def ofParts (s : Sign) (m : ℕ) (e : ℤ) : UnpackedFloat :=
  if hm : m = 0 then .zero s else .finite s m e (Nat.pos_of_ne_zero hm)

theorem targetExponent_eq (m : ℕ) (e : ℤ) :
    Format.binary64.targetExponent (totalExponent m e) = max (m.log2 + e - 52) (-1074) := by
  simp only [Format.targetExponent, totalExponent, Format.mantissaBits, Format.minExponent]
  omega

/-- The exponent that is aimed at is that of the last place. -/
theorem lastPlace_eq_targetExponent {m : ℕ} {e : ℤ} {x : ℚ} (hx : 0 < x) (hfloor : ⌊x⌋ = m)
    (he : e ≤ Format.binary64.targetExponent (totalExponent m e)) :
    lastPlace (x * 2 ^ e) = Format.binary64.targetExponent (totalExponent m e) := by
  rw [targetExponent_eq] at he ⊢
  have hunit : (0 : ℚ) < 2 ^ e := zpow_pos two_pos e
  have hpos : 0 < x * 2 ^ e := mul_pos hx hunit
  obtain ⟨hle, hlt⟩ := Int.floor_eq_iff.1 hfloor
  rw [lastPlace, abs_of_pos hpos]
  rcases Nat.eq_zero_or_pos m with rfl | hm
  · have hbelow : x * 2 ^ e < ((2 : ℕ) : ℚ) ^ e := by
      rw [Nat.cast_ofNat]
      refine mul_lt_of_lt_one_left hunit ?_
      simpa using hlt
    have hlog := (Int.lt_zpow_iff_log_lt one_lt_two hpos).1 hbelow
    rw [Nat.log2_zero] at he ⊢
    omega
  · have hlow : ((2 : ℕ) : ℚ) ^ ((m.log2 : ℤ) + e) ≤ x * 2 ^ e := by
      rw [Nat.cast_ofNat, zpow_add₀ two_ne_zero, zpow_natCast]
      refine mul_le_mul_of_nonneg_right (le_trans ?_ hle) hunit.le
      exact_mod_cast Nat.log2_self_le hm.ne'
    have hhigh : x * 2 ^ e < ((2 : ℕ) : ℚ) ^ ((m.log2 + 1 : ℕ) + e) := by
      rw [Nat.cast_ofNat, zpow_add₀ two_ne_zero, zpow_natCast]
      refine mul_lt_mul_of_pos_right (hlt.trans_le ?_) hunit
      exact_mod_cast Nat.lt_log2_self (n := m)
    have hle := (Int.zpow_le_iff_le_log one_lt_two hpos).1 hlow
    have hlt := (Int.lt_zpow_iff_log_lt one_lt_two hpos).1 hhigh
    omega

/-- **The first step** cuts a number to its last place and rounds what is left. -/
theorem roundedMantissa_shiftToTargetExponent {m : ℕ} {e : ℤ} {acc : Accuracy} {x : ℚ}
    (hx : 0 < x) (hcut : Cut (.ofMantissaAndAccuracy m acc) x)
    (he : e ≤ Format.binary64.targetExponent (totalExponent m e)) :
    let first := shiftToTargetExponent Format.binary64 m e acc
    first.2 = lastPlace (x * 2 ^ e)
      ∧ (first.1.roundedMantissa : ℤ) = nearestEven (x * 2 ^ e / 2 ^ lastPlace (x * 2 ^ e)) := by
  intro first
  have hfloor : ⌊x⌋ = m := by rw [hcut.floor, mantissa_ofMantissaAndAccuracy]
  rw [lastPlace_eq_targetExponent hx hfloor he]
  generalize hplace : Format.binary64.targetExponent (totalExponent m e) = t at he
  obtain ⟨k, rfl⟩ := Int.le.dest he
  have hshift : first = (ExtendedMantissa.ofMantissaAndAccuracy m acc >>> k, e + k) := by
    show shiftToExponent m e acc _ = _
    rw [hplace, shiftToExponent, add_sub_cancel_left, Int.toNat_natCast]
  have hquotient : x * 2 ^ e / 2 ^ (e + k) = x / 2 ^ k := by
    rw [zpow_add₀ two_ne_zero, zpow_natCast]
    field_simp
  rw [hshift, hquotient]
  exact ⟨rfl, (hcut.shiftRight k).roundedMantissa⟩

/-- **The second step** makes room for a carry. -/
theorem shiftToTargetExponent_exact {m : ℕ} {e : ℤ} (hm : m ≤ 2 ^ 53) (he : -1074 ≤ e)
    (hnormal : 2 ^ 52 ≤ m ∨ e = -1074) :
    let second := shiftToTargetExponent Format.binary64 m e .exact
    IsCanonical second.1.mantissa second.2
      ∧ (second.1.mantissa : ℚ) * 2 ^ second.2 = m * 2 ^ e := by
  intro second
  have hplace := targetExponent_eq m e
  rcases hm.lt_or_eq with hlt | rfl
  · have hlog : m.log2 ≤ 52 := by
      rcases Nat.eq_zero_or_pos m with rfl | hpos
      · simp
      · exact Nat.le_of_lt_succ ((Nat.log2_lt hpos.ne').2 hlt)
    have hzero : (Format.binary64.targetExponent (totalExponent m e) - e).toNat = 0 := by omega
    have hsecond : second = (.ofMantissaAndAccuracy m .exact, e) := by
      show shiftToExponent m e .exact _ = _
      rw [shiftToExponent, hzero, Nat.cast_zero, add_zero]
      rfl
    rw [hsecond]
    exact ⟨⟨hlt, he, hnormal⟩, rfl⟩
  · have hone : (Format.binary64.targetExponent (totalExponent (2 ^ 53) e) - e).toNat = 1 := by
      rw [hplace, Nat.log2_two_pow]
      omega
    have hsecond : second = (⟨2 ^ 52, false, false⟩, e + 1) := by
      show shiftToExponent (2 ^ 53) e .exact _ = _
      rw [shiftToExponent, hone]
      rfl
    rw [hsecond]
    refine ⟨⟨by norm_num, by omega, .inl le_rfl⟩, ?_⟩
    rw [zpow_add_one₀ two_ne_zero]
    push_cast
    ring

/-- **Rounding** gives the mantissa and the exponent of the rounded number. -/
theorem exists_roundWithAccuracy {m : ℕ} {e : ℤ} {acc : Accuracy} {x : ℚ} (s : Sign) (hx : 0 < x)
    (hcut : Cut (.ofMantissaAndAccuracy m acc) x)
    (he : e ≤ Format.binary64.targetExponent (totalExponent m e)) :
    ∃ (m' : ℕ) (e' : ℤ), roundWithAccuracy Format.binary64 s m e acc = ofParts s m' e'
      ∧ IsCanonical m' e' ∧ (m' : ℚ) * 2 ^ e' = rounded (x * 2 ^ e) := by
  have hpos : 0 < x * 2 ^ e := mul_pos hx (zpow_pos two_pos e)
  obtain ⟨hplace, hround⟩ := roundedMantissa_shiftToTargetExponent hx hcut he
  generalize x * 2 ^ e = q at *
  generalize hfirst : shiftToTargetExponent Format.binary64 m e acc = first at *
  obtain ⟨em, t⟩ := first
  dsimp only at hplace hround
  subst hplace
  have hbound : em.roundedMantissa ≤ 2 ^ 53 := by
    have hle := nearestEven_lastPlace_le hpos
    rw [← hround] at hle
    exact_mod_cast hle
  have hnormal : 2 ^ 52 ≤ em.roundedMantissa ∨ lastPlace q = -1074 := by
    have hle := le_nearestEven_lastPlace hpos
    rw [← hround] at hle
    exact_mod_cast hle
  obtain ⟨hcanonical, hvalue⟩ :=
    shiftToTargetExponent_exact hbound (le_max_right _ _) hnormal
  refine ⟨_, _, ?_, hcanonical, hvalue.trans ?_⟩
  · rw [roundWithAccuracy, hfirst]
    rfl
  · have hcast : (em.roundedMantissa : ℚ) = nearestEven (q / 2 ^ lastPlace q) := by
      exact_mod_cast congrArg (Int.cast : ℤ → ℚ) hround
    rw [hcast]
    rfl

end FormulaPlot.Number
