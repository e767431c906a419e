import FormulaPlot.Proofs.Number.Operations
import FormulaPlot.Proofs.Plot.Fallbacks

/-!
# Proofs/Plot/Points — where the points of a domain lie

A point is the lower end of the domain plus a share of its width, and each of the four operations
that compute it rounds.  Rounding keeps the order, so the points are in order, and none lies below
the lower end.  None lies above the upper end either: with no more than a million divisions the
largest share falls short of one by more than two roundings make good (`advance_le_width`).

All this is so if the width is a double.  `Domain.new` looks at the ends alone, and ends that are
finite may be too far apart: the width is infinite then, and so is each point behind the first,
which is not a number.

* `Domain.value_point` — a point stands for its place, which is computed with one rounding for each
  operation;
* `Domain.points_in_order` — all of this for the domains that are accepted.
-/

namespace FormulaPlot

open Number

/-! ## Shares of a width -/

/-- A share of a width that is rounded is no more than the width, if it is no more than all but a
`2 ^ 20`th of it. -/
theorem rounded_mul_rounded_le {t w : ℚ} (ht : t ≤ 1 - 1 / 2 ^ 20) (hw : 0 ≤ w)
    (hexact : w < 2 ^ (-1022 : ℤ) → rounded w = w) : rounded (t * rounded w) ≤ w := by
  have hone : t ≤ 1 := ht.trans (by norm_num)
  rcases lt_or_ge w (2 ^ (-1022 : ℤ)) with hsmall | hlarge
  · calc rounded (t * rounded w) = rounded (t * w) := by rw [hexact hsmall]
      _ ≤ rounded w := rounded_mono (mul_le_of_le_one_left hw hone)
      _ = w := hexact hsmall
  · rcases lt_or_ge (t * rounded w) (2 ^ (-1022 : ℤ)) with hless | hnormal
    · calc rounded (t * rounded w) ≤ rounded (2 ^ (-1022 : ℤ)) := rounded_mono hless.le
        _ = 2 ^ (-1022 : ℤ) := rounded_zpow (by decide)
        _ ≤ w := hlarge
    · calc rounded (t * rounded w) ≤ t * rounded w * (1 + 1 / 2 ^ 53) := rounded_le hnormal
        _ ≤ (1 - 1 / 2 ^ 20) * (w * (1 + 1 / 2 ^ 53)) * (1 + 1 / 2 ^ 53) := by
          have hwidth := rounded_nonneg hw
          have hle := rounded_le hlarge
          gcongr
        _ ≤ w := by linarith

namespace Domain

/-- The bounds and the divisions are such that the domain is accepted. -/
structure IsSensible (d : Domain) : Prop where
  finite_min : d.min.isFinite = true
  finite_max : d.max.isFinite = true
  lt : d.min < d.max
  two_le : 2 ≤ d.division
  le : d.division ≤ maxDivision

/-- The exact width. -/
def width (d : Domain) : ℚ := value d.max - value d.min

/-- The share of the width that lies before a point, as it is computed. -/
def share (d : Domain) (i : ℕ) : ℚ := rounded (i / d.division)

/-- That part of the width, as it is computed. -/
def advance (d : Domain) (i : ℕ) : ℚ := rounded (d.share i * rounded d.width)

/-- Where a point lies: at the lower end and the part behind it, rounded. -/
def place (d : Domain) (i : ℕ) : ℚ := rounded (value d.min + d.advance i)

theorem isSensible_of_new {lo hi : Float} {n : ℕ} {d : Domain} (h : Domain.new lo hi n = .ok d) :
    d.IsSensible := by
  obtain ⟨hrange, ⟨htwo, hle⟩, rfl⟩ := new_eq_ok_iff.1 h
  obtain ⟨hmin, hmax, hlt⟩ := isRange_iff.1 hrange
  exact ⟨hmin, hmax, hlt, htwo, hle⟩

theorem share_zero (d : Domain) : d.share 0 = 0 := by
  rw [share, Nat.cast_zero, zero_div, rounded_zero]

section Accepted

variable {d : Domain} (h : d.IsSensible)
include h

theorem width_pos : 0 < d.width :=
  sub_pos.2 ((lt_iff_value_lt h.finite_min h.finite_max).1 h.lt)

theorem division_pos : (0 : ℚ) < d.division := by
  have htwo := h.two_le
  exact_mod_cast (by omega : 0 < d.division)

theorem division_le : (d.division : ℚ) ≤ 2 ^ 20 := by
  exact_mod_cast h.le.trans (by decide : maxDivision ≤ 2 ^ 20)

theorem share_nonneg (i : ℕ) : 0 ≤ d.share i :=
  rounded_nonneg (div_nonneg (Nat.cast_nonneg i) (division_pos h).le)

theorem share_le_share {i j : ℕ} (hij : i ≤ j) : d.share i ≤ d.share j :=
  rounded_mono (div_le_div_of_nonneg_right (Nat.cast_le.2 hij) (division_pos h).le)

/-- A share is less than one by more than rounding could make good. -/
theorem share_le {i : ℕ} (hi : i < d.division) : d.share i ≤ 1 - 1 / 2 ^ 20 := by
  have hdivision := division_le h
  have hquotient : (i : ℚ) / d.division ≤ (2 ^ 20 - 1 : ℤ) * 2 ^ (-20 : ℤ) := by
    have hlast : (i : ℚ) + 1 ≤ d.division := by exact_mod_cast hi
    rw [div_le_iff₀ (division_pos h)]
    norm_num
    linarith
  calc d.share i ≤ rounded ((2 ^ 20 - 1 : ℤ) * 2 ^ (-20 : ℤ)) := rounded_mono hquotient
    _ = (2 ^ 20 - 1 : ℤ) * 2 ^ (-20 : ℤ) := rounded_mul_zpow (by norm_num) (by decide)
    _ = 1 - 1 / 2 ^ 20 := by norm_num

theorem share_pos {i : ℕ} (hi : 0 < i) : 0 < d.share i := by
  have hdivision := division_le h
  have hquotient : (2 : ℚ) ^ (-20 : ℤ) ≤ i / d.division := by
    have hfirst : (1 : ℚ) ≤ i := by exact_mod_cast hi
    rw [le_div_iff₀ (division_pos h)]
    norm_num
    linarith
  calc (0 : ℚ) < 2 ^ (-20 : ℤ) := by positivity
    _ = rounded (2 ^ (-20 : ℤ)) := (rounded_zpow (by decide)).symm
    _ ≤ d.share i := rounded_mono hquotient

theorem advance_nonneg (i : ℕ) : 0 ≤ d.advance i :=
  rounded_nonneg (mul_nonneg (share_nonneg h i) (rounded_nonneg (width_pos h).le))

theorem advance_le_advance {i j : ℕ} (hij : i ≤ j) : d.advance i ≤ d.advance j :=
  rounded_mono (mul_le_mul_of_nonneg_right (share_le_share h hij)
    (rounded_nonneg (width_pos h).le))

/-- **No point is past the upper end.** -/
theorem advance_le_width {i : ℕ} (hi : i < d.division) : d.advance i ≤ d.width := by
  refine rounded_mul_rounded_le (share_le h hi) (width_pos h).le fun hsmall => ?_
  rw [← abs_of_pos (width_pos h)] at hsmall
  exact rounded_sub_value hsmall

/-! ## Places -/

theorem place_le_place {i j : ℕ} (hij : i ≤ j) : d.place i ≤ d.place j :=
  rounded_mono (add_le_add_right (advance_le_advance h hij) _)

theorem min_le_place (i : ℕ) : value d.min ≤ d.place i := by
  have hle : value d.min ≤ value d.min + d.advance i :=
    le_add_of_nonneg_right (advance_nonneg h i)
  exact (rounded_value d.min).ge.trans (rounded_mono hle)

theorem place_le_max {i : ℕ} (hi : i < d.division) : d.place i ≤ value d.max := by
  have hle : value d.min + d.advance i ≤ value d.max :=
    le_sub_iff_add_le'.1 (advance_le_width h hi)
  exact (rounded_mono hle).trans (rounded_value d.max).le

/-! ## Points -/

/-- The share is computed as a quotient of two doubles. -/
theorem value_quotient {i : ℕ} (hi : i < d.division) :
    (Float.ofNat i / Float.ofNat d.division).isFinite = true
      ∧ value (Float.ofNat i / Float.ofNat d.division) = d.share i := by
  have hdivision : d.division < 2 ^ 53 := h.le.trans_lt (by decide)
  obtain ⟨hfinite, hvalue⟩ := value_ofNat (hi.trans hdivision)
  obtain ⟨hfinite', hvalue'⟩ := value_ofNat hdivision
  have hround := rounds_div hfinite hfinite' (by rw [hvalue']; exact (division_pos h).ne')
  rw [hvalue, hvalue'] at hround
  have hbound : |d.share i| < 2 ^ 1024 := by
    have hone : d.share i ≤ 1 := (share_le h hi).trans (by norm_num)
    rw [abs_of_nonneg (share_nonneg h i)]
    exact hone.trans_lt (one_lt_pow₀ one_lt_two (by decide))
  exact hround.finite hbound

/-- **A point is its place**, if the width is no larger than doubles are. -/
theorem value_point (hwidth : |rounded d.width| < 2 ^ 1024) {i : ℕ} (hi : i < d.division) :
    (d.point i).isFinite = true ∧ value (d.point i) = d.place i := by
  obtain ⟨hquotient, hshare⟩ := value_quotient h hi
  obtain ⟨hfinite, hvalue⟩ := (rounds_sub h.finite_max h.finite_min).finite hwidth
  have hproduct := rounds_mul hquotient hfinite
  rw [hshare, hvalue] at hproduct
  have hadvance : |d.advance i| < 2 ^ 1024 := by
    have hlt := abs_rounded_lt_iff.1 hwidth
    rw [abs_of_pos (width_pos h)] at hlt
    rw [abs_of_nonneg (advance_nonneg h i)]
    calc d.advance i ≤ d.width := advance_le_width h hi
      _ < 2 ^ 1024 - 2 ^ 970 := hlt
      _ < 2 ^ 1024 := sub_lt_self _ (pow_pos two_pos 970)
  obtain ⟨hpart, hvaluePart⟩ := hproduct.finite hadvance
  have hsum := rounds_add h.finite_min hpart
  rw [hvaluePart] at hsum
  have hplace : |d.place i| < 2 ^ 1024 :=
    abs_lt.2 ⟨(abs_lt.1 (abs_value_lt h.finite_min)).1.trans_le (min_le_place h i),
      (place_le_max h hi).trans_lt (abs_lt.1 (abs_value_lt h.finite_max)).2⟩
  exact hsum.finite hplace

/-- **A larger width** is computed as infinity, and so are the points, but for the first. -/
theorem point_of_overflow (hwidth : 2 ^ 1024 ≤ |rounded d.width|) {i : ℕ} (hi : i < d.division) :
    d.point i = if i = 0 then Float.nan else Float.inf := by
  obtain ⟨hquotient, hshare⟩ := value_quotient h hi
  have hinf := (rounds_sub h.finite_max h.finite_min).eq_inf (width_pos h).le hwidth
  rw [point, hinf]
  split
  · next hzero =>
    subst hzero
    rw [zero_mul_inf hquotient (hshare.trans d.share_zero), add_nan]
  · next hne =>
    have hpos : 0 < value (Float.ofNat i / Float.ofNat d.division) := by
      rw [hshare]
      exact share_pos h (Nat.pos_of_ne_zero hne)
    rw [pos_mul_inf hquotient hpos, add_inf h.finite_min]

end Accepted

/-- **The points of a domain that is accepted** are finite, lie between its ends and are in order,
if its width is no larger than doubles are; otherwise the first is not a number and the others are
infinite. -/
theorem points_in_order {lo hi : Float} {n : ℕ} {d : Domain} (h : Domain.new lo hi n = .ok d) :
    ((d.max - d.min).isFinite = true ↔ value d.max - value d.min < 2 ^ 1024 - 2 ^ 970)
      ∧ ((d.max - d.min).isFinite = true → ∀ i < d.division,
        (d.point i).isFinite = true ∧ d.min ≤ d.point i ∧ d.point i ≤ d.max
          ∧ (i + 1 < d.division → d.point i ≤ d.point (i + 1)))
      ∧ ((d.max - d.min).isFinite = false → ∀ i < d.division,
        d.point i = if i = 0 then Float.nan else Float.inf) := by
  have h := isSensible_of_new h
  have hround := rounds_sub h.finite_max h.finite_min
  have hwidth : (d.max - d.min).isFinite = true ↔ |rounded d.width| < 2 ^ 1024 := by
    refine ⟨fun hfinite => lt_of_not_ge fun hlarge => ?_, fun hlt => (hround.finite hlt).1⟩
    rw [hround.eq_inf (width_pos h).le hlarge] at hfinite
    cases hfinite
  refine ⟨?_, ?_, ?_⟩
  · rw [hwidth, abs_rounded_lt_iff, abs_of_pos (width_pos h), width]
  · intro hfinite i hi
    have hpoint {j : ℕ} (hj : j < d.division) := value_point h (hwidth.1 hfinite) hj
    obtain ⟨hreal, hvalue⟩ := hpoint hi
    refine ⟨hreal, ?_, ?_, fun hi' => ?_⟩
    · rw [le_iff_value_le h.finite_min hreal, hvalue]
      exact min_le_place h i
    · rw [le_iff_value_le hreal h.finite_max, hvalue]
      exact place_le_max h hi
    · obtain ⟨hreal', hvalue'⟩ := hpoint hi'
      rw [le_iff_value_le hreal hreal', hvalue, hvalue']
      exact place_le_place h i.le_succ
  · intro hinfinite i hi
    refine point_of_overflow h (le_of_not_gt fun hlt => ?_) hi
    rw [hwidth.2 hlt] at hinfinite
    cases hinfinite

/-- A domain across zero, whose points are in order, beside one whose width is no double. -/
theorem points_in_order_narrow_and_wide :
    let narrow : Domain := ⟨-1, 1, 4⟩
    let wide : Domain := ⟨-1e308, 1e308, 2⟩
    Domain.new (-1) 1 4 = .ok narrow ∧ (narrow.max - narrow.min).isFinite = true
      ∧ (narrow.point 2).isFinite = true ∧ narrow.min ≤ narrow.point 2
      ∧ narrow.point 2 ≤ narrow.max ∧ narrow.point 2 ≤ narrow.point 3
      ∧ Domain.new (-1e308) 1e308 2 = .ok wide ∧ (wide.max - wide.min).isFinite = false
      ∧ wide.point 0 = Float.nan ∧ wide.point 1 = Float.inf := by
  have hnarrow : Domain.new (-1) 1 4 = .ok ⟨-1, 1, 4⟩ := by decide
  have hwide : Domain.new (-1e308) 1e308 2 = .ok ⟨-1e308, 1e308, 2⟩ := by decide +kernel
  have hfinite : ((1 : Float) - -1).isFinite = true := by decide
  have hinfinite : ((1e308 : Float) - -1e308).isFinite = false := by decide +kernel
  obtain ⟨hreal, hmin, hmax, hnext⟩ := (points_in_order hnarrow).2.1 hfinite 2 (by decide)
  have hpoints := (points_in_order hwide).2.2 hinfinite
  exact ⟨hnarrow, hfinite, hreal, hmin, hmax, hnext (by decide), hwide, hinfinite,
    hpoints 0 (by decide), hpoints 1 (by decide)⟩

/-- Two ends that are finite, and so far apart that no point is. -/
theorem point_of_wide :
    let d : Domain := ⟨-1e308, 1e308, 2⟩
    Domain.new (-1e308) 1e308 2 = .ok d ∧ (d.point 0).isNaN = true ∧ (d.point 1).isInf = true
      ∧ ¬ d.min ≤ d.point 0 ∧ ¬ d.point 1 ≤ d.max := by
  decide +kernel

end Domain

end FormulaPlot
