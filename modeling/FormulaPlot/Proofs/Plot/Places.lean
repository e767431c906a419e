import FormulaPlot.Proofs.Plot.Samples
import Mathlib.Algebra.Group.Nat.Defs

/-!
# Proofs/Plot/Places — how far going through the points has got

Whatever the domain, `k` times the next point lead to one place, of index `k` or of the number of
divisions if that is less (`Points.after_points`).  So what is told to be left is what is left, a
point is given exactly while one is, and the end once reached is never left:

* `Points.exact_after` — the length, the next point and the end, after any number of points.

Indices and lengths are natural numbers here.  The index never gets past the divisions, so numbers
of 64 bits do as well (`Points.toNat_index_succ`, `Points.toNat_length`).
-/

namespace FormulaPlot

namespace Points

/-- The place after asking `k` times for the next point, whether there is one or not. -/
def after (p : Points) : Nat → Points
  | 0 => p
  | k + 1 => (p.after k).next.2

/-- **One step**: the index goes up by one until it is the number of divisions. -/
theorem next_snd {p : Points} (h : p.index ≤ p.domain.division) :
    p.next.2 = { p with index := min (p.index + 1) p.domain.division } := by
  obtain ⟨d, i⟩ := p
  have hle : i ≤ d.division := h
  rcases Nat.lt_or_eq_of_le hle with hlt | rfl
  · rw [next_of_lt hlt, Nat.min_eq_left hlt]
  · rw [next_of_le (Nat.le_refl _), Nat.min_eq_right (Nat.le_succ _)]

/-- **Any number of steps**: the index counts them, up to the number of divisions. -/
theorem after_points (d : Domain) (k : Nat) : d.points.after k = ⟨d, min k d.division⟩ := by
  induction k with
  | zero => rw [Nat.zero_min]; rfl
  | succ k ih =>
    have hle : min k d.division ≤ d.division := Nat.min_le_right k _
    rw [after, ih, next_snd hle]
    refine congrArg (Points.mk d) ?_
    show min (min k d.division + 1) d.division = min (k + 1) d.division
    omega

/-- The next point behind `k` others is the one with index `k`, if the domain has it. -/
theorem next_after_points (d : Domain) (k : Nat) :
    (d.points.after k).next.1 = if k < d.division then some (d.point k) else none := by
  rw [after_points]
  by_cases hlt : k < d.division
  · rw [Nat.min_eq_left (Nat.le_of_lt hlt), next_of_lt hlt, if_pos hlt]
  · rw [Nat.min_eq_right (Nat.le_of_not_lt hlt), next_of_le (Nat.le_refl _), if_neg hlt]

theorem length_after_points (d : Domain) (k : Nat) :
    (d.points.after k).length = d.division - k := by
  rw [after_points]
  show d.division - min k d.division = d.division - k
  omega

/-! ## Words -/

/-- **The index goes up as a word of 64 bits does**, where a point is left. -/
theorem toNat_index_succ {p : Points} (hword : p.domain.division < 2 ^ 64)
    (h : p.index < p.domain.division) : (UInt64.ofNat p.index + 1).toNat = p.index + 1 := by
  have hindex : (UInt64.ofNat p.index).toNat = p.index :=
    UInt64.toNat_ofNat_of_lt (Nat.lt_trans h hword)
  rw [UInt64.toNat_add, hindex]
  exact Nat.mod_eq_of_lt (Nat.lt_of_le_of_lt h hword)

/-- **The length is a difference of words**, where the index is not past the divisions. -/
theorem toNat_length {p : Points} (hword : p.domain.division < 2 ^ 64)
    (h : p.index ≤ p.domain.division) :
    (UInt64.ofNat p.domain.division - UInt64.ofNat p.index).toNat = p.length := by
  have hindex : (UInt64.ofNat p.index).toNat = p.index :=
    UInt64.toNat_ofNat_of_lt (Nat.lt_of_le_of_lt h hword)
  have hdivision : (UInt64.ofNat p.domain.division).toNat = p.domain.division :=
    UInt64.toNat_ofNat_of_lt hword
  have hle : UInt64.ofNat p.index ≤ UInt64.ofNat p.domain.division :=
    UInt64.le_iff_toNat_le.2 (by rwa [hindex, hdivision])
  rw [UInt64.toNat_sub_of_le _ _ hle, hindex, hdivision, length]

/-! ## The places of a domain -/

/-- **Going through the points is exact at every place**, whatever the bounds and divisions of the
domain are.  After `k` points have been asked for, the length is what is left of the divisions; the
next point is that of index `k` while there is one, and none from then on, with nothing left; and
the index is at most the number of divisions, so neither it nor the length leaves the numbers of 64
bits if that number is one. -/
theorem exact_after (d : Domain) (k : Nat) :
    (d.points.after k).length = d.division - k
      ∧ (d.points.after k).next.1 = (if k < d.division then some (d.point k) else none)
      ∧ ((d.points.after k).next.1 = none → ∀ j,
        (d.points.after (k + j)).next.1 = none ∧ (d.points.after (k + j)).length = 0)
      ∧ (d.points.after k).index ≤ d.division
      ∧ (d.division < 2 ^ 64 →
        (k < d.division → (UInt64.ofNat (d.points.after k).index + 1).toNat
            = (d.points.after (k + 1)).index)
          ∧ (UInt64.ofNat d.division - UInt64.ofNat (d.points.after k).index).toNat
            = (d.points.after k).length) := by
  have hplace := after_points d k
  have hle : (d.points.after k).index ≤ d.division := by
    rw [hplace]
    exact Nat.min_le_right k _
  refine ⟨length_after_points d k, next_after_points d k, fun hend j => ?_, hle,
    fun hword => ⟨fun hlt => ?_, ?_⟩⟩
  · have hpast : ¬ k + j < d.division := by
      rw [next_after_points, ite_eq_right_iff] at hend
      exact fun hlt => absurd (hend (by omega)) (Option.some_ne_none _)
    rw [next_after_points, length_after_points, if_neg hpast]
    exact ⟨rfl, by omega⟩
  · have hsucc := toNat_index_succ (p := ⟨d, k⟩) hword hlt
    rw [hplace, after_points, Nat.min_eq_left (Nat.le_of_lt hlt), Nat.min_eq_left hlt]
    exact hsucc
  · rw [hplace] at hle ⊢
    exact toNat_length (p := ⟨d, min k d.division⟩) hword hle

/-- The last point of the largest number of divisions, between bounds that are none, and a domain
without points. -/
theorem exact_after_largest_and_empty :
    let largest : Domain := ⟨0 / 0, -1, 2 ^ 64 - 1⟩
    let empty : Domain := ⟨3, 2, 0⟩
    let last : Nat := 2 ^ 64 - 2
    (largest.division < 2 ^ 64 ∧ last < largest.division
        ∧ (largest.points.after last).length = 1
        ∧ (UInt64.ofNat (largest.points.after last).index + 1).toNat
          = (largest.points.after (last + 1)).index)
      ∧ (empty.points.after 0).next.1 = none ∧ (empty.points.after (0 + 5)).length = 0 := by
  intro largest empty last
  have hword : largest.division < 2 ^ 64 := by decide
  have hlt : last < largest.division := by decide
  have hleft : largest.division - last = 1 := by decide
  obtain ⟨hlength, -, -, -, hwords⟩ := exact_after largest last
  obtain ⟨-, hnext, hend, -⟩ := exact_after empty 0
  exact ⟨⟨hword, hlt, hlength.trans hleft, (hwords hword).1 hlt⟩, hnext, (hend hnext 5).2⟩

end Points

end FormulaPlot
