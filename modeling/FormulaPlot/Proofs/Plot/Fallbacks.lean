import FormulaPlot.Plot.Block
import FormulaPlot.Proofs.Number.Whole

/-!
# Proofs/Plot/Fallbacks — a block's domain is one that would be accepted

`Domain.new` refuses what is no interval, and too few or too many divisions.  `Block.domain` refuses
nothing: it takes the bounds and the divisions that a block's fields spell, or else the default
ones.  The two ask for the same (`new_eq_ok_iff`, `range?_eq_some_iff`, `division?_eq_some_iff`),
though one compares natural numbers and the other asks whether a double is whole, compares it with
doubles and makes it a word (`isDivisions_iff`, `isDivisions_iff_fract`).

* `Block.domain_accepted` — what a block's domain takes from its fields, and that it is accepted.
-/

namespace FormulaPlot

/-! ## What is accepted -/

theorem isRange_iff {lo hi : Float} :
    isRange lo hi = true ↔ lo.isFinite = true ∧ hi.isFinite = true ∧ lo < hi := by
  rw [isRange, Bool.and_eq_true, Bool.and_eq_true, decide_eq_true_iff, and_assoc]

/-- **What is accepted** is an interval with a sensible number of divisions, and it is kept. -/
theorem Domain.new_eq_ok_iff {lo hi : Float} {n : Nat} {d : Domain} :
    Domain.new lo hi n = .ok d
      ↔ isRange lo hi = true ∧ (2 ≤ n ∧ n ≤ maxDivision) ∧ d = ⟨lo, hi, n⟩ := by
  unfold Domain.new
  cases isRange lo hi with
  | false => simp
  | true =>
    by_cases hfew : n < 2
    · simp [hfew]
    · by_cases hmany : maxDivision < n
      · simp [hfew, hmany]
      · simp [hfew, hmany, eq_comm]
        omega

/-! ## What fields spell -/

/-- The field is there and spells the number `v`. -/
def Spells (field : Option String) (v : Float) : Prop :=
  (field.bind fun s => Number.read? s.toList) = some v

instance (field : Option String) (v : Float) : Decidable (Spells field v) :=
  inferInstanceAs (Decidable (_ = _))

theorem Spells.unique {field : Option String} {v w : Float} (hv : Spells field v)
    (hw : Spells field w) : v = w := Option.some.inj (hv.symm.trans hw)

/-- A double that is a number of divisions: a whole number from two to the largest one. -/
def IsDivisions (v : Float) : Prop :=
  2 ≤ v ∧ v ≤ Float.ofNat maxDivision ∧ ∃ k : ℤ, Number.value v = k

/-- **A number of divisions** is one as a double exactly if it is one as a natural number. -/
theorem isDivisions_iff {v : Float} :
    IsDivisions v ↔ v.isFinite = true
      ∧ ∃ n : Nat, Number.value v = n ∧ 2 ≤ n ∧ n ≤ maxDivision := by
  obtain ⟨htwo, hvalueTwo⟩ : (2 : Float).isFinite = true ∧ Number.value 2 = (2 : Nat) :=
    Number.value_ofNat (by decide)
  obtain ⟨hmax, hvalueMax⟩ := Number.value_ofNat (n := maxDivision) (by decide)
  constructor
  · rintro ⟨hfew, hmany, k, hk⟩
    have hv : v.isFinite = true := Number.isFinite_of_le htwo hmax hfew hmany
    rw [Number.le_iff_value_le htwo hv, hvalueTwo, hk] at hfew
    rw [Number.le_iff_value_le hv hmax, hvalueMax, hk] at hmany
    have hfew : 2 ≤ k := by exact_mod_cast hfew
    have hmany : k ≤ maxDivision := by exact_mod_cast hmany
    lift k to ℕ using by omega
    exact ⟨hv, k, by exact_mod_cast hk, by omega, by omega⟩
  · rintro ⟨hv, n, hn, hfew, hmany⟩
    rw [IsDivisions, Number.le_iff_value_le htwo hv, Number.le_iff_value_le hv hmax, hvalueTwo,
      hvalueMax, hn]
    exact ⟨by exact_mod_cast hfew, by exact_mod_cast hmany, n, by exact_mod_cast rfl⟩

/-- What is asked of a double says that it is a number of divisions. -/
theorem isDivisions_iff_fract {v : Float} (h : v.isFinite = true) :
    IsDivisions v ↔ (Number.fract v == 0) = true ∧ 2 ≤ v ∧ v ≤ Float.ofNat maxDivision := by
  rw [Number.fract_beq_zero_iff h, IsDivisions, ← and_assoc, and_comm]

/-- A number of divisions is not changed by making it a word. -/
theorem IsDivisions.value_eq {v : Float} (h : IsDivisions v) :
    Number.value v = v.toUInt64.toNat := by
  obtain ⟨hfinite, n, hn, -, hmany⟩ := isDivisions_iff.1 h
  rw [Number.toNat_toUInt64 hfinite hn (hmany.trans_lt (by decide)), hn]

namespace Block

variable {b : Block}

theorem finite?_eq_some_iff {field : Option String} {v : Float} :
    finite? field = some v ↔ Spells field v ∧ v.isFinite = true := by
  rw [finite?, Option.filter_eq_some_iff]
  rfl

/-- **A block gives bounds** if two of its fields spell the ends of an interval. -/
theorem range?_eq_some_iff {lo hi : Float} :
    b.range? = some (lo, hi) ↔ Spells b.min lo ∧ Spells b.max hi ∧ isRange lo hi = true := by
  rw [isRange_iff]
  constructor
  · intro h
    unfold range? at h
    split at h
    · next lo' hi' hlo hhi =>
      obtain ⟨hlt, heq⟩ := Option.ite_none_right_eq_some.1 h
      obtain ⟨rfl, rfl⟩ := Prod.mk.inj (Option.some.inj heq)
      rw [finite?_eq_some_iff] at hlo hhi
      exact ⟨hlo.1, hhi.1, hlo.2, hhi.2, hlt⟩
    · cases h
  · rintro ⟨hmin, hmax, hlo, hhi, hlt⟩
    rw [range?, finite?_eq_some_iff.2 ⟨hmin, hlo⟩, finite?_eq_some_iff.2 ⟨hmax, hhi⟩]
    exact if_pos hlt

/-- **A block gives divisions** if a field spells a number of divisions. -/
theorem division?_eq_some_iff {n : Nat} :
    b.division? = some n ↔ ∃ v, Spells b.division v ∧ IsDivisions v ∧ Number.value v = n := by
  simp only [division?, Option.map_eq_some_iff, Option.filter_eq_some_iff, finite?_eq_some_iff,
    Bool.and_eq_true, decide_eq_true_iff]
  constructor
  · rintro ⟨v, ⟨⟨hspells, hfinite⟩, ⟨hwhole, hfew⟩, hmany⟩, rfl⟩
    have hdivisions := (isDivisions_iff_fract hfinite).2 ⟨hwhole, hfew, hmany⟩
    exact ⟨v, hspells, hdivisions, hdivisions.value_eq⟩
  · rintro ⟨v, hspells, hdivisions, hvalue⟩
    have hfinite := (isDivisions_iff.1 hdivisions).1
    obtain ⟨hwhole, hfew, hmany⟩ := (isDivisions_iff_fract hfinite).1 hdivisions
    refine ⟨v, ⟨⟨hspells, hfinite⟩, ⟨hwhole, hfew⟩, hmany⟩, ?_⟩
    exact_mod_cast hdivisions.value_eq.symm.trans hvalue

/-! ## The domain -/

theorem bounds_domain (b : Block) : (b.domain.min, b.domain.max) = b.range?.getD (0, 1) := rfl

theorem division_domain (b : Block) : b.domain.division = b.division?.getD 100 := rfl

/-- Bounds that a block gives are those of its domain. -/
theorem bounds_domain_of_range? {lo hi : Float} (h : b.range? = some (lo, hi)) :
    b.domain.min = lo ∧ b.domain.max = hi := by
  have hbounds := bounds_domain b
  rw [h] at hbounds
  exact Prod.mk.inj hbounds

/-- Without them it has the default ones. -/
theorem bounds_domain_of_not_range (h : ∀ lo hi, b.range? ≠ some (lo, hi)) :
    b.domain.min = 0 ∧ b.domain.max = 1 := by
  have hnone : b.range? = none := Option.eq_none_iff_forall_ne_some.2 fun _ => h _ _
  have hbounds := bounds_domain b
  rw [hnone] at hbounds
  exact Prod.mk.inj hbounds

theorem division_domain_of_division? {n : Nat} (h : b.division? = some n) :
    b.domain.division = n := by rw [division_domain, h, Option.getD_some]

theorem division_domain_of_not_division (h : ∀ n, b.division? ≠ some n) :
    b.domain.division = 100 := by
  rw [division_domain, Option.eq_none_iff_forall_ne_some.2 h, Option.getD_none]

/-- **The bounds of a block's domain** are those of an interval. -/
theorem isRange_domain (b : Block) : isRange b.domain.min b.domain.max = true := by
  by_cases h : ∃ lo hi, b.range? = some (lo, hi)
  · obtain ⟨lo, hi, h⟩ := h
    obtain ⟨hmin, hmax⟩ := bounds_domain_of_range? h
    rw [hmin, hmax]
    exact (range?_eq_some_iff.1 h).2.2
  · obtain ⟨hmin, hmax⟩ := bounds_domain_of_not_range fun lo hi hrange => h ⟨lo, hi, hrange⟩
    rw [hmin, hmax]
    decide

/-- **Its divisions** are neither too few nor too many. -/
theorem division_domain_mem (b : Block) :
    2 ≤ b.domain.division ∧ b.domain.division ≤ maxDivision := by
  by_cases h : ∃ n, b.division? = some n
  · obtain ⟨n, h⟩ := h
    obtain ⟨v, -, hdivisions, hvalue⟩ := division?_eq_some_iff.1 h
    obtain ⟨-, m, hm, hbounds⟩ := isDivisions_iff.1 hdivisions
    obtain rfl : m = n := by exact_mod_cast hm.symm.trans hvalue
    rwa [division_domain_of_division? h]
  · rw [division_domain_of_not_division fun n hn => h ⟨n, hn⟩]
    decide

/-- **A block's domain is accepted as it is.**  Its bounds are what the two fields spell, if those
are the ends of an interval, and else both are the default ones; its divisions are what the third
field spells, if that is a number of divisions, and else the default ones.  Neither choice looks at
the other's fields.  So fields that spell what would be accepted as a domain give that domain. -/
theorem domain_accepted (b : Block) :
    Domain.new b.domain.min b.domain.max b.domain.division = .ok b.domain
      ∧ (∀ lo hi, Spells b.min lo → Spells b.max hi →
        lo.isFinite = true → hi.isFinite = true → lo < hi →
          b.domain.min = lo ∧ b.domain.max = hi)
      ∧ ((∀ lo hi, Spells b.min lo → Spells b.max hi →
        ¬ (lo.isFinite = true ∧ hi.isFinite = true ∧ lo < hi)) →
          b.domain.min = 0 ∧ b.domain.max = 1)
      ∧ (∀ v, Spells b.division v → IsDivisions v →
        (b.domain.division : ℚ) = Number.value v)
      ∧ ((∀ v, Spells b.division v → ¬ IsDivisions v) → b.domain.division = 100)
      ∧ (∀ b' : Block, b'.min = b.min → b'.max = b.max →
        b'.domain.min = b.domain.min ∧ b'.domain.max = b.domain.max)
      ∧ (∀ b' : Block, b'.division = b.division → b'.domain.division = b.domain.division)
      ∧ ∀ lo hi v (n : Nat) d, Spells b.min lo → Spells b.max hi → Spells b.division v →
        v.isFinite = true → Number.value v = n → Domain.new lo hi n = .ok d → b.domain = d := by
  have hbounds {lo hi : Float} (hmin : Spells b.min lo) (hmax : Spells b.max hi)
      (hrange : isRange lo hi = true) : b.domain.min = lo ∧ b.domain.max = hi :=
    bounds_domain_of_range? (range?_eq_some_iff.2 ⟨hmin, hmax, hrange⟩)
  have hdivision {v : Float} {n : Nat} (hv : Spells b.division v) (hdivisions : IsDivisions v)
      (hvalue : Number.value v = n) : b.domain.division = n :=
    division_domain_of_division? (division?_eq_some_iff.2 ⟨v, hv, hdivisions, hvalue⟩)
  refine ⟨?_, ?_, ?_, ?_, ?_, ?_, ?_, ?_⟩
  · exact Domain.new_eq_ok_iff.2 ⟨isRange_domain b, division_domain_mem b, rfl⟩
  · intro lo hi hmin hmax hlo hhi hlt
    exact hbounds hmin hmax (isRange_iff.2 ⟨hlo, hhi, hlt⟩)
  · intro hnone
    refine bounds_domain_of_not_range fun lo hi h => ?_
    obtain ⟨hmin, hmax, hrange⟩ := range?_eq_some_iff.1 h
    exact hnone lo hi hmin hmax (isRange_iff.1 hrange)
  · intro v hv hdivisions
    obtain ⟨-, n, hvalue, -⟩ := isDivisions_iff.1 hdivisions
    rw [hdivision hv hdivisions hvalue, hvalue]
  · intro hnone
    refine division_domain_of_not_division fun n h => ?_
    obtain ⟨v, hv, hdivisions, -⟩ := division?_eq_some_iff.1 h
    exact hnone v hv hdivisions
  · intro b' hmin hmax
    have hrange : b'.range? = b.range? := by rw [range?, hmin, hmax, range?]
    have hsame : (b'.domain.min, b'.domain.max) = (b.domain.min, b.domain.max) := by
      rw [bounds_domain, bounds_domain, hrange]
    exact Prod.mk.inj hsame
  · intro b' h
    rw [division_domain, division_domain, division?, h, division?]
  · intro lo hi v n d hmin hmax hv hfinite hvalue hd
    obtain ⟨hrange, hn, rfl⟩ := Domain.new_eq_ok_iff.1 hd
    obtain ⟨hlo, hhi⟩ := hbounds hmin hmax hrange
    have hcount := hdivision hv (isDivisions_iff.2 ⟨hfinite, n, hvalue, hn⟩) hvalue
    rw [← hlo, ← hhi, ← hcount]

/-- A block whose fields are used, beside one whose bounds are no interval, one end of them being
infinite, and whose divisions are no whole number. -/
theorem domain_accepted_used_and_default :
    let used : Block := ⟨"x", some "-2.5e1", some "4", some "30.0"⟩
    let unused : Block := ⟨"x", some "1", some "inf", some "2.5"⟩
    Spells used.min (-25) ∧ Spells used.max 4 ∧ Spells used.division 30 ∧ IsDivisions 30
      ∧ used.domain.min = -25 ∧ used.domain.max = 4
      ∧ (used.domain.division : ℚ) = Number.value 30
      ∧ Domain.new (-25) 4 30 = .ok ⟨-25, 4, 30⟩ ∧ used.domain = ⟨-25, 4, 30⟩
      ∧ Spells unused.min 1 ∧ Spells unused.max (1 / 0) ∧ Spells unused.division 2.5
      ∧ unused.domain.min = 0 ∧ unused.domain.max = 1 ∧ unused.domain.division = 100
      ∧ (Block.domain { used with division := none }).min = used.domain.min
      ∧ (Block.domain { unused with division := used.division }).division
        = used.domain.division := by
  intro used unused
  have hmin : Spells used.min (-25) := by decide
  have hmax : Spells used.max 4 := by decide
  have hdivision : Spells used.division 30 := by decide
  have hmin' : Spells unused.min 1 := by decide
  have hmax' : Spells unused.max (1 / 0) := by decide
  have hdivision' : Spells unused.division 2.5 := by decide
  obtain ⟨hfinite, hvalue⟩ : (30 : Float).isFinite = true ∧ Number.value 30 = (30 : Nat) :=
    Number.value_ofNat (by decide)
  have hdivisions : IsDivisions 30 :=
    isDivisions_iff.2 ⟨hfinite, 30, hvalue, by decide, by decide⟩
  have hnew : Domain.new (-25) 4 30 = .ok ⟨-25, 4, 30⟩ :=
    Domain.new_eq_ok_iff.2 ⟨by decide, by decide, rfl⟩
  obtain ⟨-, hrange, -, hspelled, -, hbounds, hcount, hdomain⟩ := domain_accepted used
  have hrange := hrange (-25) 4 hmin hmax (by decide) (by decide) (by decide)
  obtain ⟨-, -, hnoBounds, -, hnoCount, -⟩ := domain_accepted unused
  have hnoBounds := hnoBounds fun lo hi hlo hhi hrange => by
    obtain rfl := hmax'.unique hhi
    exact absurd hrange.2.1 (by decide)
  have hnoCount := hnoCount fun v hv hdivisions => by
    obtain rfl := hdivision'.unique hv
    exact absurd ((isDivisions_iff_fract (by decide)).1 hdivisions).1 (by decide)
  have hsame : used.domain = ⟨-25, 4, 30⟩ :=
    hdomain _ _ _ 30 _ hmin hmax hdivision hfinite hvalue hnew
  exact ⟨hmin, hmax, hdivision, hdivisions, hrange.1, hrange.2,
    hspelled 30 hdivision hdivisions, hnew, hsame, hmin', hmax', hdivision', hnoBounds.1,
    hnoBounds.2, hnoCount, (hbounds _ rfl rfl).1, hcount _ rfl⟩

end Block

end FormulaPlot
