import FormulaPlot.Plot.Sample
import FormulaPlot.Proofs.Formula.WellFormed
import FormulaPlot.Proofs.Number.NotANumber

/-!
# Proofs/Engine/Undefined — where the value of a formula is not a number

Operators turn not-a-number into `0`, and most functions look at their argument before they answer.
The circular ones do not: at an infinity, which an overflow leads to or a division by the legacy
rule, they have no number to answer, and a function around them may pass that on.

* `Builtin.isNaN_apply` — when a function answers not-a-number;
* `Expr.isNaN_reduce_iff` — a well-formed tree comes to it exactly if it is undefined there;
* `isNaN_value_iff` — so the value of a formula is a number where no circular function meets an
  infinity.
-/

namespace FormulaPlot

open Number

/-! ## Functions -/

/-- A library whose functions answer not-a-number to not-a-number and outside their domains, and
nowhere else; the random draw is a number. -/
structure Elementary.KeepsDomains (lib : Elementary) : Prop where
  sin (v : Float) : (lib.sin v).isNaN = !v.isFinite
  cos (v : Float) : (lib.cos v).isNaN = !v.isFinite
  tan (v : Float) : (lib.tan v).isNaN = !v.isFinite
  asin (v : Float) : (lib.asin v).isNaN = !decide (-1 ≤ v ∧ v ≤ 1)
  acos (v : Float) : (lib.acos v).isNaN = !decide (-1 ≤ v ∧ v ≤ 1)
  atan (v : Float) : (lib.atan v).isNaN = v.isNaN
  sinh (v : Float) : (lib.sinh v).isNaN = v.isNaN
  cosh (v : Float) : (lib.cosh v).isNaN = v.isNaN
  tanh (v : Float) : (lib.tanh v).isNaN = v.isNaN
  log (v : Float) : (lib.log v).isNaN = !decide (0 ≤ v)
  floor (v : Float) : (lib.floor v).isNaN = v.isNaN
  ceil (v : Float) : (lib.ceil v).isNaN = v.isNaN
  draw : lib.draw.isNaN = false

namespace Builtin

/-- Whether a function is one of angles, which has no value at an infinity. -/
def isCircular : Builtin → Bool
  | sin | cos | tan => true
  | _ => false

/-- Whether a function answers not-a-number to not-a-number. -/
def passesOn : Builtin → Bool
  | asin | acos | atan | log | random | sqrt => false
  | _ => true

theorem isNaN_of_inUnitInterval {v : Float} (h : inUnitInterval v = true) : v.isNaN = false := by
  rw [inUnitInterval, Bool.and_eq_true, decide_eq_true_eq] at h
  exact (isNaN_of_lt h.1).2

/-- What is strictly between `-1` and `1` is in the domain of the inverse circular functions. -/
theorem le_of_inUnitInterval {v : Float} (h : inUnitInterval v = true) : -1 ≤ v ∧ v ≤ 1 := by
  rw [inUnitInterval, Bool.and_eq_true, decide_eq_true_eq, decide_eq_true_eq] at h
  exact ⟨le_of_lt h.1, le_of_lt h.2⟩

/-- A guarded function answers a number if it does where its guard lets it. -/
theorem isNaN_ite_zero {p : Prop} [Decidable p] {y : Float} (h : p → y.isNaN = false) :
    (if p then y else 0).isNaN = false := by
  split
  · next hp => exact h hp
  · exact isNaN_zero

theorem isNaN_sign (v : Float) :
    (if 0 < v then 1 else if v < 0 then -1 else v).isNaN = v.isNaN := by
  split
  · next h => exact (isNaN_of_lt h).2.symm
  · split
    · next h => exact (isNaN_of_lt h).1.symm
    · rfl

/-- **When a function answers not-a-number**: a circular one at an infinity, and one that passes
not-a-number on there. -/
theorem isNaN_apply {lib : Elementary} (hlib : lib.KeepsDomains) (f : Builtin) (v : Float) :
    (f.apply lib v).isNaN = (f.isCircular && v.isInf || f.passesOn && v.isNaN) := by
  cases f with
  | sin => exact (hlib.sin v).trans (not_isFinite v)
  | cos => exact (hlib.cos v).trans (not_isFinite v)
  | tan => exact (hlib.tan v).trans (not_isFinite v)
  | sinh => exact hlib.sinh v
  | cosh => exact hlib.cosh v
  | tanh => exact hlib.tanh v
  | floor => exact hlib.floor v
  | ceil => exact hlib.ceil v
  | abs => exact isNaN_abs v
  | sign => exact isNaN_sign v
  | random => exact hlib.draw
  -- The guards let through only what is in the domain.
  | asin =>
    refine isNaN_ite_zero fun h => ?_
    rw [hlib.asin, decide_eq_true (le_of_inUnitInterval h), Bool.not_true]
  | acos =>
    refine isNaN_ite_zero fun h => ?_
    rw [hlib.acos, decide_eq_true (le_of_inUnitInterval h), Bool.not_true]
  | atan => exact isNaN_ite_zero fun h => (hlib.atan v).trans (isNaN_of_inUnitInterval h)
  | log =>
    refine isNaN_ite_zero fun h => ?_
    rw [hlib.log, decide_eq_true (le_of_lt h), Bool.not_true]
  | sqrt => exact isNaN_ite_zero isNaN_sqrt

end Builtin

/-! ## Operators -/

theorem isNaN_orZero (v : Float) : (orZero v).isNaN = false := by
  unfold orZero
  split
  · exact isNaN_zero
  · next h => exact Bool.eq_false_iff.2 h

namespace Arithmetic

variable (ar : Arithmetic)

/-- A quotient or a remainder is a number, by either rule for the divisor. -/
theorem isNaN_ite_orZero (p : Bool) (v : Float) : (if p then 0 else orZero v).isNaN = false := by
  split
  · exact isNaN_zero
  · exact isNaN_orZero v

/-- **An arithmetic operation gives a number**, whatever it is done to. -/
theorem isNaN_compute (op : Operator) (a b : Float) : (ar.compute op a b).isNaN = false := by
  cases op with
  | add => exact isNaN_orZero _
  | sub => exact isNaN_orZero _
  | mul => exact isNaN_orZero _
  | pow => exact isNaN_orZero _
  | apply => exact isNaN_zero
  | div =>
    show (ar.quotient a b).isNaN = false
    unfold quotient
    split <;> exact isNaN_ite_orZero _ _
  | mod =>
    show (ar.modulus a b).isNaN = false
    unfold modulus
    split <;> exact isNaN_ite_orZero _ _

/-- **Only a call** gives not-a-number. -/
theorem isNaN_combine_iff {op : Operator} {a b : Value} :
    (ar.combine op a b).isNaN = true ↔ ∃ f v, op = .apply ∧ a = .function f ∧ b = .number v
      ∧ (f.apply ar.lib v).isNaN = true := by
  constructor
  · intro h
    unfold combine at h
    split at h
    · next f v => exact ⟨f, v, rfl, rfl, rfl, h⟩
    · rw [isNaN_compute] at h
      cases h
    · rw [isNaN_zero] at h
      cases h
  · rintro ⟨f, v, rfl, rfl, rfl, h⟩
    exact h

end Arithmetic

/-! ## Trees -/

namespace Expr

variable (ar : Arithmetic) (x : Float)

/-- A tree comes to not-a-number at `x`: a call of a circular function on an infinity, or of a
function that passes it on, on a tree that does. -/
inductive IsUndefined : Expr → Prop
  | angle {name : String} {f : Builtin} {e : Expr} {v : Float}
      (callee : Builtin.ofName? name = some f) (circular : f.isCircular = true)
      (argument : e.reduce ar x = .number v) (infinite : v.isInf = true) :
      IsUndefined (.node .apply (.identifier name) e)
  | passed {name : String} {f : Builtin} {e : Expr} (callee : Builtin.ofName? name = some f)
      (passes : f.passesOn = true) (argument : IsUndefined e) :
      IsUndefined (.node .apply (.identifier name) e)

/-- The arguments of the calls of circular functions in a tree. -/
def angles : Expr → List Expr
  | literal _ => []
  | identifier _ => []
  | node .apply (identifier name) right =>
    if (Builtin.ofName? name).any Builtin.isCircular then right :: right.angles else right.angles
  | node _ left right => left.angles ++ right.angles

variable {ar x}

/-- Somewhere in an undefined tree a circular function meets an infinity. -/
theorem IsUndefined.exists_angle {e : Expr} (h : e.IsUndefined ar x) :
    ∃ a ∈ e.angles, ∃ v, a.reduce ar x = .number v ∧ v.isInf = true := by
  induction h with
  | @angle name f e v callee circular argument infinite =>
    refine ⟨e, ?_, v, argument, infinite⟩
    rw [angles, callee, Option.any_some, if_pos circular]
    exact List.mem_cons_self
  | @passed name f e callee passes argument ih =>
    obtain ⟨a, ha, hv⟩ := ih
    refine ⟨a, ?_, hv⟩
    rw [angles]
    split
    · exact List.mem_cons_of_mem _ ha
    · exact ha

theorem resolve_eq_function_iff {name : String} {f : Builtin} :
    resolve name x = .function f ↔ Builtin.ofName? name = some f := by
  cases hname : Builtin.ofName? name with
  | none =>
    obtain ⟨v, hv⟩ := resolve_of_unknown hname x
    rw [hv]
    exact iff_of_false nofun nofun
  | some g =>
    rw [resolve, hname]
    simp

/-- An identifier stands for a function or for a number. -/
theorem isNaN_of_resolve (hx : x.isNaN = false) {name : String} {v : Float}
    (h : resolve name x = .number v) : v.isNaN = false := by
  unfold resolve at h
  split at h
  · cases h
  · split at h
    · cases h
      decide
    · split at h
      · cases h
        decide
      · cases h
        exact hx

/-- **A well-formed tree comes to not-a-number** at a number exactly if it is undefined there. -/
theorem isNaN_reduce_iff (hlib : ar.lib.KeepsDomains) (hx : x.isNaN = false) {e : Expr}
    (he : e.IsWellFormed) :
    (∃ v, e.reduce ar x = .number v ∧ v.isNaN = true) ↔ e.IsUndefined ar x := by
  induction he with
  | literal unsigned =>
    refine iff_of_false ?_ nofun
    rintro ⟨_, ⟨⟩, hv⟩
    exact Bool.false_ne_true (unsigned.1.symm.trans hv)
  | identifier name =>
    refine iff_of_false ?_ nofun
    rintro ⟨v, hreduce, hv⟩
    exact Bool.false_ne_true ((isNaN_of_resolve hx hreduce).symm.trans hv)
  | @call name e _ _ ih =>
    constructor
    · rintro ⟨_, ⟨⟩, hv⟩
      obtain ⟨f, v, -, hcallee, hargument, hv⟩ := ar.isNaN_combine_iff.1 hv
      have hname := resolve_eq_function_iff.1 hcallee
      rw [Builtin.isNaN_apply hlib, Bool.or_eq_true, Bool.and_eq_true, Bool.and_eq_true] at hv
      rcases hv with ⟨hcircular, hinf⟩ | ⟨hpasses, hnan⟩
      · exact .angle hname hcircular hargument hinf
      · exact .passed hname hpasses (ih.1 ⟨v, hargument, hnan⟩)
    · intro h
      cases h with
      | @angle _ f _ v callee circular argument infinite =>
        refine ⟨_, rfl, ar.isNaN_combine_iff.2
          ⟨f, v, rfl, resolve_eq_function_iff.2 callee, argument, ?_⟩⟩
        rw [Builtin.isNaN_apply hlib, circular, infinite]
        rfl
      | @passed _ f _ callee passes argument =>
        obtain ⟨v, hargument, hnan⟩ := ih.2 argument
        refine ⟨_, rfl, ar.isNaN_combine_iff.2
          ⟨f, v, rfl, resolve_eq_function_iff.2 callee, hargument, ?_⟩⟩
        rw [Builtin.isNaN_apply hlib, passes, hnan]
        exact Bool.or_true _
  | node arithmetic =>
    refine iff_of_false ?_ fun h => ?_
    · rintro ⟨_, ⟨⟩, hv⟩
      obtain ⟨_, _, happly, -⟩ := ar.isNaN_combine_iff.1 hv
      exact arithmetic happly
    · cases h <;> exact arithmetic rfl

end Expr

/-! ## Formulas -/

theorem evaluate_eq_ok_iff {ar : Arithmetic} {e : Expr} {x y : Float} :
    e.evaluate ar x = .ok y ↔ e.reduce ar x = .number y := by
  unfold Expr.evaluate
  cases e.reduce ar x <;> simp

/-- **Where the value of a formula is not a number.**  At a finite number it is so exactly if the
tree is undefined there, and the sample is not a number exactly then either.  So, by either rule for
the divisor, the value is a number wherever no circular function of the formula is called on an
infinity. -/
theorem isNaN_value_iff {limit : Nat} {s : String} {t : Expr} (ar : Arithmetic) {x : Float}
    (hparse : parse limit s = .ok t) (hlib : ar.lib.KeepsDomains) (hx : x.isFinite = true) :
    ((∃ y, t.evaluate ar x = .ok y ∧ y.isNaN = true) ↔ t.IsUndefined ar x)
      ∧ ((sampleAt ar t x).y.isNaN = true ↔ t.IsUndefined ar x)
      ∧ ((∀ a ∈ t.angles, ∀ v, a.reduce ar x = .number v → v.isInf = false) →
        ∀ y, t.evaluate ar x = .ok y → y.isNaN = false) := by
  have hvalue : (∃ y, t.evaluate ar x = .ok y ∧ y.isNaN = true) ↔ t.IsUndefined ar x := by
    rw [← Expr.isNaN_reduce_iff hlib (isNaN_of_isFinite hx) (isBody_of_parse hparse).isWellFormed]
    exact exists_congr fun y => and_congr_left' evaluate_eq_ok_iff
  refine ⟨hvalue, ?_, fun hangles y hy => ?_⟩
  · rw [← hvalue, sampleAt]
    cases t.evaluate ar x with
    | ok y => simp
    | error e => exact iff_of_false (Bool.eq_false_iff.1 isNaN_zero) nofun
  · refine Bool.eq_false_iff.2 fun hnan => ?_
    obtain ⟨a, ha, v, hreduce, hinf⟩ := (hvalue.1 ⟨y, hy, hnan⟩).exists_angle
    exact Bool.false_ne_true ((hangles a ha v hreduce).symm.trans hinf)

/-- A library that is right at `0`, and elsewhere only about where there is a value. -/
def Elementary.atZero : Elementary where
  pow _ _ := 1
  sin := ofAngle fun _ => 0
  cos := ofAngle fun _ => 1
  tan := ofAngle fun _ => 0
  asin v := if -1 ≤ v ∧ v ≤ 1 then 0 else 0 / 0
  acos v := if -1 ≤ v ∧ v ≤ 1 then 1.5707963267948966 else 0 / 0
  atan := id
  sinh := id
  cosh v := if v.isNaN then v else 1
  tanh := id
  log v := if 0 ≤ v then -1 / 0 else 0 / 0
  floor := id
  ceil := id
  draw := 0.5

theorem isNaN_ofAngle {y : Float} (hy : y.isNaN = false) (v : Float) :
    (ofAngle (fun _ => y) v).isNaN = !v.isFinite := by
  unfold ofAngle
  split
  · next h => rw [hy, h, Bool.not_true]
  · next h =>
    rw [Bool.eq_false_iff.2 h]
    decide

theorem isNaN_ite_nan {p : Prop} [Decidable p] {y : Float} (hy : y.isNaN = false) :
    (if p then y else 0 / 0).isNaN = !decide p := by
  split
  · next h => rw [hy, decide_eq_true h, Bool.not_true]
  · next h =>
    rw [decide_eq_false h]
    decide

theorem Elementary.keepsDomains_atZero : Elementary.atZero.KeepsDomains where
  sin := isNaN_ofAngle isNaN_zero
  cos := isNaN_ofAngle (by decide)
  tan := isNaN_ofAngle isNaN_zero
  asin _ := isNaN_ite_nan isNaN_zero
  acos _ := isNaN_ite_nan (by decide)
  atan _ := rfl
  sinh _ := rfl
  cosh v := by
    show (if v.isNaN then v else 1).isNaN = v.isNaN
    split
    · rfl
    · next h =>
      rw [Bool.eq_false_iff.2 h]
      decide
  tanh _ := rfl
  log _ := isNaN_ite_nan (by decide)
  floor _ := rfl
  ceil _ := rfl
  draw := by decide

/-- By the legacy rule a quotient by zero is infinite and its cosine no number, nor is the magnitude
of that; by the corrected rule the quotient is `0`. -/
theorem isNaN_value_iff_cos_of_quotient :
    let quotient : Expr := .node .div (.literal 9) (.node .sub (.identifier "x") (.literal 1))
    let cosine : Expr := .node .apply (.identifier "cos") quotient
    let t : Expr := .node .apply (.identifier "abs") cosine
    parse 256 "abs(cos(9/(x-1)))" = .ok t
      ∧ Elementary.atZero.KeepsDomains
      ∧ (1 : Float).isFinite = true
      ∧ (∃ y, t.evaluate ⟨.legacy, .atZero⟩ 1 = .ok y ∧ y.isNaN = true)
      ∧ t.evaluate ⟨.corrected, .atZero⟩ 1 = .ok 1
      ∧ ∀ y, t.evaluate ⟨.corrected, .atZero⟩ 1 = .ok y → y.isNaN = false := by
  intro quotient cosine t
  have hparse : parse 256 "abs(cos(9/(x-1)))" = .ok t := by decide +kernel
  have hlib := Elementary.keepsDomains_atZero
  have hx : (1 : Float).isFinite = true := by decide
  have hinfinite : cosine.IsUndefined ⟨.legacy, .atZero⟩ 1 := .angle (f := .cos) rfl rfl rfl rfl
  have hmagnitude : t.IsUndefined ⟨.legacy, .atZero⟩ 1 := .passed (f := .abs) rfl rfl hinfinite
  obtain ⟨hlegacy, -⟩ := isNaN_value_iff ⟨.legacy, .atZero⟩ hparse hlib hx
  obtain ⟨-, -, hcorrected⟩ := isNaN_value_iff ⟨.corrected, .atZero⟩ hparse hlib hx
  refine ⟨hparse, hlib, hx, hlegacy.2 hmagnitude, by decide, hcorrected fun a ha v hv => ?_⟩
  -- The quotient is the one argument of a circular function.
  obtain rfl : a = quotient := List.mem_singleton.1 ha
  obtain rfl : 0 = v := Value.number.inj hv
  decide

/-- The sine of a number too large for a double is not a number, and nothing makes it one. -/
theorem isNaN_value_sin_overflow :
    let t : Expr := .node .apply (.identifier "sin") (.literal (1 / 0))
    parse 256 "sin(1e400)" = .ok t
      ∧ (0 : Float).isFinite = true
      ∧ ∃ y, t.evaluate {} 0 = .ok y ∧ y.isNaN = true := by
  intro t
  have hparse : parse 256 "sin(1e400)" = .ok t := by decide +kernel
  exact ⟨hparse, by decide, 0 / 0, by decide, by decide⟩

end FormulaPlot
