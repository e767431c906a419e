import FormulaPlot.Number.Shortest

/-!
# Plot/Domain — where a formula is sampled

A domain is an interval with a number of equal divisions; its points are the left ends of the
divisions, so the interval's upper end is not among them.  `Domain.new` builds domains of sensible
bounds and size; a domain built otherwise may be anything, and its points are computed all the same.

* `Points.length_of_next` — a point that is given is one less that is left, so going through the
  points ends.
-/

namespace FormulaPlot

/-- An interval cut into equal divisions. -/
structure Domain where
  min : Float := 0
  max : Float := 1
  division : Nat := 100
  deriving Repr, DecidableEq

/-- Why a domain is refused. -/
inductive DomainError where
  | invalidRange (min max : Float)
  | tooFewDivisions (division : Nat)
  | tooManyDivisions (division : Nat)
  deriving Repr, DecidableEq

/-- The largest number of divisions. -/
def maxDivision : Nat := 1000000

/-- What is said of a refused domain. -/
def DomainError.message : DomainError → String
  | invalidRange min max =>
    "Invalid domain: min (" ++ Number.text min ++ ") must be finite and below max ("
      ++ Number.text max ++ ")"
  | tooFewDivisions n => "Invalid domain: division must be at least 2, got " ++ n.repr
  | tooManyDivisions n =>
    "Invalid domain: division must be at most " ++ maxDivision.repr ++ ", got " ++ n.repr

/-- Whether two numbers bound an interval: finite, the first below the second. -/
def isRange (min max : Float) : Bool := min.isFinite && max.isFinite && min < max

namespace Domain

/-- The domain with the given bounds and divisions, if it is sensible; the bounds are looked at
first. -/
def new (min max : Float) (division : Nat) : Except DomainError Domain :=
  if !isRange min max then .error (.invalidRange min max)
  else if division < 2 then .error (.tooFewDivisions division)
  else if maxDivision < division then .error (.tooManyDivisions division)
  else .ok ⟨min, max, division⟩

/-- The left end of the division with index `i`. -/
def point (d : Domain) (i : Nat) : Float :=
  d.min + Float.ofNat i / Float.ofNat d.division * (d.max - d.min)

end Domain

/-! ## Going through the points -/

/-- A place in the sequence of a domain's points: the index of the next one. -/
structure Points where
  domain : Domain
  index : Nat := 0
  deriving Repr, DecidableEq

/-- The points of a domain, from the first. -/
def Domain.points (d : Domain) : Points := ⟨d, 0⟩

/-- The number of points that are left. -/
def Points.length (p : Points) : Nat := p.domain.division - p.index

/-- The next point, if one is left, and the place behind it. -/
def Points.next (p : Points) : Option Float × Points :=
  if p.index < p.domain.division then
    (some (p.domain.point p.index), { p with index := p.index + 1 })
  else (none, p)

/-- A point that is given is one point less that is left. -/
theorem Points.length_of_next {p p' : Points} {x : Float} (h : p.next = (some x, p')) :
    p'.length + 1 = p.length := by
  unfold next at h
  split at h
  · next hlt =>
    obtain rfl := (Prod.mk.inj h).2
    simp only [length]
    omega
  · cases (Prod.mk.inj h).1

/-- What `f` makes of the points that are left, one after the other, behind what it made before. -/
def Points.collect {α : Type} (f : Float → α) (p : Points) (made : Array α) : Array α :=
  match _ : p.next with
  | (some x, p') => p'.collect f (made.push (f x))
  | (none, _) => made
termination_by p.length
decreasing_by exact Nat.lt_of_lt_of_eq (Nat.lt_succ_self _) (length_of_next ‹_›)

end FormulaPlot
