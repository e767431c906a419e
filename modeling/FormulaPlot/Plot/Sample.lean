import FormulaPlot.Expr.Eval
import FormulaPlot.Plot.Domain
import FormulaPlot.Plot.Parallel

/-!
# Plot/Sample — the values of a formula over a domain

A sample is a point and the value there; where the formula has no value it is `0`, so that the rest
of the plot still shows.  `sample` goes through the points in order, `sampleParallel` gives them to
several workers.
-/

namespace FormulaPlot

/-- A point and the value there. -/
structure Sample where
  x : Float
  y : Float
  deriving Repr, DecidableEq

/-- The sample of a tree at `x`. -/
def sampleAt (ar : Arithmetic) (e : Expr) (x : Float) : Sample where
  x := x
  y := match e.evaluate ar x with
    | .ok y => y
    | .error _ => 0

/-- The samples of a tree at the points of a domain. -/
def sample (ar : Arithmetic) (e : Expr) (d : Domain) : List Sample :=
  (d.points.collect (sampleAt ar e) #[]).toList

/-- The samples of a tree at the points of a domain, taken by several workers at once. -/
def sampleParallel (workers : Nat) (ar : Arithmetic) (e : Expr) (d : Domain) : List Sample :=
  Parallel.tabulate workers d.division fun i => sampleAt ar e (d.point i)

end FormulaPlot
