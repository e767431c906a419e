/-!
# Elementary — the functions of analysis that formulas call

Addition, multiplication, division, square roots and comparisons of doubles are fixed to the last
bit; powers, circular and hyperbolic functions and logarithms are not, and come from a library.
`Elementary` is such a library, so that what is said of formulas can be said for all of them;
`Elementary.platform` is the one of the machine.
-/

namespace FormulaPlot

/-- A library of functions on doubles. -/
structure Elementary where
  pow : Float → Float → Float
  sin : Float → Float
  cos : Float → Float
  tan : Float → Float
  asin : Float → Float
  acos : Float → Float
  atan : Float → Float
  sinh : Float → Float
  cosh : Float → Float
  tanh : Float → Float
  log : Float → Float
  floor : Float → Float
  ceil : Float → Float
  /-- The number that stands for a random draw. -/
  draw : Float

/-- A function of angles, which has no value at an infinity. -/
def ofAngle (f : Float → Float) (x : Float) : Float := if x.isFinite then f x else 0 / 0

/-- The library of the machine. -/
def Elementary.platform : Elementary where
  pow := Float.pow
  sin := ofAngle Float.sin
  cos := ofAngle Float.cos
  tan := ofAngle Float.tan
  asin := Float.asin
  acos := Float.acos
  atan := Float.atan
  sinh := Float.sinh
  cosh := Float.cosh
  tanh := Float.tanh
  log := Float.log
  floor := Float.floor
  ceil := Float.ceil
  draw := 0.5

end FormulaPlot
