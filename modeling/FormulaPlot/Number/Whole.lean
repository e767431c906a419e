import FormulaPlot.Number.Binary

/-!
# Number/Whole — the whole part of a double and the rest

Cut toward zero, a double leaves its whole part and a rest of the same sign.  A double whose last
place weighs one or more is whole; the whole part of any other has fewer digits than its mantissa,
so it is a double, too.
-/

namespace FormulaPlot.Number

/-- The whole part, without the binary digits behind the point; an infinity is its own, and so is
what is not a number. -/
def trunc (x : Float) : Float :=
  if 0 ≤ exponent x then x
  else withSign (isNegative x) (Float.ofNat (mantissa x >>> (-exponent x).toNat))

/-- What is left of a double without its whole part. -/
def fract (x : Float) : Float := x - trunc x

end FormulaPlot.Number
