import FormulaPlot.Number.Binary

/-!
# Number/Remainder — the exact remainder of two doubles

`remainder a b` is `a - b * n` for the integer `n` nearest to `a / b` toward zero.  It has the sign
of the dividend and a magnitude below the divisor's, and it is always a double, so nothing is
rounded: on a common power of two it is the remainder of two natural numbers.
-/

namespace FormulaPlot.Number

/-- The remainder of `a` by `b` with the sign of `a`; not-a-number when `a` is infinite, `b` is
zero or either is not-a-number. -/
def remainder (a b : Float) : Float :=
  if a.isNaN || b.isNaN || a.isInf || mantissa b == 0 then 0 / 0
  else if b.isInf then a
  else
    let q := min (exponent a) (exponent b)
    let r := scaled 2 (mantissa a) (exponent a - q) % scaled 2 (mantissa b) (exponent b - q)
    withSign (isNegative a) (nearestScaled r q)

end FormulaPlot.Number
