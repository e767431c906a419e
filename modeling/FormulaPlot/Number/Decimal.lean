import FormulaPlot.Number.Binary

/-!
# Number/Decimal — decimal fractions

A decimal is `digits * 10 ^ exponent` with both parts unbounded.  It rounds to a double once, from
its exact value, and it is written positionally: no exponent, a point only before a fraction.
-/

namespace FormulaPlot.Number

/-- The number `digits * 10 ^ exponent`. -/
structure Decimal where
  digits : Nat
  exponent : Int
  deriving Repr, DecidableEq

/-- The double nearest to a decimal.  Far outside the range of doubles the answer is infinity or
zero without forming the power of ten: `10 ^ 401` is above every double, and a value below
`10 ^ (-398)` rounds to zero. -/
def Decimal.toFloat (d : Decimal) : Float :=
  if d.digits = 0 || d.exponent < -(400 + d.digits.log2 : Int) then 0
  else if 400 < d.exponent then nearest (scaled 10 1 401) 1
  else nearest (scaled 10 d.digits d.exponent) (scaled 10 1 (-d.exponent))

/-- The decimal written out: the whole part, then, when the exponent is negative, a point and as
many fraction digits as the exponent asks for. -/
def Decimal.positional (d : Decimal) : List Char :=
  if 0 ≤ d.exponent then Nat.toDigits 10 (scaled 10 d.digits d.exponent)
  else
    let unit := scaled 10 1 (-d.exponent)
    let fraction := (Nat.toDigits 10 (d.digits % unit)).leftpad (-d.exponent).toNat '0'
    Nat.toDigits 10 (d.digits / unit) ++ '.' :: fraction

example : (Decimal.mk 125 (-2)).positional = "1.25".toList := by decide

example : (Decimal.mk 7 (-3)).positional = "0.007".toList := by decide

example : (Decimal.mk 12 2).positional = "1200".toList := by decide

end FormulaPlot.Number
