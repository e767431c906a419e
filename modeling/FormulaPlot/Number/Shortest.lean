import FormulaPlot.Number.Numeral

/-!
# Number/Shortest — the text of a number

A finite number is written with the fewest significant digits that read back as the same double,
and of the numerals of that length with the one nearest to its value.  It is found by looking at
the two neighbours of the value on the grids of 1, 2, … 17 significant digits, in exact arithmetic;
seventeen always suffice.  The digits are written positionally, a set sign bit as `-`.
-/

namespace FormulaPlot.Number

/-- Whether `num / den` is below the `k`th power of ten. -/
def belowPowerOfTen (num den : Nat) (k : Int) : Bool :=
  scaled 10 num (-k) < scaled 10 den k

/-- The least `k` with `num / den < 10 ^ k`.  A value at or above `2 ^ e` and below `2 ^ (e + 1)`
leaves three candidates, since `0.30103` is the decimal logarithm of two to five places. -/
def decimalMagnitude (num den : Nat) : Int :=
  let least := binaryExponent num den * 30103 / 100000
  if belowPowerOfTen num den least then least
  else if belowPowerOfTen num den (least + 1) then least + 1
  else least + 2

/-- The two decimals with `n` significant digits around `num / den`, the nearer one first and the
upper one where both are equally near; `k` is the decimal magnitude.  An upper neighbour that is
a power of ten is written with one digit. -/
def neighbours (num den : Nat) (k : Int) (n : Nat) : List Decimal :=
  let grid := k - n
  let num := scaled 10 num (-grid)
  let den := scaled 10 den grid
  let lower := num / den
  let below := Decimal.mk lower grid
  let above := if lower + 1 = scaled 10 1 n then ⟨1, k⟩ else ⟨lower + 1, grid⟩
  if 2 * (num % den) < den then [below, above] else [above, below]

/-- The value of a finite double as a decimal, exact and with all its digits. -/
def exactDecimal (x : Float) : Decimal :=
  let m := mantissa x
  let q := exponent x
  ⟨scaled 5 (scaled 2 m q) (-q), min q 0⟩

/-- The shortest decimal that rounds to the magnitude of a finite double other than zero, the
nearest one of that length.  The exact value stands by for a search that finds nothing. -/
def shortest (x : Float) : Decimal :=
  let num := scaled 2 (mantissa x) (exponent x)
  let den := scaled 2 1 (-exponent x)
  let k := decimalMagnitude num den
  let readsBack (d : Decimal) : Bool := d.toFloat.toBits == x.abs.toBits
  ((List.range 17).findSome? fun n => (neighbours num den k (n + 1)).find? readsBack).getD
    (exactDecimal x)

/-- The text of a number that is not not-a-number, its sign apart. -/
def magnitudeChars (x : Float) : List Char :=
  if x.isInf then "inf".toList
  else if mantissa x = 0 then ['0']
  else (shortest x).positional

/-- The text of a number as characters. -/
def chars (x : Float) : List Char :=
  if x.isNaN then "NaN".toList
  else if isNegative x then '-' :: magnitudeChars x
  else magnitudeChars x

/-- The text of a number. -/
def text (x : Float) : String := String.ofList (chars x)

end FormulaPlot.Number
