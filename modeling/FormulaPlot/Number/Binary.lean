/-!
# Number/Binary — doubles as mantissa times a power of two

A finite double is `± mantissa * 2 ^ exponent`, with a mantissa below `2 ^ 53` and an exponent of
at least `-1074`; both are read off its bits, so every question about its value is one about
natural numbers.  Back from an exact quotient, `nearest` is the double that IEEE 754 rounds it to:
to nearest, ties to the even mantissa, past the largest double to infinity.

* `roundToEven_near` — the integer that a quotient is rounded to is within half a unit of it.
-/

namespace FormulaPlot.Number

/-! ## Powers of a base

The ratio `num / den` times `base ^ k` is `scaled base num k / scaled base den (-k)`: of the two
scalings one does nothing. -/

/-- The product `n * base ^ k`, or `n` itself when `k` is negative. -/
def scaled (base n : Nat) (k : Int) : Nat := n * Nat.pow base k.toNat

theorem scaled_of_nonpos (base n : Nat) {k : Int} (h : k ≤ 0) : scaled base n k = n := by
  rw [scaled, Int.toNat_of_nonpos h]
  exact Nat.mul_one n

/-! ## Out of a double -/

/-- The weight of the sign bit, `2 ^ 63`. -/
def signWeight : Nat := 0x8000000000000000

/-- The weight of the lowest exponent bit, which is that of a mantissa's hidden bit, `2 ^ 52`. -/
def hiddenWeight : Nat := 0x10000000000000

/-- The bits of positive infinity: an exponent field of ones and nothing else. -/
def infinityBits : Nat := 0x7FF0000000000000

/-- Whether the sign bit is set, as it is in `-0` and in no positive number. -/
def isNegative (x : Float) : Bool := signWeight ≤ x.toBits.toNat

/-- The eleven bits of the biased exponent. -/
def exponentField (x : Float) : Nat := x.toBits.toNat / hiddenWeight % 0x800

/-- The integer `m` of `|x| = m * 2 ^ q`; numbers with a zero exponent field have no hidden bit. -/
def mantissa (x : Float) : Nat :=
  let fraction := x.toBits.toNat % hiddenWeight
  if exponentField x = 0 then fraction else hiddenWeight + fraction

/-- The exponent `q` of `|x| = m * 2 ^ q`. -/
def exponent (x : Float) : Int := (max (exponentField x) 1 : Nat) - 1075

/-! ## Into a double -/

/-- The integer nearest to `num / den`, the even one of two that are equally near. -/
def roundToEven (num den : Nat) : Nat :=
  let floor := num / den
  let excess := 2 * (num % den)
  if excess < den then floor
  else if den < excess then floor + 1
  else floor + floor % 2

theorem roundToEven_mul (n : Nat) {den : Nat} (h : 0 < den) : roundToEven (n * den) den = n := by
  simp [roundToEven, Nat.mul_div_cancel n h, h]

/-- **Rounding is within half a unit**, on either side. -/
theorem roundToEven_near {num den : Nat} (h : 0 < den) :
    2 * num ≤ 2 * (roundToEven num den * den) + den
      ∧ 2 * (roundToEven num den * den) ≤ 2 * num + den := by
  have hnum : num / den * den + num % den = num := Nat.div_add_mod' num den
  have hlt : num % den < den := Nat.mod_lt num h
  have hup : (num / den + 1) * den = num / den * den + den := Nat.succ_mul _ _
  simp only [roundToEven]
  split
  · omega
  · split
    · omega
    · rcases Nat.mod_two_eq_zero_or_one (num / den) with hpar | hpar
      · rw [hpar, Nat.add_zero]
        omega
      · rw [hpar]
        omega

/-- The exponent of the power of two at or next below `num / den`, both positive. -/
def binaryExponent (num den : Nat) : Int :=
  let e : Int := num.log2 - den.log2
  if scaled 2 den e ≤ scaled 2 num (-e) then e else e - 1

/-- The double nearest to `num / den`, with `den` positive.  The last place has the weight `2 ^ q`;
adding the rounded mantissa to the exponent field lets a carry run into it. -/
def nearest (num den : Nat) : Float :=
  if num = 0 then 0
  else
    let q := max (binaryExponent num den - 52) (-1074)
    let rounded := roundToEven (scaled 2 num (-q)) (scaled 2 den q)
    let bits := (q + 1074).toNat * hiddenWeight + rounded
    Float.ofBits (UInt64.ofNat (min bits infinityBits))

/-- The double nearest to `m * 2 ^ q`. -/
def nearestScaled (m : Nat) (q : Int) : Float :=
  nearest (scaled 2 m q) (scaled 2 1 (-q))

/-- A nonnegative double given the sign asked for. -/
def withSign (negative : Bool) (x : Float) : Float := if negative then -x else x

end FormulaPlot.Number
