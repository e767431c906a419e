import FormulaPlot.Number.Decimal

/-!
# Number/Numeral — how numbers are spelled

An unsigned numeral is digits with an optional point and fraction, or a point and at least one
digit, and then an optional exponent: `(D+ ('.' D*)? | '.' D+) ([eE] [+-]? D+)?` with `D` an ASCII
digit.  `Numeral.split?` takes the longest one off the front of a text and keeps what follows;
`read?` reads a whole text, which may also have a sign or spell infinity or not-a-number.

* `Numeral.chars_append_of_split?` — a split loses no character.
-/

namespace FormulaPlot.Number

/-! ## The parts of a numeral -/

/-- A power of ten after the digits: `e` or `E`, a sign or none, and digits. -/
structure Exponent where
  mark : Char
  sign : Option Char
  digits : List Char
  deriving Repr, DecidableEq

/-- An unsigned numeral in its parts; `fraction` is there exactly when a point is. -/
structure Numeral where
  whole : List Char
  fraction : Option (List Char)
  exponent : Option Exponent
  deriving Repr, DecidableEq

/-- The spelling of an exponent. -/
def Exponent.chars (e : Exponent) : List Char := e.mark :: (e.sign.toList ++ e.digits)

/-- The power of ten that an exponent stands for. -/
def Exponent.value (e : Exponent) : Int :=
  let n : Int := Nat.ofDigitChars 10 e.digits 0
  if e.sign = some '-' then -n else n

/-- The spelling of a numeral. -/
def Numeral.chars (n : Numeral) : List Char :=
  n.whole ++ (n.fraction.elim [] ('.' :: ·)) ++ (n.exponent.elim [] Exponent.chars)

/-- The number that a numeral spells. -/
def Numeral.value (n : Numeral) : Decimal where
  digits := Nat.ofDigitChars 10 (n.whole ++ n.fraction.getD []) 0
  exponent := (n.exponent.elim 0 Exponent.value) - ((n.fraction.getD []).length : Int)

/-! ## Taking a numeral off the front of a text -/

/-- The sign a text starts with, if any, and the rest. -/
def splitSign : List Char → Option Char × List Char
  | '+' :: s => (some '+', s)
  | '-' :: s => (some '-', s)
  | s => (none, s)

/-- The point and digits a text starts with, if it starts with a point, and the rest. -/
def splitFraction : List Char → Option (List Char) × List Char
  | '.' :: s => (some (s.takeWhile Char.isDigit), s.dropWhile Char.isDigit)
  | s => (none, s)

/-- The exponent a text starts with, if it has a digit, and the rest. -/
def Exponent.split? : List Char → Option (Exponent × List Char)
  | [] => none
  | c :: s =>
    let (sign, s) := splitSign s
    let digits := s.takeWhile Char.isDigit
    if (c = 'e' ∨ c = 'E') ∧ digits ≠ [] then
      some (⟨c, sign, digits⟩, s.dropWhile Char.isDigit)
    else none

/-- The longest numeral a text starts with, and the rest; none when no digit stands before an
exponent or a foreign character. -/
def Numeral.split? (s : List Char) : Option (Numeral × List Char) :=
  let whole := s.takeWhile Char.isDigit
  let (fraction, rest) := splitFraction (s.dropWhile Char.isDigit)
  if whole = [] ∧ fraction.getD [] = [] then none
  else
    match Exponent.split? rest with
    | some (e, rest) => some (⟨whole, fraction, some e⟩, rest)
    | none => some (⟨whole, fraction, none⟩, rest)

theorem splitSign_append (s : List Char) :
    (splitSign s).1.toList ++ (splitSign s).2 = s := by
  unfold splitSign
  split <;> rfl

theorem splitFraction_append (s : List Char) :
    (splitFraction s).1.elim [] ('.' :: ·) ++ (splitFraction s).2 = s := by
  unfold splitFraction
  split
  · exact congrArg ('.' :: ·) List.takeWhile_append_dropWhile
  · rfl

theorem Exponent.chars_append_of_split? {s rest : List Char} {e : Exponent}
    (h : Exponent.split? s = some (e, rest)) : e.chars ++ rest = s := by
  cases s with
  | nil => exact absurd h (by simp [Exponent.split?])
  | cons c s =>
    simp only [Exponent.split?, Option.ite_none_right_eq_some, Option.some.injEq,
      Prod.mk.injEq] at h
    obtain ⟨-, rfl, rfl⟩ := h
    simp only [Exponent.chars, List.cons_append, List.append_assoc,
      List.takeWhile_append_dropWhile, splitSign_append]

/-- **A split loses nothing**: the numeral's spelling and the rest make up the text. -/
theorem Numeral.chars_append_of_split? {s rest : List Char} {n : Numeral}
    (h : Numeral.split? s = some (n, rest)) : n.chars ++ rest = s := by
  have hs : s.takeWhile Char.isDigit
      ++ ((splitFraction (s.dropWhile Char.isDigit)).1.elim [] ('.' :: ·)
        ++ (splitFraction (s.dropWhile Char.isDigit)).2) = s := by
    rw [splitFraction_append, List.takeWhile_append_dropWhile]
  simp only [Numeral.split?] at h
  split at h
  · exact absurd h (by simp)
  · split at h
    · next e rest' he =>
      obtain ⟨rfl, rfl⟩ := by simpa using h
      rw [← Exponent.chars_append_of_split? he] at hs
      simpa [Numeral.chars] using hs
    · obtain ⟨rfl, rfl⟩ := by simpa using h
      simpa [Numeral.chars] using hs

/-! ## Reading a whole text -/

/-- Whether a text spells `word` in any ASCII case. -/
def spells (word : String) (s : List Char) : Bool :=
  s.map Char.toLower == word.toList

/-- The number that an unsigned text spells, if it spells one. -/
def readUnsigned? (s : List Char) : Option Float :=
  if spells "inf" s || spells "infinity" s then some (1 / 0)
  else if spells "nan" s then some (0 / 0)
  else
    match Numeral.split? s with
    | some (n, []) => some n.value.toFloat
    | _ => none

/-- The number that a text spells, with a sign or without; no character may be left over. -/
def read? (s : List Char) : Option Float :=
  let (sign, s) := splitSign s
  (readUnsigned? s).map (withSign (sign == some '-'))

/-- The number that the longest numeral at the front of a text spells. -/
def readFront? (s : List Char) : Option Float :=
  (Numeral.split? s).map fun (n, _) => n.value.toFloat

end FormulaPlot.Number
