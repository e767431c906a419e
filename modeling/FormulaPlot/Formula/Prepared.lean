import FormulaPlot.Builtin
import FormulaPlot.Text.Blank

/-!
# Formula/Prepared — the text of a formula made ready for reading

Three things happen to a text before it is read: the blanks at its ends go, a leading sign gets
a `0` to stand on its left, and every function keyword is followed by the call mark `_`.  Keywords
are found from left to right, in any ASCII case, the longest one at each place; one that has its
mark already gets no second.
-/

namespace FormulaPlot

/-- The character that tells a call from an identifier. -/
def callMark : Char := '_'

/-! ## Leading signs -/

/-- The text with a `0` in front when it starts with a sign. -/
def withLeadingZero : List Char → List Char
  | '+' :: s => '0' :: '+' :: s
  | '-' :: s => '0' :: '-' :: s
  | s => s

/-! ## Keywords -/

/-- Whether a text starts with `keyword` in some ASCII case. -/
def startsWithKeyword (keyword s : List Char) : Bool :=
  (s.take keyword.length).map Char.toLower == keyword

/-- The first function, in the order of `Builtin.all`, whose keyword a text starts with. -/
def keywordAt? (s : List Char) : Option Builtin :=
  Builtin.all.find? fun f => startsWithKeyword f.keyword s

/-- The length of the keyword that a text starts with, or `0`. -/
def keywordLength (s : List Char) : Nat :=
  (keywordAt? s).elim 0 fun f => f.keyword.length

/-- Copies a text whose first `n` characters are the rest of a keyword, and marks that keyword and
those that follow it. -/
def markFrom : Nat → List Char → List Char
  | _, [] => []
  | n, c :: s =>
    match if n = 0 then keywordLength (c :: s) else n with
    | 0 => c :: markFrom 0 s
    | 1 => if s.head? = some callMark then c :: markFrom 0 s else c :: callMark :: markFrom 0 s
    | n + 2 => c :: markFrom (n + 1) s

/-- The text with the call mark after every keyword. -/
def markKeywords (s : List Char) : List Char := markFrom 0 s

/-! ## Prepared texts -/

/-- A text made ready for reading, as characters. -/
def prepareChars (s : List Char) : List Char :=
  markKeywords (withLeadingZero (Text.trim s))

/-- A text made ready for reading. -/
def prepare (s : String) : String := String.ofList (prepareChars s.toList)

example : prepareChars " -Asinh(x) ".toList = "0-Asin_h(x)".toList := by decide

example : prepareChars "sinh_(sin x)".toList = "sinh_(sin_ x)".toList := by decide

end FormulaPlot
