import FormulaPlot.Formula.Reading.Step

/-!
# Formula/Parse — from text to tree

`Reading.run` takes a reading through a text and leaves out the blanks; `readWithin` reads a whole
text, with a `0` in front of a leading sign, and lends itself to its own steps for bracket contents
and remainders.  Each such text is read with one level less of `room`, so reading ends for every
text and every limit.
-/

namespace FormulaPlot

/-- The tree that the rest of a text leads to; the rest starts at byte `i`. -/
def Reading.run (limit : Nat) (sub : SubReading) (r : Reading) (i : Nat) :
    List Char → Except ParseError Node
  | [] => r.finish limit
  | c :: rest =>
    if Text.isBlank c then run limit sub r (i + c.utf8Size) rest
    else
      match r.step limit sub i c rest with
      | .error e => .error e
      | .ok (.done node) => .ok node
      | .ok (.more r) => run limit sub r (i + c.utf8Size) rest

/-- The tree of a text read on its own, at most `room` such readings inside one another. -/
def readWithin (limit : Nat) : Nat → SubReading
  | 0, _, _ => .error ⟨.tooDeep limit, none⟩
  | room + 1, chain, text =>
    (Reading.start chain).run limit (readWithin limit room) 0 (withLeadingZero text)

/-- The tree of a prepared text, as characters. -/
def parseChars (limit : Nat) (text : List Char) : Except ParseError Expr :=
  (readWithin limit (limit + 1) none text).map Node.expr

/-- The tree of a prepared text, nested at most `limit` deep. -/
def parsePrepared (limit : Nat) (text : String) : Except ParseError Expr :=
  parseChars limit text.toList

/-- The tree of a formula, nested at most `limit` deep. -/
def parse (limit : Nat) (formula : String) : Except ParseError Expr :=
  parsePrepared limit (prepare formula)

example : parse 256 "1 - 2*3" =
    .ok (.node .sub (.literal 1) (.node .mul (.literal 2) (.literal 3))) := rfl

example : parse 256 "Sin(-x)" =
    .ok (.node .apply (.identifier "Sin")
      (.node .sub (.literal 0) (.identifier "x"))) := rfl

example : parse 256 "2x3 + (y" = .error ⟨.unmatchedOpen, none⟩ := rfl

end FormulaPlot
