/-!
# Formula/Error — why a text is not a formula

A fault has a kind and, unless it only shows at the end of a text or concerns no single character,
the byte offset of the character where it was noticed, in the text that was being read then: the
prepared formula, the content of a bracket without its blanks, or the text behind an operator.
-/

namespace FormulaPlot

/-- The kinds of faults in a formula. -/
inductive ParseError.Kind where
  /-- The call mark does not follow a name. -/
  | functionExpected
  /-- An operand follows an operand. -/
  | operatorExpected
  /-- An operator has nothing on its left. -/
  | operandExpected
  /-- A closing bracket has no opening one. -/
  | unmatchedClose
  /-- An opening bracket is never closed. -/
  | unmatchedOpen
  /-- There is no operand at all. -/
  | emptyInput
  /-- A function is not followed by an argument in brackets. -/
  | argumentExpected
  /-- The tree, or the text, is nested deeper than the limit. -/
  | tooDeep (limit : Nat)
  /-- Brackets that are no function's argument have nothing in them. -/
  | emptyBrackets
  deriving Repr, DecidableEq

/-- A fault in a formula. -/
structure ParseError where
  kind : ParseError.Kind
  position : Option Nat := none
  deriving Repr, DecidableEq

/-- What is said of a kind of fault. -/
def ParseError.Kind.message : Kind → String
  | functionExpected => "Parse Error: function identifier expected"
  | operatorExpected => "Parse Error: binary operator expected"
  | operandExpected => "Parse Error: identifier expected"
  | unmatchedClose => "Parse Error: unmatched )"
  | unmatchedOpen => "Parse Error: unmatched ("
  | emptyInput => "Parse Error: empty input"
  | argumentExpected => "Parse Error: parenthesised function argument expected"
  | tooDeep limit => "Parse Error: nesting deeper than " ++ limit.repr
  | emptyBrackets => "UnreachableError"

/-- What is said of a fault: its kind, then its position if it has one. -/
def ParseError.message (e : ParseError) : String :=
  match e.position with
  | some p => e.kind.message ++ ". pos: " ++ p.repr
  | none => e.kind.message

end FormulaPlot
