import FormulaPlot.Number.Numeral
import FormulaPlot.Formula.Node

/-!
# Formula/Reading/Basic — a formula half read

A formula is read once, character by character.  Between two characters a `Reading` holds

* the **chain**: the tree built so far and the operator after it, if there is one;
* the **operand** being collected: a number, a name, a finished tree, or a function that waits for
  its bracket;
* or, inside brackets, their **content** so far, which is read as a text of its own when the
  bracket closes.

There is never more than one of a collected operand and a bracket's content.
-/

namespace FormulaPlot

/-- A tree and the operator that follows it. -/
structure Chain where
  left : Node
  operator : Operator
  deriving Repr, DecidableEq

/-- The operand being collected; of a text, the last character comes first. -/
inductive Operand where
  | empty
  | number (text : List Char)
  | name (text : List Char)
  | finished (node : Node)
  /-- A function that waits for its argument. -/
  | callee (name : String)
  deriving Repr, DecidableEq

/-- What the next character belongs to. -/
inductive Focus where
  /-- The operand, outside all brackets. -/
  | operand (o : Operand)
  /-- The content of a bracket, perhaps a function's, with `inner` more brackets open in it; the
  last character comes first. -/
  | bracket (callee : Option String) (inner : Nat) (content : List Char)
  deriving Repr, DecidableEq

/-- A formula half read. -/
structure Reading where
  chain : Option Chain
  focus : Focus
  deriving Repr, DecidableEq

/-- The reading before any character, with a chain to start from or without. -/
def Reading.start (chain : Option Chain) : Reading := ⟨chain, .operand .empty⟩

/-- Whether a character can start a number. -/
def isNumeral (c : Char) : Bool := c.isDigit || c == '.'

/-- The tree of a collected operand.  Of a number only the longest numeral at its front counts, and
without one there is no tree. -/
def Operand.node? : Operand → Option Node
  | empty => none
  | number text => (Number.readFront? text.reverse).map fun v => .leaf (.literal v)
  | name text => some (.leaf (.identifier (String.ofList text.reverse)))
  | finished node => some node
  | callee _ => none

/-- The tree at the end of the text.  A chain whose right operand is missing gets `0`. -/
def Reading.finish (limit : Nat) (r : Reading) : Except ParseError Node :=
  match r.focus with
  | .bracket _ _ _ => .error ⟨.unmatchedOpen, none⟩
  | .operand (.callee _) => .error ⟨.argumentExpected, none⟩
  | .operand o =>
    match r.chain, o.node? with
    | none, some node => .ok node
    | none, none => .error ⟨.emptyInput, none⟩
    | some ⟨left, op⟩, right? =>
      Node.join limit op left (right?.getD (.leaf (.literal 0)))

end FormulaPlot
