import FormulaPlot.Operator

/-!
# Expr/Basic — formulas as trees

A formula is a tree of literals, identifiers and two-operand nodes.  What an identifier stands for
is settled when the tree is evaluated; a call is a node of the operator `apply` over the function's
identifier and the argument.
-/

namespace FormulaPlot

/-- A formula. -/
inductive Expr where
  | literal (value : Float)
  | identifier (name : String)
  | node (operator : Operator) (left right : Expr)
  deriving Repr, DecidableEq

namespace Expr

/-- The number of nodes on the longest way from the root to a leaf. -/
def depth : Expr → Nat
  | literal _ => 1
  | identifier _ => 1
  | node _ left right => max left.depth right.depth + 1

/-- Whether two trees agree when literals are compared as numbers, so that `0` agrees with `-0` and
what is not a number agrees with nothing. -/
def agrees : Expr → Expr → Bool
  | literal a, literal b => a == b
  | identifier a, identifier b => a == b
  | node op l r, node op' l' r' => op = op' && l.agrees l' && r.agrees r'
  | _, _ => false

end Expr

end FormulaPlot
