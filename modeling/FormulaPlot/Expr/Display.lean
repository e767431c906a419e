import FormulaPlot.Expr.Basic
import FormulaPlot.Number.Shortest

/-!
# Expr/Display — the written form of a tree

Every arithmetic node is written in its own brackets with blanks around the operator, `(1 + x)`,
and a call as the function's name before its argument in brackets, `sin(x)`.

* `Expr.write_eq_append` — writing before a text is writing, then the text.
-/

namespace FormulaPlot.Expr

/-- The written form of a tree in front of a text. -/
def write : Expr → List Char → List Char
  | literal value, s => Number.chars value ++ s
  | identifier name, s => name.toList ++ s
  | node .apply left right, s => left.write ('(' :: right.write (')' :: s))
  | node op left right, s =>
    '(' :: left.write (' ' :: op.symbol :: ' ' :: right.write (')' :: s))

/-- The written form of a tree as characters. -/
def chars (e : Expr) : List Char := e.write []

/-- The written form of a tree. -/
def display (e : Expr) : String := String.ofList e.chars

theorem write_eq_append (e : Expr) (s : List Char) : e.write s = e.chars ++ s := by
  induction e generalizing s with
  | literal value => simp [chars, write]
  | identifier name => simp [chars, write]
  | node op left right ihl ihr =>
    cases op <;>
      simp only [chars, write, ihl (_ :: _), ihr (_ :: _), List.cons_append, List.append_assoc,
        List.nil_append]

end FormulaPlot.Expr
