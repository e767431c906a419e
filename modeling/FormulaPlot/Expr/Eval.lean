import FormulaPlot.Arithmetic
import FormulaPlot.Expr.Basic

/-!
# Expr/Eval — the value of a formula

A tree is evaluated at a number `x`.  An identifier that spells a function, in any case, stands for
that function; `pi` and `e` stand for the constants; every other identifier stands for `x`.  A tree
that comes to a function has no value, and that is the only fault there is.

* `Expr.resolve_of_unknown` — an identifier that spells no function stands for a number.
-/

namespace FormulaPlot

/-- Why a tree has no value. -/
inductive EvalError where
  /-- The whole tree is the name of a function. -/
  | functionAsValue (f : Builtin)
  deriving Repr, DecidableEq

/-- What is said of a tree without a value. -/
def EvalError.message : EvalError → String
  | functionAsValue f => "Invalid Argument: `" ++ f.name ++ "` is a function, not a value"

namespace Expr

/-- The ratio of a circle's circumference to its diameter. -/
def pi : Float := 3.141592653589793

/-- The base of the natural logarithm. -/
def euler : Float := 2.718281828459045

/-- What an identifier stands for at `x`. -/
def resolve (name : String) (x : Float) : Value :=
  match Builtin.ofName? name with
  | some f => .function f
  | none =>
    if name = "pi" then .number pi
    else if name = "e" then .number euler
    else .number x

theorem resolve_of_unknown {name : String} (h : Builtin.ofName? name = none) (x : Float) :
    ∃ v, resolve name x = .number v := by
  simp only [resolve, h]
  split
  · exact ⟨_, rfl⟩
  · split <;> exact ⟨_, rfl⟩

/-- What a tree comes to at `x`. -/
def reduce (ar : Arithmetic) (x : Float) : Expr → Value
  | literal value => .number value
  | identifier name => resolve name x
  | node op left right => .number (ar.combine op (left.reduce ar x) (right.reduce ar x))

/-- The value of a tree at `x`. -/
def evaluate (ar : Arithmetic) (e : Expr) (x : Float) : Except EvalError Float :=
  match e.reduce ar x with
  | .number value => .ok value
  | .function f => .error (.functionAsValue f)

end Expr

end FormulaPlot
