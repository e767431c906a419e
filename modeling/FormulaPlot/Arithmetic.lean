import FormulaPlot.Builtin
import FormulaPlot.Operator
import FormulaPlot.Number.Remainder

/-!
# Arithmetic — what operators do to values

Operators never fail.  An arithmetic operation answers `0` where its result is not a number, and
where an operand is a function name; a call answers what the function does, a number or not.
Division and remainder look at their divisor first, by one of two rules: the corrected rule answers
`0` for a zero divisor; the legacy rule, kept for documents that rely on it, has the condition the
wrong way round.
-/

namespace FormulaPlot

/-- What an operand comes to: a number, or a function that waits for its argument. -/
inductive Value where
  | number (value : Float)
  | function (f : Builtin)
  deriving DecidableEq

/-- How `/` and `%` treat their divisor. -/
inductive DivisorRule where
  /-- A zero divisor answers `0`. -/
  | corrected
  /-- A divisor other than zero answers `0`; by zero, `/` divides and `%` adds the floors of its
  operands. -/
  | legacy
  deriving Repr, DecidableEq

/-- All that fixes the value of an operation: the divisor rule and a library of functions. -/
structure Arithmetic where
  rule : DivisorRule := .corrected
  lib : Elementary := .platform

/-- The number itself, or `0` for what is not a number. -/
def orZero (v : Float) : Float := if v.isNaN then 0 else v

namespace Arithmetic

/-- The quotient of two numbers. -/
def quotient (ar : Arithmetic) (a b : Float) : Float :=
  match ar.rule with
  | .corrected => if b == 0 then 0 else orZero (a / b)
  | .legacy => if b != 0 then 0 else orZero (a / b)

/-- The remainder of two numbers. -/
def modulus (ar : Arithmetic) (a b : Float) : Float :=
  match ar.rule with
  | .corrected => if b == 0 then 0 else orZero (Number.remainder a b)
  | .legacy => if b != 0 then 0 else orZero (ar.lib.floor a + ar.lib.floor b)

/-- An arithmetic operation on two numbers; application is none, and answers `0`. -/
def compute (ar : Arithmetic) : Operator → Float → Float → Float
  | .add, a, b => orZero (a + b)
  | .sub, a, b => orZero (a - b)
  | .mul, a, b => orZero (a * b)
  | .div, a, b => ar.quotient a b
  | .mod, a, b => ar.modulus a b
  | .pow, a, b => orZero (ar.lib.pow a b)
  | .apply, _, _ => 0

/-- An operation on two values: application takes a function and a number, the others take two
numbers, and any other pair answers `0`. -/
def combine (ar : Arithmetic) : Operator → Value → Value → Float
  | .apply, .function f, .number v => f.apply ar.lib v
  | op, .number a, .number b => ar.compute op a b
  | _, _, _ => 0

end Arithmetic

end FormulaPlot
