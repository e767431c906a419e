/-!
# Operator — the symbols that join two operands

Six arithmetic operators and **application**, written `_`, which joins a function name to its
argument.  The class of an operator decides how it groups: multiplicative operators bind tighter
than additive ones, and there is no third level, `^` being multiplicative.
-/

namespace FormulaPlot

/-- The operators of formulas. -/
inductive Operator where
  | add | sub | mul | div | mod | pow | apply
  deriving Repr, DecidableEq

/-- The classes of operators: within one class, operators group from the left. -/
inductive Operator.Kind where
  | additive | multiplicative | application
  deriving Repr, DecidableEq

/-- A character that is no operator. -/
structure UnknownOperator where
  symbol : Char
  deriving Repr, DecidableEq

/-- What is said of a character that is no operator. -/
def UnknownOperator.message (e : UnknownOperator) : String :=
  "Unknown operator: " ++ String.singleton e.symbol

namespace Operator

/-- The character that writes an operator. -/
def symbol : Operator → Char
  | add => '+'
  | sub => '-'
  | mul => '*'
  | div => '/'
  | mod => '%'
  | pow => '^'
  | apply => '_'

/-- The class of an operator. -/
def kind : Operator → Kind
  | add | sub => .additive
  | mul | div | mod | pow => .multiplicative
  | apply => .application

/-- Whether an operator is additive. -/
def isAdditive (op : Operator) : Bool := op.kind = .additive

/-- The operator that a character writes. -/
def ofChar? : Char → Option Operator
  | '+' => some add
  | '-' => some sub
  | '*' => some mul
  | '/' => some div
  | '%' => some mod
  | '^' => some pow
  | '_' => some apply
  | _ => none

/-- The operator that a character writes, or the fault that it writes none. -/
def ofChar (c : Char) : Except UnknownOperator Operator :=
  match ofChar? c with
  | some op => .ok op
  | none => .error ⟨c⟩

theorem ofChar?_eq_some_iff {c : Char} {op : Operator} : ofChar? c = some op ↔ c = op.symbol := by
  constructor
  · intro h
    unfold ofChar? at h
    split at h <;> simp_all [symbol] <;> subst h <;> rfl
  · rintro rfl
    cases op <;> rfl

end Operator

end FormulaPlot
