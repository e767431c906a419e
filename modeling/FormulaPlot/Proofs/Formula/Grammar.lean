import FormulaPlot.Formula.Parse

/-!
# Proofs/Formula/Grammar — which texts are formulas, and of which trees

A **body** is a chain of operands with operators between them; an **operand** is a number, a name,
a body in brackets, or a name called on a body in brackets.  The three relations below say so of
texts without blanks, and which tree each text stands for:

* `IsOperand` — a single operand;
* `IsTail` — the operators behind an operand, each with the operand that follows it;
* `IsBody` — an operand and its tail, put together by `assemble`.

The relations take a `lenient` flag.  A strict body leaves an operand out in two places only: in
front of the sign that it starts with, and at its very end.  A lenient one may also leave out the
operand behind a multiplicative operator that nests to the right, when a sign comes next, as in
`1+2*-3`.
-/

namespace FormulaPlot

/-! ## Characters and runs of them -/

/-- The characters with a meaning of their own: brackets, the call mark and the operators. -/
def specialChars : List Char := ['(', ')', '+', '-', '*', '/', '%', '^', '_']

/-- Whether a character is an ordinary one, of which numbers and names are made. -/
def isOrdinary (c : Char) : Bool := !Text.isBlank c && !specialChars.contains c

/-- A number's run of characters: ordinary ones, of which the first is a digit or a point. -/
def IsNumberRun (s : List Char) : Prop :=
  ∃ c t, s = c :: t ∧ isNumeral c ∧ ∀ d ∈ s, isOrdinary d

/-- A name: ordinary characters, at least one, without digits and points. -/
def IsName (s : List Char) : Prop :=
  s ≠ [] ∧ ∀ c ∈ s, isOrdinary c ∧ ¬ isNumeral c

instance (s : List Char) : Decidable (IsName s) :=
  decidable_of_iff ((!s.isEmpty && s.all fun c => isOrdinary c && !isNumeral c) = true) (by
    simp [IsName])

/-! ## Chains of operands -/

/-- Whether an operator behind `previous` takes all that follows it into a subtree of its own. -/
def nestsRight (previous op : Operator) : Bool := previous.isAdditive && !op.isAdditive

/-- **The tree of a chain**: operators join what is on their left to the operand on their right,
from left to right; only an operator that nests to the right takes its left operand away from the
operator before it, and that operator then joins the tree of all the rest. -/
def assemble (left : Expr) : List (Operator × Expr) → Expr
  | [] => left
  | (op, e) :: items =>
    if (items.head?.any fun item => nestsRight op item.1) then .node op left (assemble e items)
    else assemble (.node op left e) items

@[simp] theorem assemble_nil (left : Expr) : assemble left [] = left := rfl

@[simp] theorem assemble_singleton (left : Expr) (op : Operator) (e : Expr) :
    assemble left [(op, e)] = .node op left e := rfl

theorem assemble_of_nests {op op' : Operator} (h : nestsRight op op' = true)
    (left e e' : Expr) (items : List (Operator × Expr)) :
    assemble left ((op, e) :: (op', e') :: items)
      = .node op left (assemble e ((op', e') :: items)) := if_pos h

theorem assemble_of_not_nests {op op' : Operator} (h : nestsRight op op' = false)
    (left e e' : Expr) (items : List (Operator × Expr)) :
    assemble left ((op, e) :: (op', e') :: items)
      = assemble (.node op left e) ((op', e') :: items) :=
  if_neg (by rw [List.head?_cons, Option.any_some, h]; exact Bool.false_ne_true)

/-! ## The grammar -/

mutual

/-- The text `s` is a single operand with the tree `e`. -/
inductive IsOperand (lenient : Bool) : List Char → Expr → Prop
  /-- Of a number's run the longest numeral at its front counts, and there must be one. -/
  | number {s : List Char} {v : Float} (run : IsNumberRun s)
      (value : Number.readFront? s = some v) : IsOperand lenient s (.literal v)
  | name {s : List Char} (name : IsName s) :
      IsOperand lenient s (.identifier (String.ofList s))
  | group {s : List Char} {e : Expr} (body : IsBody lenient s e) :
      IsOperand lenient ('(' :: (s ++ [')'])) e
  | call {f s : List Char} {e : Expr} (name : IsName f) (body : IsBody lenient s e) :
      IsOperand lenient (f ++ '_' :: '(' :: (s ++ [')']))
        (.node .apply (.identifier (String.ofList f)) e)

/-- The text is a tail, behind an operand that the operator `previous` stands before: operators,
each with the tree of the operand behind it. -/
inductive IsTail (lenient : Bool) :
    Option Operator → List Char → List (Operator × Expr) → Prop
  | nil {previous : Option Operator} : IsTail lenient previous [] []
  | cons {previous : Option Operator} {op : Operator} {s t : List Char} {e : Expr}
      {items : List (Operator × Expr)} (arithmetic : op ≠ .apply) (operand : IsOperand lenient s e)
      (tail : IsTail lenient (some op) t items) :
      IsTail lenient previous (op.symbol :: (s ++ t)) ((op, e) :: items)
  /-- The last operand may be missing, or be a run without a numeral at its front; it is `0`. -/
  | last {previous : Option Operator} {op : Operator} {s : List Char} (arithmetic : op ≠ .apply)
      (missing : s = [] ∨ IsNumberRun s ∧ Number.readFront? s = none) :
      IsTail lenient previous (op.symbol :: s) [(op, .literal 0)]
  /-- Leniently, an operand is `0` too between an operator that nests to the right and a sign. -/
  | gap {previous op sign : Operator} {t : List Char} {e : Expr}
      {items : List (Operator × Expr)} (lenience : lenient = true) (arithmetic : op ≠ .apply)
      (nests : nestsRight previous op = true) (additive : sign.isAdditive = true)
      (tail : IsTail lenient (some op) t ((sign, e) :: items)) :
      IsTail lenient (some previous) (op.symbol :: t) ((op, .literal 0) :: (sign, e) :: items)

/-- The text `s` is a chain of operands with the tree `e`. -/
inductive IsBody (lenient : Bool) : List Char → Expr → Prop
  | plain {s t : List Char} {e : Expr} {items : List (Operator × Expr)}
      (operand : IsOperand lenient s e) (tail : IsTail lenient none t items) :
      IsBody lenient (s ++ t) (assemble e items)
  /-- A body that starts with a sign has a `0` in front. -/
  | signed {t : List Char} {sign : Operator} {e : Expr} {items : List (Operator × Expr)}
      (additive : sign.isAdditive = true) (tail : IsTail lenient none t ((sign, e) :: items)) :
      IsBody lenient t (assemble (.literal 0) ((sign, e) :: items))

end

end FormulaPlot
