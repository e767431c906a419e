import FormulaPlot.Proofs.Formula.Names
import FormulaPlot.Proofs.Number.NotANumber

/-!
# Proofs/Formula/WellFormed — every tree of a text is well formed

A tree can hold anything: a literal that is no number, a name with a blank in it, a call of a sum.
Those that texts are read to do not.

* `Expr.IsWellFormed` — unsigned literals, names for identifiers, and calls of identifiers only;
* `IsBody.isWellFormed` — the tree of a formula is well formed;
* `wellFormed_of_parsePrepared` — and so is every tree that reading gives, whatever the limit.
-/

namespace FormulaPlot

/-- The shape of a tree that a text can lead to. -/
inductive Expr.IsWellFormed : Expr → Prop
  | literal {v : Float} (unsigned : Number.IsUnsigned v) : IsWellFormed (.literal v)
  | identifier {f : String} (name : IsName f.toList) : IsWellFormed (.identifier f)
  | call {f : String} {e : Expr} (name : IsName f.toList) (argument : e.IsWellFormed) :
      IsWellFormed (.node .apply (.identifier f) e)
  | node {op : Operator} {e e' : Expr} (arithmetic : op ≠ .apply) (left : e.IsWellFormed)
      (right : e'.IsWellFormed) : IsWellFormed (.node op e e')

theorem Expr.isWellFormed_zero : (Expr.literal 0).IsWellFormed := .literal (by decide)

/-- A chain of well-formed operands is well formed, however it groups. -/
theorem isWellFormed_assemble {left : Expr} (hleft : left.IsWellFormed)
    {items : List (Operator × Expr)}
    (hitems : ∀ item ∈ items, item.1 ≠ .apply ∧ item.2.IsWellFormed) :
    (assemble left items).IsWellFormed := by
  induction items generalizing left with
  | nil => exact hleft
  | cons item items ih =>
    obtain ⟨op, e⟩ := item
    obtain ⟨⟨hop, he⟩, hitems⟩ := List.forall_mem_cons.1 hitems
    rw [assemble]
    split
    · exact .node hop hleft (ih he hitems)
    · exact ih (.node hop hleft he) hitems

section Grammar

variable {lenient : Bool}

mutual

/-- **The tree of an operand** is well formed. -/
theorem IsOperand.isWellFormed {s : List Char} {e : Expr} :
    IsOperand lenient s e → e.IsWellFormed
  | .number _ value => .literal (Number.isUnsigned_of_readFront? value)
  | .name name => .identifier (by rwa [String.toList_ofList])
  | .group body => body.isWellFormed
  | .call name body => .call (by rwa [String.toList_ofList]) body.isWellFormed

/-- **The operands of a tail** are well formed. -/
theorem IsTail.isWellFormed {previous : Option Operator} {t : List Char}
    {items : List (Operator × Expr)} : IsTail lenient previous t items →
      ∀ item ∈ items, item.1 ≠ .apply ∧ item.2.IsWellFormed
  | .nil => List.forall_mem_nil _
  | .cons arithmetic operand tail =>
    List.forall_mem_cons.2 ⟨⟨arithmetic, operand.isWellFormed⟩, tail.isWellFormed⟩
  | .last arithmetic _ => List.forall_mem_singleton.2 ⟨arithmetic, Expr.isWellFormed_zero⟩
  | .gap _ arithmetic _ _ tail =>
    List.forall_mem_cons.2 ⟨⟨arithmetic, Expr.isWellFormed_zero⟩, tail.isWellFormed⟩

/-- **The tree of a formula** is well formed. -/
theorem IsBody.isWellFormed {s : List Char} {e : Expr} : IsBody lenient s e → e.IsWellFormed
  | .plain operand tail => isWellFormed_assemble operand.isWellFormed tail.isWellFormed
  | .signed _ tail => isWellFormed_assemble Expr.isWellFormed_zero tail.isWellFormed

end

end Grammar

/-- **A tree that a text is read to is well formed**, whatever the text and the limit: its literals
are numbers without a sign, its identifiers are names, and all that is called is an identifier. -/
theorem wellFormed_of_parsePrepared {limit : Nat} {s : String} {t : Expr}
    (h : parsePrepared limit s = .ok t) : t.IsWellFormed :=
  (isBody_of_parseChars h).isWellFormed

/-- Zeros in front of a sign, between operators and at the end, an infinite literal and a name off
the keyboard. -/
theorem wellFormed_of_parsePrepared_zeros :
    let called : Expr :=
      .node .apply (.identifier "sin") (.node .sub (.literal 0) (.literal (1 / 0)))
    let left : Expr := .node .pow (.node .mul called (.identifier "π")) (.literal 2)
    let right : Expr := .node .sub (.node .mul (.identifier "y") (.literal 0))
      (.node .div (.literal 0.5) (.literal 0))
    parsePrepared 6 "sin_(-1e400)*π^2 + y*-.5/" = .ok (.node .add left right)
      ∧ (Expr.node .add left right).IsWellFormed := by
  intro called left right
  have hparse : parsePrepared 6 "sin_(-1e400)*π^2 + y*-.5/" = .ok (.node .add left right) := by
    decide +kernel
  exact ⟨hparse, wellFormed_of_parsePrepared hparse⟩

end FormulaPlot
