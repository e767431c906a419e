import FormulaPlot.Expr.Basic
import FormulaPlot.Formula.Error

/-!
# Formula/Node — trees under a depth limit

While a text is read every tree carries its depth, so that joining two of them can refuse a tree
that is too deep without walking it.  A leaf alone is never refused.
-/

namespace FormulaPlot

/-- A tree and its depth. -/
structure Node where
  expr : Expr
  depth : Nat
  deriving Repr, DecidableEq

namespace Node

/-- A literal or an identifier as a tree. -/
def leaf (e : Expr) : Node := ⟨e, 1⟩

/-- Two trees joined by an operator, unless the result is deeper than `limit`. -/
def join (limit : Nat) (op : Operator) (left right : Node) : Except ParseError Node :=
  let depth := max left.depth right.depth + 1
  if limit < depth then .error ⟨.tooDeep limit, none⟩
  else .ok ⟨.node op left.expr right.expr, depth⟩

/-- **Joining, taken apart**: the tree that comes of it is deeper by one than the deeper side, and
no deeper than the limit. -/
theorem join_eq_ok_iff {limit : Nat} {op : Operator} {left right n : Node} :
    join limit op left right = .ok n
      ↔ n = ⟨.node op left.expr right.expr, max left.depth right.depth + 1⟩ ∧ n.depth ≤ limit := by
  unfold join
  dsimp only
  split
  · next hdeep =>
    refine iff_of_false nofun ?_
    rintro ⟨rfl, hle⟩
    exact Nat.not_le_of_lt hdeep hle
  · next hle =>
    constructor
    · rintro ⟨⟩
      exact ⟨rfl, Nat.le_of_not_lt hle⟩
    · rintro ⟨rfl, -⟩
      rfl

/-- The limit is all that joining is refused for. -/
theorem eq_tooDeep_of_join {limit : Nat} {op : Operator} {left right : Node} {e : ParseError}
    (h : join limit op left right = .error e) : e = ⟨.tooDeep limit, none⟩ := by
  unfold join at h
  dsimp only at h
  split at h
  · exact (Except.error.inj h).symm
  · cases h

/-- **Depths stay true**: joining trees with their own depths gives a tree with its own depth. -/
theorem depth_of_join {limit : Nat} {op : Operator} {left right n : Node}
    (hl : left.depth = left.expr.depth) (hr : right.depth = right.expr.depth)
    (h : join limit op left right = .ok n) : n.depth = n.expr.depth := by
  obtain ⟨rfl, -⟩ := join_eq_ok_iff.1 h
  simp [Expr.depth, hl, hr]

end Node

end FormulaPlot
