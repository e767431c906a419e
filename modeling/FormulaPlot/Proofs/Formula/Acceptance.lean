import FormulaPlot.Proofs.Formula.Completeness
import FormulaPlot.Proofs.Formula.Soundness
import Mathlib.Data.List.Chain

/-!
# Proofs/Formula/Acceptance — reading accepts the lenient formulas, and nothing else

A tree is at most one deeper than its text is long, so a limit above the length of a text never
stands in the way, and the two directions meet (`parseChars_eq_ok_iff`).  What a lenient body may do
and a strict one may not shows in the text: an operator right behind an operator
(`isBody_strict_iff`).
-/

namespace FormulaPlot

/-! ## Depth and length -/

mutual

theorem IsOperand.depth_le {lenient : Bool} {s : List Char} {e : Expr} :
    IsOperand lenient s e → e.depth ≤ s.length
  | .number run _ => by
    obtain ⟨c, t, rfl, -⟩ := run
    exact Nat.le_add_left 1 _
  | .name name => List.length_pos_of_ne_nil name.1
  | .group body => by
    have h := body.depth_le
    rw [List.length_cons, List.length_append, List.length_singleton]
    omega
  | .call name body => by
    have h := body.depth_le
    have hf := List.length_pos_of_ne_nil name.1
    rw [List.length_append, List.length_cons, List.length_cons, List.length_append, Expr.depth,
      Expr.depth, List.length_singleton]
    omega

theorem IsTail.depth_le {lenient : Bool} {previous : Option Operator} {t : List Char}
    {items : List (Operator × Expr)} : IsTail lenient previous t items →
      ∀ left : Expr, (assemble left items).depth ≤ left.depth + t.length
  | .nil, _ => Nat.le_refl _
  | @IsTail.cons _ _ op s t e items _ operand tail, left => by
    have hs := operand.depth_le
    have he := tail.depth_le e
    have hjoined := tail.depth_le (.node op left e)
    have hpos := left.depth_pos
    rw [List.length_cons, List.length_append, assemble]
    split <;> rw [Expr.depth] at * <;> omega
  | .last _ _, left => by
    have hpos := left.depth_pos
    rw [assemble_singleton, Expr.depth, Expr.depth, List.length_cons]
    omega
  | @IsTail.gap _ _ op sign t e items _ _ _ additive tail, left => by
    have h := tail.depth_le (.node op left (.literal 0))
    have hpos := left.depth_pos
    rw [assemble_of_not_nests (nestsRight_eq_false_of_isAdditive additive), List.length_cons]
    rw [Expr.depth, Expr.depth] at h
    omega

theorem IsBody.depth_le {lenient : Bool} {s : List Char} {e : Expr} :
    IsBody lenient s e → e.depth ≤ s.length + 1
  | @IsBody.plain _ s t e items operand tail => by
    have hs := operand.depth_le
    have h := tail.depth_le e
    rw [List.length_append]
    omega
  | .signed _ tail => by
    have h := tail.depth_le (.literal 0)
    rw [Expr.depth] at h
    omega

end

/-! ## Both directions -/

/-- A text is a formula of one tree at most. -/
theorem IsBody.unique {s : List Char} {e e' : Expr} (h : IsBody true s e) (h' : IsBody true s e') :
    e = e' := by
  have hread := h.readWithin (Nat.lt_succ_self s.length) h.depth_le
  rw [h'.readWithin (Nat.lt_succ_self s.length) h'.depth_le] at hread
  exact (congrArg Node.expr (Except.ok.inj hread)).symm

/-- **A text without blanks is read as a tree exactly if it is a lenient body with that tree**,
under any limit above its size. -/
theorem parseChars_eq_ok_iff {limit : Nat} {s : List Char}
    (hblank : ∀ c ∈ s, Text.isBlank c = false) (hlimit : Text.byteSize s < limit) {e : Expr} :
    parseChars limit s = .ok e ↔ IsBody true s e := by
  constructor
  · intro h
    have hbody := isBody_of_parseChars h
    rwa [Text.withoutBlanks_of_forall hblank] at hbody
  · intro h
    have hlength := Text.length_le_byteSize s
    have hdepth := h.depth_le
    rw [parseChars, h.readWithin (by omega) (by omega)]
    rfl

/-! ## Lenient and strict -/

/-- Whether a character writes an arithmetic operator. -/
def isOperatorChar (c : Char) : Bool := ['+', '-', '*', '/', '%', '^'].contains c

/-- No operator of the text has another one right behind it. -/
def OperatorsApart (s : List Char) : Prop :=
  s.IsChain fun c d => ¬ (isOperatorChar c = true ∧ isOperatorChar d = true)

theorem not_isOperatorChar_of_isOrdinary {c : Char} (h : isOrdinary c = true) :
    isOperatorChar c = false := by
  obtain ⟨-, -, -, hop⟩ := isOrdinary_iff.1 h
  rw [Operator.ofChar?_eq_none_iff] at hop
  grind [isOperatorChar]

theorem isOperatorChar_symbol {op : Operator} (h : op ≠ .apply) :
    isOperatorChar op.symbol = true := by
  cases op with
  | apply => exact absurd rfl h
  | _ => rfl

/-- Characters that are no operators may stand anywhere. -/
theorem operatorsApart_cons {c : Char} {s : List Char}
    (h : isOperatorChar c = false ∨ ∀ d ∈ s.head?, isOperatorChar d = false) :
    OperatorsApart (c :: s) ↔ OperatorsApart s := by
  rw [OperatorsApart, List.isChain_cons, and_iff_right]
  · rfl
  · rintro d hd ⟨hc, hd'⟩
    rcases h with h | h
    · rw [h] at hc
      cases hc
    · rw [h d hd] at hd'
      cases hd'

theorem operatorsApart_append {s t : List Char}
    (h : ∀ c ∈ s.getLast?, isOperatorChar c = false) :
    OperatorsApart (s ++ t) ↔ OperatorsApart s ∧ OperatorsApart t := by
  rw [OperatorsApart, List.isChain_append, ← and_assoc, and_iff_left]
  · rfl
  · rintro c hc d hd ⟨hc', -⟩
    rw [h c hc] at hc'
    cases hc'

theorem operatorsApart_of_forall {s : List Char} (h : ∀ c ∈ s, isOrdinary c = true) :
    OperatorsApart s := by
  induction s with
  | nil => exact .nil
  | cons c s ih =>
    obtain ⟨hc, hs⟩ := List.forall_mem_cons.1 h
    exact (operatorsApart_cons (.inl (not_isOperatorChar_of_isOrdinary hc))).2 (ih hs)

theorem operatorsApart_bracket {s : List Char} :
    OperatorsApart ('(' :: (s ++ [')'])) ↔ OperatorsApart s := by
  rw [operatorsApart_cons (.inl rfl), OperatorsApart, List.isChain_append]
  refine ⟨fun h => h.1, fun h => ⟨h, .singleton _, ?_⟩⟩
  rintro c - d hd ⟨-, hd'⟩
  obtain rfl := Option.some.inj hd
  cases hd'

/-- An operand starts with no operator. -/
theorem IsOperand.not_isOperatorChar_head {lenient : Bool} {s : List Char} {e : Expr}
    (h : IsOperand lenient s e) (t : List Char) :
    ∀ c ∈ (s ++ t).head?, isOperatorChar c = false := by
  obtain ⟨d, u, rfl, hd⟩ := h.exists_cons
  rintro c hc
  obtain rfl := Option.some.inj hc
  rcases hd with hd | rfl
  · exact not_isOperatorChar_of_isOrdinary hd
  · rfl

theorem not_isOperatorChar_getLast {s : List Char} (h : ∀ c ∈ s, isOrdinary c = true) :
    ∀ c ∈ s.getLast?, isOperatorChar c = false :=
  fun c hc => not_isOperatorChar_of_isOrdinary (h c (List.mem_of_mem_getLast? hc))

/-- It ends with none either. -/
theorem IsOperand.not_isOperatorChar_last {lenient : Bool} {s : List Char} {e : Expr}
    (h : IsOperand lenient s e) : ∀ c ∈ s.getLast?, isOperatorChar c = false := by
  cases h with
  | number run => exact not_isOperatorChar_getLast run.forall
  | name name => exact not_isOperatorChar_getLast name.forall
  | group body =>
    rintro c hc
    rw [← List.cons_append, List.getLast?_concat] at hc
    obtain rfl := Option.some.inj hc
    rfl
  | call name body =>
    rintro c hc
    rw [← List.cons_append, ← List.cons_append, ← List.append_assoc, List.getLast?_concat] at hc
    obtain rfl := Option.some.inj hc
    rfl

theorem operatorsApart_call {f s : List Char} (hf : IsName f) :
    OperatorsApart (f ++ '_' :: '(' :: (s ++ [')'])) ↔ OperatorsApart s := by
  rw [operatorsApart_append (not_isOperatorChar_getLast hf.forall), operatorsApart_cons (.inl rfl),
    operatorsApart_bracket, and_iff_right (operatorsApart_of_forall hf.forall)]

/-- An operator in front of an operand stands apart. -/
theorem IsOperand.operatorsApart_item {lenient : Bool} {s : List Char} {e : Expr}
    (h : IsOperand lenient s e) (op : Operator) (t : List Char) :
    OperatorsApart (op.symbol :: (s ++ t)) ↔ OperatorsApart s ∧ OperatorsApart t := by
  rw [operatorsApart_cons (.inr (h.not_isOperatorChar_head t)),
    operatorsApart_append h.not_isOperatorChar_last]

mutual

/-- **Strict operands keep operators apart.** -/
theorem IsOperand.operatorsApart {s : List Char} {e : Expr} :
    IsOperand false s e → OperatorsApart s
  | .number run _ => operatorsApart_of_forall run.forall
  | .name name => operatorsApart_of_forall name.forall
  | .group body => operatorsApart_bracket.2 body.operatorsApart
  | .call name body => (operatorsApart_call name).2 body.operatorsApart

theorem IsTail.operatorsApart {previous : Option Operator} {t : List Char}
    {items : List (Operator × Expr)} : IsTail false previous t items → OperatorsApart t
  | .nil => .nil
  | .cons _ operand tail =>
    (operand.operatorsApart_item _ _).2 ⟨operand.operatorsApart, tail.operatorsApart⟩
  | .last _ (.inl hs) => hs ▸ .singleton _
  | .last _ (.inr hs) => by
    obtain ⟨⟨c, t, rfl, -, hall⟩, -⟩ := hs
    refine (operatorsApart_cons (.inr ?_)).2 (operatorsApart_of_forall hall)
    rintro d hd
    obtain rfl := Option.some.inj hd
    exact not_isOperatorChar_of_isOrdinary (hall _ List.mem_cons_self)

theorem IsBody.operatorsApart {s : List Char} {e : Expr} :
    IsBody false s e → OperatorsApart s
  | .plain operand tail =>
    (operatorsApart_append operand.not_isOperatorChar_last).2
      ⟨operand.operatorsApart, tail.operatorsApart⟩
  | .signed _ tail => tail.operatorsApart

end

mutual

/-- **A lenient operand that keeps operators apart is a strict one.** -/
theorem IsOperand.strict {s : List Char} {e : Expr} :
    IsOperand true s e → OperatorsApart s → IsOperand false s e
  | .number run value, _ => .number run value
  | .name name, _ => .name name
  | .group body, hs => .group (body.strict (operatorsApart_bracket.1 hs))
  | .call name body, hs => .call name (body.strict ((operatorsApart_call name).1 hs))

theorem IsTail.strict {previous : Option Operator} {t : List Char}
    {items : List (Operator × Expr)} :
    IsTail true previous t items → OperatorsApart t → IsTail false previous t items
  | .nil, _ => .nil
  | .cons arithmetic operand tail, ht =>
    have hparts := (operand.operatorsApart_item _ _).1 ht
    .cons arithmetic (operand.strict hparts.1) (tail.strict hparts.2)
  | .last arithmetic missing, _ => .last arithmetic missing
  | .gap _ arithmetic _ additive tail, ht => by
    have hsign := isOperatorChar_symbol (ne_apply_of_isAdditive additive)
    have hop := isOperatorChar_symbol arithmetic
    cases tail <;> exact absurd ⟨hop, hsign⟩ (List.isChain_cons_cons.1 ht).1

theorem IsBody.strict {s : List Char} {e : Expr} :
    IsBody true s e → OperatorsApart s → IsBody false s e
  | .plain operand tail, hs =>
    have hparts := (operatorsApart_append operand.not_isOperatorChar_last).1 hs
    .plain (operand.strict hparts.1) (tail.strict hparts.2)
  | .signed additive tail, hs => .signed additive (tail.strict hs)

end

mutual

/-- A strict operand is a lenient one. -/
theorem IsOperand.lenient {s : List Char} {e : Expr} :
    IsOperand false s e → IsOperand true s e
  | .number run value => .number run value
  | .name name => .name name
  | .group body => .group body.lenient
  | .call name body => .call name body.lenient

theorem IsTail.lenient {previous : Option Operator} {t : List Char}
    {items : List (Operator × Expr)} : IsTail false previous t items → IsTail true previous t items
  | .nil => .nil
  | .cons arithmetic operand tail => .cons arithmetic operand.lenient tail.lenient
  | .last arithmetic missing => .last arithmetic missing

theorem IsBody.lenient {s : List Char} {e : Expr} : IsBody false s e → IsBody true s e
  | .plain operand tail => .plain operand.lenient tail.lenient
  | .signed additive tail => .signed additive tail.lenient

end

/-- **Strict bodies are the lenient ones that keep operators apart.** -/
theorem isBody_strict_iff {s : List Char} {e : Expr} :
    IsBody false s e ↔ IsBody true s e ∧ OperatorsApart s :=
  ⟨fun h => ⟨h.lenient, h.operatorsApart⟩, fun h => h.1.strict h.2⟩

/-! ## Prepared texts -/

/-- **What a prepared text without blanks is read as**, under any limit above its size: exactly the
trees that it has as a lenient body, and a fault if it has none.  Those are the trees that it has
as a strict body exactly if no operator stands right behind another, or the text is no body at
all. -/
theorem parsePrepared_eq_ok_iff {limit : Nat} {t : String}
    (hblank : ∀ c ∈ t.toList, Text.isBlank c = false) (hlimit : t.utf8ByteSize < limit) :
    (∀ e, parsePrepared limit t = .ok e ↔ IsBody true t.toList e)
      ∧ ((∃ error, parsePrepared limit t = .error error) ↔ ∀ e, ¬ IsBody true t.toList e)
      ∧ ((∀ e, parsePrepared limit t = .ok e ↔ IsBody false t.toList e)
        ↔ OperatorsApart t.toList ∨ ∀ e, ¬ IsBody true t.toList e) := by
  have hread (e : Expr) : parsePrepared limit t = .ok e ↔ IsBody true t.toList e :=
    parseChars_eq_ok_iff hblank (by rwa [Text.byteSize_toList])
  refine ⟨hread, ?_, ?_⟩
  · constructor
    · rintro ⟨error, herror⟩ e he
      rw [(hread e).2 he] at herror
      cases herror
    · intro hnone
      cases hparse : parsePrepared limit t with
      | error error => exact ⟨error, rfl⟩
      | ok e => exact absurd ((hread e).1 hparse) (hnone e)
  · constructor
    · intro hstrict
      by_cases hbody : ∃ e, IsBody true t.toList e
      · obtain ⟨e, he⟩ := hbody
        exact .inl ((hstrict e).1 ((hread e).2 he)).operatorsApart
      · exact .inr (not_exists.1 hbody)
    · rintro (hapart | hnone) e
      · rw [hread, isBody_strict_iff, and_iff_left hapart]
      · rw [hread, isBody_strict_iff]
        exact ⟨fun he => absurd he (hnone e), fun he => he.1⟩

/-- Behind the first operator of a text a sign is refused, as it is in a strict body. -/
theorem parsePrepared_sign_behind_first_operator :
    (∀ c ∈ "2*-3".toList, Text.isBlank c = false) ∧ "2*-3".utf8ByteSize < 5
      ∧ parsePrepared 5 "2*-3" = .error ⟨.operandExpected, some 2⟩
      ∧ ∀ e, parsePrepared 5 "2*-3" = .ok e ↔ IsBody false "2*-3".toList e := by
  have hblank : ∀ c ∈ "2*-3".toList, Text.isBlank c = false := by
    have hall : "2*-3".toList.all (!Text.isBlank ·) = true := rfl
    exact fun c hc => Bool.not_eq_true' _ ▸ List.all_eq_true.1 hall c hc
  have hread : parsePrepared 5 "2*-3" = .error ⟨.operandExpected, some 2⟩ := rfl
  obtain ⟨-, hrefused, hstrict⟩ := parsePrepared_eq_ok_iff hblank (by decide : _ < 5)
  exact ⟨hblank, by decide, hread, hstrict.2 (.inr (hrefused.1 ⟨_, hread⟩))⟩

/-- Behind an operator that nests to the right it is read as if a `0` stood between them, where a
strict body has nothing of the kind. -/
theorem parsePrepared_sign_behind_nested_operator :
    parsePrepared 7 "1+2*-3" = .ok (.node .add (.literal 1)
        (.node .sub (.node .mul (.literal 2) (.literal 0)) (.literal 3)))
      ∧ ∀ e, ¬ IsBody false "1+2*-3".toList e := by
  refine ⟨rfl, fun e he => ?_⟩
  have hapart : OperatorsApart "1+2*-3".toList := he.operatorsApart
  exact absurd hapart (by rw [OperatorsApart]; decide)

end FormulaPlot
