import FormulaPlot.Proofs.Formula.Moves

/-!
# Proofs/Formula/Faults — a fault with a position stays

A fault is noticed at a character, and then it has the character's position, or at the end of a
text, or by the limit, and then it has none (`position_of_finish`, `position_of_join`).  What is
behind a character has no part in what the character does, except that an operator which nests to
the right has it read (`Reading.move_append`).  So more text changes nothing before a fault with a
position:

* `Reading.run_append_of_error` — the run on the longer text goes the same way up to the fault;
* `parsePrepared_append_of_error` — a fault with a position is not repaired by more text.
-/

namespace FormulaPlot

/-! ## Faults without a position -/

/-- The limit refuses a tree without a position. -/
theorem position_of_join {limit : Nat} {op : Operator} {left right : Node} {e : ParseError}
    (h : Node.join limit op left right = .error e) : e.position = none :=
  Node.eq_tooDeep_of_join h ▸ rfl

/-- **What is noticed at the end** has no position. -/
theorem Reading.position_of_finish {limit : Nat} {r : Reading} {e : ParseError}
    (h : r.finish limit = .error e) : e.position = none := by
  unfold finish at h
  split at h
  · exact Except.error.inj h ▸ rfl
  · exact Except.error.inj h ▸ rfl
  · split at h
    · cases h
    · exact Except.error.inj h ▸ rfl
    · exact position_of_join h

/-! ## More text -/

/-- The same move with `u` behind the text that it has read on its own. -/
def Move.append (u : List Char) : Move → Move
  | nest ch value op rest => nest ch value op (rest ++ u)
  | move => move

theorem Move.append_ofFocus (u : List Char) (x : Except ParseError Focus) :
    (ofFocus x).append u = ofFocus x := by
  cases x <;> rfl

theorem Move.append_ofOperator (u : List Char) (chain : Option Chain) (value : Node)
    (op : Operator) (rest : List Char) :
    (ofOperator chain value op rest).append u = ofOperator chain value op (rest ++ u) := by
  cases chain with
  | none => rfl
  | some ch =>
    simp only [ofOperator]
    cases nestsRight ch.operator op <;> rfl

theorem Move.append_inside (u : List Char) (i : Nat) (c : Char) (callee : Option String)
    (inner : Nat) (content : List Char) :
    (inside i c callee inner content).append u = inside i c callee inner content := by
  unfold inside
  split
  · cases inner with
    | zero =>
      dsimp only
      split <;> rfl
    | succ inner => rfl
  · split <;> rfl

/-- **A character makes the same move** whatever is behind it. -/
theorem Reading.move_append (r : Reading) (i : Nat) (c : Char) (rest u : List Char) :
    r.move i c (rest ++ u) = (r.move i c rest).append u := by
  obtain ⟨chain, focus⟩ := r
  cases focus with
  | bracket callee inner content => exact (Move.append_inside u i c callee inner content).symm
  | operand o =>
    simp only [move, Move.outside]
    split
    · exact (Move.append_ofFocus u _).symm
    · split
      · rfl
      · split
        · exact (Move.append_ofFocus u _).symm
        · split
          · split
            · rfl
            · exact (Move.append_ofOperator u chain _ _ rest).symm
          · exact (Move.append_ofFocus u _).symm

/-- A way to read a text on its own whose faults with a position stay when the text goes on. -/
def SubReading.KeepsFaults (sub : SubReading) : Prop :=
  ∀ {chain t e}, sub chain t = .error e → e.position ≠ none → ∀ u, sub chain (t ++ u) = .error e

section Run

variable {limit : Nat} {sub : SubReading}

/-- A move that leads to another reading leads there whatever is behind it. -/
theorem Move.perform_append_of_more {chain : Option Chain} {move : Move} {r : Reading}
    (h : move.perform limit sub chain = .ok (.more r)) (u : List Char) :
    (move.append u).perform limit sub chain = .ok (.more r) := by
  cases move with
  | nest ch value op rest =>
    obtain ⟨n, -, h⟩ := exists_of_bind_eq_ok h
    obtain ⟨n, -, h⟩ := exists_of_map_eq_ok h
    cases h
  | _ => exact h

variable (hsub : sub.KeepsFaults)
include hsub

/-- **A move's fault with a position** stays. -/
theorem Move.perform_append_of_error {chain : Option Chain} {move : Move} {e : ParseError}
    (h : move.perform limit sub chain = .error e) (he : e.position ≠ none) (u : List Char) :
    (move.append u).perform limit sub chain = .error e := by
  cases move with
  | nest ch value op rest =>
    rcases error_or_exists_of_bind_eq_error h with hnested | ⟨n, -, hjoin⟩
    · rw [append, perform, hsub hnested he u]
      rfl
    · exact absurd (position_of_join (eq_error_of_map_eq_error hjoin)) he
  | _ => exact h

/-- **A run's fault with a position** stays: the run on the longer text goes the same way up to
it. -/
theorem Reading.run_append_of_error {r : Reading} {i : Nat} {rest : List Char} {e : ParseError}
    (h : r.run limit sub i rest = .error e) (he : e.position ≠ none) (u : List Char) :
    r.run limit sub i (rest ++ u) = .error e := by
  induction rest generalizing r i with
  | nil => exact absurd (position_of_finish h) he
  | cons c rest ih =>
    rw [List.cons_append]
    by_cases hblank : Text.isBlank c = true
    · rw [run_blank hblank] at h ⊢
      exact ih h
    · have hc := Bool.eq_false_iff.2 hblank
      rw [run_move hc] at h
      rw [run_move hc, move_append]
      cases hmove : (r.move i c rest).perform limit sub r.chain with
      | error e' =>
        rw [hmove] at h
        obtain rfl := Except.error.inj h
        rw [Move.perform_append_of_error hsub hmove he u]
        rfl
      | ok outcome =>
        rw [hmove] at h
        cases outcome with
        | done n => cases h
        | more r' =>
          rw [Move.perform_append_of_more hmove u]
          exact ih h

end Run

/-- Text behind a text that is not empty does not change what stands at its start. -/
theorem withLeadingZero_append {t : List Char} (ht : t ≠ []) (u : List Char) :
    withLeadingZero (t ++ u) = withLeadingZero t ++ u := by
  obtain ⟨c, t, rfl⟩ := List.exists_cons_of_ne_nil ht
  unfold withLeadingZero
  grind

/-- **A reading within any room** keeps its faults. -/
theorem keepsFaults_readWithin (limit room : Nat) : (readWithin limit room).KeepsFaults := by
  induction room with
  | zero =>
    intro chain t e h he
    exact absurd (Except.error.inj h ▸ rfl) he
  | succ room ih =>
    intro chain t e h he u
    by_cases ht : t = []
    · -- Of an empty text only the end is left, and that has no position.
      subst ht
      exact absurd (Reading.position_of_finish (r := .start chain) h) he
    · rw [readWithin, withLeadingZero_append ht]
      exact Reading.run_append_of_error ih h he u

/-- **A fault with a position is not repaired by more text.**  Under every limit a text that goes on
behind such a fault has the same fault, at the same position. -/
theorem parsePrepared_append_of_error {limit : Nat} {s : String} {e : ParseError}
    (h : parsePrepared limit s = .error e) (he : e.position ≠ none) (u : String) :
    parsePrepared limit (s ++ u) = .error e := by
  have hread : readWithin limit (limit + 1) none s.toList = .error e := eq_error_of_map_eq_error h
  rw [parsePrepared, parseChars, String.toList_append, keepsFaults_readWithin _ _ hread he]
  rfl

/-- A fault in a text that nests to the right stays when that text goes on, and one in a bracket
when another operator follows. -/
theorem parsePrepared_append_of_error_nested :
    parsePrepared 256 "1+2*x3" = .error ⟨.operatorExpected, some 1⟩
      ∧ parsePrepared 256 ("1+2*x3" ++ "*(y") = .error ⟨.operatorExpected, some 1⟩
      ∧ parsePrepared 256 "2+(x*/y)" = .error ⟨.operandExpected, some 2⟩
      ∧ parsePrepared 256 ("2+(x*/y)" ++ "^z") = .error ⟨.operandExpected, some 2⟩ := by
  have hnested : parsePrepared 256 "1+2*x3" = .error ⟨.operatorExpected, some 1⟩ := rfl
  have hbracket : parsePrepared 256 "2+(x*/y)" = .error ⟨.operandExpected, some 2⟩ := rfl
  exact ⟨hnested, parsePrepared_append_of_error hnested (by decide) "*(y",
    hbracket, parsePrepared_append_of_error hbracket (by decide) "^z"⟩

end FormulaPlot
