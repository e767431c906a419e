import FormulaPlot.Proofs.Formula.Reading

/-!
# Proofs/Formula/Soundness — a text that is read is a formula

Whatever the limit, a text that reading turns into a tree is, less its blanks, a lenient body with
that tree (`isBody_of_parseChars`).  The invariant has two parts: `Collects w focus` says that the
characters `w` since the last operator are what the focus holds, and `Completes chain s e` says
that `s`, which starts behind the chain, leads to the tree `e`.  A step passes one character from
the text that is left to `w`, or ends the operand and starts anew behind the operator.
-/

namespace FormulaPlot

/-! ## What a reading has seen -/

/-- The characters since the last operator, and the focus they lead to. -/
inductive Collects : List Char → Focus → Prop
  | empty : Collects [] (.operand .empty)
  | number {text : List Char} (run : IsNumberRun text.reverse) :
      Collects text.reverse (.operand (.number text))
  | name {text : List Char} (name : IsName text.reverse) :
      Collects text.reverse (.operand (.name text))
  | finished {w : List Char} {n : Node} (operand : IsOperand true w n.expr) :
      Collects w (.operand (.finished n))
  | callee {f : List Char} (name : IsName f) :
      Collects (f ++ ['_']) (.operand (.callee (String.ofList f)))
  | group {inner : Nat} {content : List Char} (solid : ∀ c ∈ content, Text.isBlank c = false) :
      Collects ('(' :: content.reverse) (.bracket none inner content)
  | call {f : List Char} {inner : Nat} {content : List Char} (name : IsName f)
      (solid : ∀ c ∈ content, Text.isBlank c = false) :
      Collects (f ++ '_' :: '(' :: content.reverse)
        (.bracket (some (String.ofList f)) inner content)

/-- The text `s`, behind a chain or at the start of a text, completes the tree `e`. -/
def Completes : Option Chain → List Char → Expr → Prop
  | none, s, e => ∃ w t x items, s = w ++ t ∧ IsOperand true w x ∧ IsTail true none t items
      ∧ e = assemble x items
  | some ⟨left, op⟩, s, e => ∃ x items, IsTail true none (op.symbol :: s) ((op, x) :: items)
      ∧ e = assemble left.expr ((op, x) :: items)

/-- A chain whose operator is arithmetic. -/
def IsArithmetic (chain : Option Chain) : Prop := ∀ ch ∈ chain, ch.operator ≠ .apply

/-- A tail with no operator before it is one behind any operator. -/
theorem IsTail.weaken {lenient : Bool} {t : List Char} {items : List (Operator × Expr)}
    (h : IsTail lenient none t items) (previous : Option Operator) :
    IsTail lenient previous t items := by
  cases h with
  | nil => exact .nil
  | cons arithmetic operand tail => exact .cons arithmetic operand tail
  | last arithmetic missing => exact .last arithmetic missing

/-- A collected operand with a tree is an operand with that tree. -/
theorem Collects.isOperand {w : List Char} {o : Operand} {n : Node}
    (h : Collects w (.operand o)) (hn : o.node? = some n) : IsOperand true w n.expr := by
  cases h with
  | empty => cases hn
  | number run =>
    obtain ⟨v, hv, rfl⟩ := Option.map_eq_some_iff.1 hn
    exact .number run hv
  | name name =>
    obtain rfl := Option.some.inj hn
    exact .name name
  | finished operand =>
    obtain rfl := Option.some.inj hn
    exact operand
  | callee name => cases hn

/-! ## The end of the text -/

theorem Node.expr_of_join {limit : Nat} {op : Operator} {left right n : Node}
    (h : Node.join limit op left right = .ok n) : n.expr = .node op left.expr right.expr :=
  congrArg Node.expr (Node.join_eq_ok_iff.1 h).1

/-- **At the end** the operand, or `0` in its place, completes the tree. -/
theorem Collects.completes_end {limit : Nat} {chain : Option Chain} {w : List Char} {o : Operand}
    {n : Node} (h : Collects w (.operand o)) (hchain : IsArithmetic chain)
    (hn : Reading.finish limit ⟨chain, .operand o⟩ = .ok n) : Completes chain w n.expr := by
  cases hnode : o.node? with
  | some node =>
    rw [Reading.finish_of_node? hnode] at hn
    cases chain with
    | none =>
      obtain rfl := Except.ok.inj hn
      exact ⟨w, [], _, [], (List.append_nil w).symm, h.isOperand hnode, .nil, rfl⟩
    | some ch =>
      have htail : IsTail true none (ch.operator.symbol :: (w ++ [])) [(ch.operator, node.expr)] :=
        .cons (hchain ch rfl) (h.isOperand hnode) .nil
      rw [List.append_nil] at htail
      exact ⟨node.expr, [], htail, Node.expr_of_join hn⟩
  | none =>
    have hcallee : ∀ f, o ≠ .callee f := by
      rintro f rfl
      cases hn
    rw [Reading.finish_of_missing hnode hcallee] at hn
    cases chain with
    | none => cases hn
    | some ch =>
      refine ⟨.literal 0, [], .last (hchain ch rfl) ?_, Node.expr_of_join hn⟩
      cases h with
      | empty => exact .inl rfl
      | number run => exact .inr ⟨run, Option.map_eq_none_iff.1 hnode⟩
      | name => cases hnode
      | finished => cases hnode
      | callee => exact absurd rfl (hcallee _)

/-! ## Operators -/

/-- **Nesting to the right**: the operator before the operand joins the tree of all the rest. -/
theorem completes_of_nested {left : Node} {previous op : Operator} {w rest : List Char}
    {x y : Expr} {items : List (Operator × Expr)} (hprevious : previous ≠ .apply)
    (hnests : nestsRight previous op = true) (hw : IsOperand true w x)
    (htail : IsTail true (some previous) (op.symbol :: rest) ((op, y) :: items)) :
    Completes (some ⟨left, previous⟩) (w ++ op.symbol :: rest)
      (.node previous left.expr (assemble x ((op, y) :: items))) := by
  exact ⟨x, (op, y) :: items, .cons hprevious hw htail, (assemble_of_nests hnests ..).symm⟩

/-- **Going on**: the operand joins the chain, and the operator starts a new one. -/
theorem completes_of_joined {left joined : Node} {previous op : Operator} {w rest : List Char}
    {x e : Expr} (hprevious : previous ≠ .apply) (hnests : nestsRight previous op = false)
    (hw : IsOperand true w x) (hjoined : joined.expr = .node previous left.expr x)
    (h : Completes (some ⟨joined, op⟩) rest e) :
    Completes (some ⟨left, previous⟩) (w ++ op.symbol :: rest) e := by
  obtain ⟨y, items, htail, rfl⟩ := h
  refine ⟨x, (op, y) :: items, .cons hprevious hw (htail.weaken _), ?_⟩
  rw [assemble_of_not_nests hnests, hjoined]

/-! ## Texts read on their own -/

/-- What is asked of a way to read a text on its own: a text read afresh is a body, and one read
behind an operator that nests to the right is a tail with that operator. -/
structure SubReading.IsSound (sub : SubReading) : Prop where
  body {s : List Char} {n : Node} (h : sub none s = .ok n) :
    IsBody true (Text.withoutBlanks s) n.expr
  tail {left : Node} {previous op : Operator} {s : List Char} {n : Node} (hop : op ≠ .apply)
    (hnests : nestsRight previous op = true) (h : sub (some ⟨left, op⟩) s = .ok n) :
    ∃ x items, IsTail true (some previous) (op.symbol :: Text.withoutBlanks s) ((op, x) :: items)
      ∧ n.expr = assemble left.expr ((op, x) :: items)

/-! ## A step inside a bracket -/

theorem Collects.push_inside {w content : List Char} {callee : Option String} {inner : Nat}
    {c : Char} (h : Collects w (.bracket callee inner content)) (hc : Text.isBlank c = false)
    (inner' : Nat) : Collects (w ++ [c]) (.bracket callee inner' (c :: content)) := by
  cases h with
  | group solid =>
    rw [List.cons_append, ← List.reverse_cons]
    exact .group (List.forall_mem_cons.2 ⟨hc, solid⟩)
  | call name solid =>
    rw [List.append_assoc, List.cons_append, List.cons_append, ← List.reverse_cons]
    exact .call name (List.forall_mem_cons.2 ⟨hc, solid⟩)

/-- A bracket that closes leaves an operand behind. -/
theorem Collects.close {limit : Nat} {sub : SubReading} (hsub : sub.IsSound)
    {w content : List Char} {callee : Option String} {inner i : Nat} {n : Node}
    (h : Collects w (.bracket callee inner content))
    (hn : closeBracket limit sub i callee content.reverse = .ok n) :
    Collects (w ++ [')']) (.operand (.finished n)) := by
  have hsolid (solid : ∀ c ∈ content, Text.isBlank c = false) :
      Text.withoutBlanks content.reverse = content.reverse :=
    Text.withoutBlanks_of_forall fun c hc => solid c (List.mem_reverse.1 hc)
  cases h with
  | group solid =>
    simp only [closeBracket] at hn
    split at hn
    · cases hn
    · have hbody := hsub.body hn
      rw [hsolid solid] at hbody
      exact .finished (.group hbody)
  | call name solid =>
    obtain ⟨argument, hargument, hjoin⟩ := exists_of_bind_eq_ok hn
    have hbody := hsub.body hargument
    rw [hsolid solid] at hbody
    have hcall := IsOperand.call name hbody
    have hn : n.expr = .node .apply (.identifier (String.ofList _)) argument.expr :=
      Node.expr_of_join hjoin
    rw [← hn] at hcall
    rw [List.append_assoc, List.cons_append, List.cons_append]
    exact .finished hcall

/-- **A step inside a bracket** collects its character. -/
theorem Collects.step_inside {limit : Nat} {sub : SubReading} (hsub : sub.IsSound)
    {w content : List Char} {callee : Option String} {inner i : Nat} {c : Char} {focus : Focus}
    (h : Collects w (.bracket callee inner content)) (hc : Text.isBlank c = false)
    (hfocus : stepInside limit sub i c callee inner content = .ok focus) :
    Collects (w ++ [c]) focus := by
  unfold stepInside at hfocus
  split at hfocus
  · next hclose =>
    subst hclose
    cases inner with
    | zero =>
      obtain ⟨n, hn, heq⟩ := exists_of_bind_eq_ok hfocus
      obtain rfl := Except.ok.inj heq
      exact h.close hsub hn
    | succ inner =>
      obtain rfl := Except.ok.inj hfocus
      exact h.push_inside hc inner
  · have hpush : ∃ inner', focus = .bracket callee inner' (c :: content) := by
      split at hfocus
      · exact ⟨_, (Except.ok.inj hfocus).symm⟩
      · exact ⟨_, (Except.ok.inj hfocus).symm⟩
    obtain ⟨inner', rfl⟩ := hpush
    exact h.push_inside hc inner'

/-! ## A step outside all brackets -/

theorem Collects.open {w : List Char} {o : Operand} {focus : Focus} {i : Nat}
    (h : Collects w (.operand o)) (ho : o.openBracket i = .ok focus) :
    Collects (w ++ ['(']) focus := by
  cases h with
  | empty =>
    obtain rfl := Except.ok.inj ho
    exact .group (List.forall_mem_nil _)
  | callee name =>
    obtain rfl := Except.ok.inj ho
    rw [List.append_assoc]
    exact .call name (List.forall_mem_nil _)
  | _ => cases ho

theorem Collects.mark {w : List Char} {o o' : Operand} {i : Nat} (h : Collects w (.operand o))
    (ho : o.markCall i = .ok o') : Collects (w ++ ['_']) (.operand o') := by
  cases h with
  | name name =>
    obtain rfl := Except.ok.inj ho
    exact .callee name
  | _ => cases ho

theorem Collects.push {w : List Char} {o o' : Operand} {i : Nat} {c : Char}
    (hc : isOrdinary c = true) (h : Collects w (.operand o)) (ho : o.push i c = .ok o') :
    Collects (w ++ [c]) (.operand o') := by
  cases h with
  | empty =>
    obtain rfl := Except.ok.inj ho
    rw [List.nil_append, show [c] = [c].reverse from rfl]
    split
    · next hnum => exact .number ⟨c, [], rfl, hnum, List.forall_mem_singleton.2 hc⟩
    · next hnum => exact .name ⟨by simp, List.forall_mem_singleton.2 ⟨hc, hnum⟩⟩
  | @number text run =>
    obtain rfl := Except.ok.inj ho
    obtain ⟨d, t, htext, hnum, hall⟩ := run
    rw [← List.reverse_cons]
    refine .number ⟨d, t ++ [c], by rw [List.reverse_cons, htext]; rfl, hnum, ?_⟩
    rw [List.reverse_cons]
    exact List.forall_mem_append.2 ⟨hall, List.forall_mem_singleton.2 hc⟩
  | @name text name =>
    rw [Operand.push] at ho
    split at ho
    · cases ho
    · next hnum =>
      obtain rfl := Except.ok.inj ho
      rw [← List.reverse_cons]
      refine .name ⟨by simp, ?_⟩
      rw [List.reverse_cons]
      exact List.forall_mem_append.2 ⟨name.2, List.forall_mem_singleton.2 ⟨hc, hnum⟩⟩
  | _ => cases ho

/-! ## The step and the run -/

/-- What a step's outcome is to the reading before it: what the new reading completes, the old one
does with the character in front; `t` is the text with the character, `rest` the text behind it. -/
def Outcome.IsSound (chain : Option Chain) (t rest : List Char) : Outcome → Prop
  | .done n => Completes chain t n.expr
  | .more r => ∃ w, Collects w r.focus ∧ IsArithmetic r.chain
      ∧ ∀ e, Completes r.chain (w ++ rest) e → Completes chain t e

/-- **An operator** behind an operand is a sound step. -/
theorem isSound_of_pushOperator {limit : Nat} {sub : SubReading} (hsub : sub.IsSound)
    {chain : Option Chain} (hchain : IsArithmetic chain) {w rest : List Char} {value : Node}
    (hw : IsOperand true w value.expr) {op : Operator} (hop : op ≠ .apply) {outcome : Outcome}
    (h : pushOperator limit sub op rest chain value = .ok outcome) :
    outcome.IsSound chain (w ++ op.symbol :: Text.withoutBlanks rest)
      (Text.withoutBlanks rest) := by
  have hnew (left : Node) : IsArithmetic (some ⟨left, op⟩) := by
    rintro ch ⟨⟩
    exact hop
  cases chain with
  | none =>
    obtain rfl := Except.ok.inj h
    refine ⟨[], .empty, hnew value, ?_⟩
    rintro e ⟨x, items, htail, rfl⟩
    exact ⟨w, _, value.expr, (op, x) :: items, rfl, hw, htail, rfl⟩
  | some ch =>
    obtain ⟨left, previous⟩ := ch
    have hprevious : previous ≠ .apply := hchain _ rfl
    cases hnests : nestsRight previous op with
    | true =>
      rw [pushOperator_of_nests hnests] at h
      obtain ⟨nested, hnested, h⟩ := exists_of_bind_eq_ok h
      obtain ⟨node, hjoin, rfl⟩ := exists_of_map_eq_ok h
      obtain ⟨x, items, htail, hx⟩ := hsub.tail hop hnests hnested
      rw [Outcome.IsSound, Node.expr_of_join hjoin, hx]
      exact completes_of_nested hprevious hnests hw htail
    | false =>
      rw [pushOperator_of_not_nests hnests] at h
      obtain ⟨node, hjoin, rfl⟩ := exists_of_map_eq_ok h
      refine ⟨[], .empty, hnew node, fun e he => ?_⟩
      exact completes_of_joined hprevious hnests hw (Node.expr_of_join hjoin) he

/-- A step that collects its character is sound. -/
theorem Collects.isSound_more {chain : Option Chain} (hchain : IsArithmetic chain)
    {w rest : List Char} {focus : Focus} {c : Char} (h : Collects (w ++ [c]) focus) :
    (Outcome.more ⟨chain, focus⟩).IsSound chain (w ++ c :: rest) rest := by
  refine ⟨w ++ [c], h, hchain, fun e he => ?_⟩
  rwa [List.append_assoc] at he

/-- **A step outside all brackets is sound.** -/
theorem Collects.isSound_of_stepOutside {limit : Nat} {sub : SubReading} (hsub : sub.IsSound)
    {chain : Option Chain} (hchain : IsArithmetic chain) {w rest : List Char} {o : Operand}
    (hw : Collects w (.operand o)) {c : Char} (hc : Text.isBlank c = false) {i : Nat}
    {outcome : Outcome} (h : stepOutside limit sub i c rest chain o = .ok outcome) :
    outcome.IsSound chain (w ++ c :: Text.withoutBlanks rest) (Text.withoutBlanks rest) := by
  rw [stepOutside] at h
  split at h
  · next hopen =>
    subst hopen
    obtain ⟨focus, hfocus, heq⟩ := exists_of_bind_eq_ok h
    obtain rfl := Except.ok.inj heq
    exact (hw.open hfocus).isSound_more hchain
  · next hopen =>
    split at h
    · cases h
    · next hclose =>
      split at h
      · next hmark =>
        subst hmark
        obtain ⟨o', ho, heq⟩ := exists_of_bind_eq_ok h
        obtain rfl := Except.ok.inj heq
        exact (hw.mark ho).isSound_more hchain
      · next hmark =>
        split at h
        · next op hop =>
          obtain rfl := Operator.ofChar?_eq_some_iff.1 hop
          have harith : op ≠ .apply := by
            rintro rfl
            exact hmark rfl
          obtain ⟨value, hvalue, hpush⟩ := exists_of_bind_eq_ok h
          have hoperand := hw.isOperand (Operand.node?_of_close hvalue)
          exact isSound_of_pushOperator hsub hchain hoperand harith hpush
        · next hop =>
          obtain ⟨o', ho, heq⟩ := exists_of_bind_eq_ok h
          obtain rfl := Except.ok.inj heq
          have hordinary := isOrdinary_iff.2 ⟨hc, hopen, hclose, hop⟩
          exact (hw.push hordinary ho).isSound_more hchain

/-- **A step is sound.** -/
theorem Collects.isSound_of_step {limit : Nat} {sub : SubReading} (hsub : sub.IsSound)
    {chain : Option Chain} (hchain : IsArithmetic chain) {w rest : List Char} {focus : Focus}
    (hw : Collects w focus) {c : Char} (hc : Text.isBlank c = false) {i : Nat} {outcome : Outcome}
    (h : Reading.step limit sub i c rest ⟨chain, focus⟩ = .ok outcome) :
    outcome.IsSound chain (w ++ c :: Text.withoutBlanks rest) (Text.withoutBlanks rest) := by
  cases focus with
  | operand o => exact hw.isSound_of_stepOutside hsub hchain hc h
  | bracket callee inner content =>
    obtain ⟨focus, hfocus, heq⟩ := exists_of_bind_eq_ok h
    obtain rfl := Except.ok.inj heq
    exact (hw.step_inside hsub hc hfocus).isSound_more hchain

/-- **A run is sound**: the tree it ends in completes the text. -/
theorem Collects.completes {limit : Nat} {sub : SubReading} (hsub : sub.IsSound)
    {chain : Option Chain} (hchain : IsArithmetic chain) {w rest : List Char} {focus : Focus}
    (hw : Collects w focus) {i : Nat} {n : Node}
    (h : Reading.run limit sub ⟨chain, focus⟩ i rest = .ok n) :
    Completes chain (w ++ Text.withoutBlanks rest) n.expr := by
  induction rest generalizing chain focus w i with
  | nil =>
    rw [Text.withoutBlanks_nil, List.append_nil]
    cases focus with
    | operand o => exact hw.completes_end hchain h
    | bracket callee inner content => cases h
  | cons c rest ih =>
    by_cases hblank : Text.isBlank c = true
    · rw [Reading.run_blank hblank] at h
      rw [Text.withoutBlanks_cons_of_blank hblank]
      exact ih hchain hw h
    · have hc : Text.isBlank c = false := Bool.eq_false_iff.2 hblank
      rw [Reading.run_cons hc] at h
      rw [Text.withoutBlanks_cons_of_not_blank hc]
      cases hstep : Reading.step limit sub i c rest ⟨chain, focus⟩ with
      | error e =>
        rw [hstep] at h
        cases h
      | ok outcome =>
        rw [hstep] at h
        have hsound := hw.isSound_of_step hsub hchain hc hstep
        cases outcome with
        | done n' =>
          obtain rfl := Except.ok.inj h
          exact hsound
        | more r =>
          obtain ⟨w', hw', hchain', hback⟩ := hsound
          exact hback _ (ih hchain' hw' h)

/-! ## Whole texts -/

/-- A reading after another one's operator is sound behind that operator. -/
theorem completes_of_start {limit : Nat} {sub : SubReading} (hsub : sub.IsSound) {left : Node}
    {op : Operator} (hop : op ≠ .apply) {i : Nat} {t : List Char} {n : Node}
    (h : (Reading.start (some ⟨left, op⟩)).run limit sub i t = .ok n) :
    Completes (some ⟨left, op⟩) (Text.withoutBlanks t) n.expr := by
  refine Collects.completes hsub ?_ .empty h
  rintro ch ⟨⟩
  exact hop

/-- **Reading within any room is sound.** -/
theorem isSound_readWithin (limit room : Nat) : (readWithin limit room).IsSound := by
  -- Brackets' contents and nested rests are read with less room, so `room` carries the induction.
  induction room with
  | zero =>
    refine ⟨fun h => ?_, fun _ _ h => ?_⟩ <;> cases h
  | succ room ih =>
    constructor
    case body =>
      intro s n h
      rw [readWithin] at h
      rcases withLeadingZero_cases s with hs | ⟨sign, t, hsign, rfl, hs⟩
      · rw [hs] at h
        have hnone : IsArithmetic none := by
          rintro ch ⟨⟩
        obtain ⟨w, t, x, items, hw, hoperand, htail, hx⟩ := Collects.completes ih hnone .empty h
        rw [hx, show Text.withoutBlanks s = w ++ t from hw]
        exact .plain hoperand htail
      · rw [hs, Reading.run_leadingZero hsign] at h
        obtain ⟨x, items, htail, hx⟩ := completes_of_start ih (ne_apply_of_isAdditive hsign) h
        rw [hx, Text.withoutBlanks_cons_of_not_blank (isBlank_symbol sign)]
        exact .signed hsign htail
    case tail =>
      intro left previous op s n hop hnests h
      rw [readWithin] at h
      rcases withLeadingZero_cases s with hs | ⟨sign, t, hsign, rfl, hs⟩
      · rw [hs] at h
        obtain ⟨x, items, htail, hx⟩ := completes_of_start ih hop h
        exact ⟨x, items, htail.weaken _, hx⟩
      · rw [hs, Reading.run_leadingZero hsign] at h
        -- A sign right behind the operator: the `0` in front of it is the operator's operand.
        have hno : nestsRight op sign = false := nestsRight_eq_false_of_isAdditive hsign
        rw [pushOperator_of_not_nests hno] at h
        cases hjoin : Node.join limit op left (.leaf (.literal 0)) with
        | error e =>
          rw [hjoin] at h
          cases h
        | ok node =>
          rw [hjoin] at h
          obtain ⟨x, items, htail, hx⟩ := completes_of_start ih (ne_apply_of_isAdditive hsign) h
          refine ⟨.literal 0, (sign, x) :: items, ?_, ?_⟩
          · rw [Text.withoutBlanks_cons_of_not_blank (isBlank_symbol sign)]
            exact .gap rfl hop hnests hsign (htail.weaken _)
          · rw [hx, assemble_of_not_nests hno, Node.expr_of_join hjoin]
            rfl

/-- **A text that is read is a formula**, less its blanks. -/
theorem isBody_of_parseChars {limit : Nat} {s : List Char} {e : Expr}
    (h : parseChars limit s = .ok e) : IsBody true (Text.withoutBlanks s) e := by
  obtain ⟨n, hn, rfl⟩ := exists_of_map_eq_ok h
  exact (isSound_readWithin limit (limit + 1)).body hn

end FormulaPlot
