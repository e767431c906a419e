import FormulaPlot.Proofs.Formula.Reading

/-!
# Proofs/Formula/Moves — what one character can do

A character is collected, or ends an operand, or closes a bracket, or is wrong where it stands.
Which of these it does, the limit and the way texts are read on their own have no part in:
`Reading.move` decides on a `Move`, and `Move.perform` carries it out.

* `Reading.step_eq_perform` — a step decides and carries out;
* `Reading.allows_move` — what each move tells of the reading that makes it;
* `Reading.run_induction` — what every step keeps, the whole run keeps.
-/

namespace FormulaPlot

/-! ## Moves -/

/-- What a character does to a reading. -/
inductive Move where
  /-- It is wrong where it stands. -/
  | fault (e : ParseError)
  /-- It goes to the operand or the bracket that it stands in. -/
  | collect (focus : Focus)
  /-- It ends the first operand of a chain. -/
  | begin (value : Node) (op : Operator)
  /-- It closes a bracket, perhaps a function's, whose content is read on its own. -/
  | close (callee : Option String) (content : List Char)
  /-- It ends an operand that joins the chain. -/
  | extend (chain : Chain) (value : Node) (op : Operator)
  /-- It ends an operand and nests to the right, so `rest` is read on its own. -/
  | nest (chain : Chain) (value : Node) (op : Operator) (rest : List Char)

/-- The tree of a bracket, perhaps a function's, whose content has the tree `n`. -/
def wrapCall (limit : Nat) (callee : Option String) (n : Node) : Except ParseError Node :=
  match callee with
  | none => .ok n
  | some name => Node.join limit .apply (.leaf (.identifier name)) n

/-- What a move comes to in a reading with the chain `chain`. -/
def Move.perform (limit : Nat) (sub : SubReading) (chain : Option Chain) :
    Move → Except ParseError Outcome
  | fault e => .error e
  | collect focus => .ok (.more ⟨chain, focus⟩)
  | begin value op => .ok (.more (.start (some ⟨value, op⟩)))
  | close callee content =>
    (sub none content).bind fun n =>
      (wrapCall limit callee n).map fun n => .more ⟨chain, .operand (.finished n)⟩
  | extend ch value op =>
    (Node.join limit ch.operator ch.left value).map fun n => .more (.start (some ⟨n, op⟩))
  | nest ch value op rest =>
    (sub (some ⟨value, op⟩) rest).bind fun n =>
      (Node.join limit ch.operator ch.left n).map .done

/-- The move that collects what an operand or a bracket becomes, or the fault in it. -/
def Move.ofFocus : Except ParseError Focus → Move
  | .error e => fault e
  | .ok focus => collect focus

/-- The move of an operator `op` behind the operand `value`, with `rest` behind it. -/
def Move.ofOperator (chain : Option Chain) (value : Node) (op : Operator) (rest : List Char) :
    Move :=
  match chain with
  | none => begin value op
  | some ch => if nestsRight ch.operator op then nest ch value op rest else extend ch value op

/-- The move of a character `c` at `i` inside a bracket. -/
def Move.inside (i : Nat) (c : Char) (callee : Option String) (inner : Nat)
    (content : List Char) : Move :=
  if c = ')' then
    match inner with
    | 0 =>
      if callee = none ∧ content = [] then fault ⟨.emptyBrackets, some i⟩
      else close callee content.reverse
    | inner + 1 => collect (.bracket callee inner (c :: content))
  else if c = '(' then collect (.bracket callee (inner + 1) (c :: content))
  else collect (.bracket callee inner (c :: content))

/-- The move of a character `c` at `i` outside all brackets, with `rest` behind it. -/
def Move.outside (i : Nat) (c : Char) (rest : List Char) (chain : Option Chain) (o : Operand) :
    Move :=
  if c = '(' then ofFocus (o.openBracket i)
  else if c = ')' then fault ⟨.unmatchedClose, some i⟩
  else if c = callMark then ofFocus ((o.markCall i).map .operand)
  else
    match Operator.ofChar? c with
    | some op =>
      match o.close i with
      | .error e => fault e
      | .ok value => ofOperator chain value op rest
    | none => ofFocus ((o.push i c).map .operand)

/-- What the character `c` at `i`, with `rest` behind it, does to a reading. -/
def Reading.move (r : Reading) (i : Nat) (c : Char) (rest : List Char) : Move :=
  match r.focus with
  | .operand o => .outside i c rest r.chain o
  | .bracket callee inner content => .inside i c callee inner content

/-! ## A step decides and carries out -/

section Perform

variable {limit : Nat} {sub : SubReading} {chain : Option Chain}

theorem Move.perform_ofFocus (x : Except ParseError Focus) :
    (ofFocus x).perform limit sub chain = x.map fun focus => .more ⟨chain, focus⟩ := by
  cases x <;> rfl

theorem Move.perform_ofOperator (value : Node) (op : Operator) (rest : List Char) :
    (ofOperator chain value op rest).perform limit sub chain
      = pushOperator limit sub op rest chain value := by
  cases chain with
  | none => rfl
  | some ch =>
    cases hnests : nestsRight ch.operator op with
    | true => rw [ofOperator, if_pos hnests, pushOperator_of_nests hnests]; rfl
    | false =>
      rw [ofOperator, hnests, if_neg Bool.false_ne_true, pushOperator_of_not_nests hnests]; rfl

/-- Closing a bracket reads its content and calls its function, unless there is nothing at all. -/
theorem closeBracket_eq (i : Nat) {callee : Option String} {content : List Char}
    (h : ¬ (callee = none ∧ content = [])) :
    closeBracket limit sub i callee content
      = (sub none content).bind (wrapCall limit callee) := by
  cases callee with
  | none =>
    rw [closeBracket, if_neg fun hc => h ⟨rfl, hc⟩]
    cases sub none content <;> rfl
  | some name => rfl

theorem Move.perform_inside (i : Nat) (c : Char) (callee : Option String) (inner : Nat)
    (content : List Char) :
    (inside i c callee inner content).perform limit sub chain
      = (stepInside limit sub i c callee inner content).map fun focus => .more ⟨chain, focus⟩ := by
  unfold inside stepInside
  split
  · cases inner with
    | zero =>
      by_cases hempty : callee = none ∧ content = []
      · obtain ⟨rfl, rfl⟩ := hempty
        rfl
      · have hreverse : ¬ (callee = none ∧ content.reverse = []) := by
          rwa [List.reverse_eq_nil_iff]
        simp only [if_neg hempty, closeBracket_eq i hreverse, perform]
        cases sub none content.reverse with
        | error e => rfl
        | ok n =>
          simp only [Except.bind]
          cases wrapCall limit callee n <;> rfl
    | succ inner => rfl
  · split <;> rfl

/-- **A step decides on a move and carries it out.** -/
theorem Reading.step_eq_perform (r : Reading) (i : Nat) (c : Char) (rest : List Char) :
    r.step limit sub i c rest = (r.move i c rest).perform limit sub r.chain := by
  obtain ⟨chain, focus⟩ := r
  cases focus with
  | bracket callee inner content =>
    rw [move, Move.perform_inside]
    simp only [step]
    cases stepInside limit sub i c callee inner content <;> rfl
  | operand o =>
    simp only [step, move, stepOutside, Move.outside]
    split
    · rw [Move.perform_ofFocus]
      cases o.openBracket i <;> rfl
    · split
      · rfl
      · split
        · rw [Move.perform_ofFocus]
          cases o.markCall i <;> rfl
        · cases Operator.ofChar? c with
          | none =>
            simp only [Move.perform_ofFocus]
            cases o.push i c <;> rfl
          | some op =>
            cases o.close i with
            | error e => rfl
            | ok value => exact (Move.perform_ofOperator value op rest).symm

end Perform

/-! ## What a reading holds -/

/-- The tree that the focus holds. -/
def Focus.tree? : Focus → Option Node
  | .operand (.finished n) => some n
  | _ => none

/-- The trees that a reading holds: on the left of its chain, and as an operand. -/
def Reading.trees (r : Reading) : List Node :=
  (r.chain.map Chain.left).toList ++ r.focus.tree?.toList

/-- How many characters the focus stands for at least: a bracket for itself and its content, and an
operand, whatever it is, for one. -/
def Focus.size : Focus → Nat
  | .operand .empty => 0
  | .operand _ => 1
  | .bracket _ _ content => content.length + 1

/-- The tree of a collected operand is the one that the focus holds, or a leaf. -/
theorem Operand.tree?_or_leaf {o : Operand} {n : Node} (h : o.node? = some n) :
    (Focus.operand o).tree? = some n ∨ ∃ e : Expr, e.depth = 1 ∧ n = .leaf e := by
  cases o with
  | empty => cases h
  | number text =>
    obtain ⟨v, -, rfl⟩ := Option.map_eq_some_iff.1 h
    exact .inr ⟨.literal v, rfl, rfl⟩
  | name text => exact .inr ⟨_, rfl, (Option.some.inj h).symm⟩
  | finished n => exact .inl h
  | callee f => cases h

theorem Operand.size_of_node? {o : Operand} {n : Node} (h : o.node? = some n) :
    (Focus.operand o).size = 1 := by
  cases o with
  | empty => cases h
  | _ => rfl

theorem Reading.forall_trees {r : Reading} {p : Node → Prop} :
    (∀ n ∈ r.trees, p n) ↔ (∀ ch ∈ r.chain, p ch.left) ∧ ∀ n ∈ r.focus.tree?, p n := by
  simp [trees, or_imp, forall_and]

@[simp] theorem Reading.trees_start (value : Node) (op : Operator) :
    (start (some ⟨value, op⟩)).trees = [value] := rfl

/-- What holds of all trees that a reading holds, and of leaves, holds of its operand. -/
theorem Reading.of_node? {r : Reading} {p : Node → Prop} (h : ∀ n ∈ r.trees, p n)
    (leaf : ∀ e : Expr, e.depth = 1 → p (.leaf e)) {o : Operand} {n : Node}
    (focus : r.focus = .operand o) (hn : o.node? = some n) : p n := by
  rcases Operand.tree?_or_leaf hn with hheld | ⟨e, he, rfl⟩
  · exact (forall_trees.1 h).2 n (focus ▸ hheld)
  · exact leaf e he

/-! ## Which reading makes which move -/

/-- A fault that is not one of depth. -/
def ParseError.IsPlain (e : ParseError) : Prop := ∀ limit, e.kind ≠ .tooDeep limit

/-- The moves that a reading can make, with `rest` behind the character. -/
inductive Reading.Allows (r : Reading) (rest : List Char) : Move → Prop
  | fault {e : ParseError} (plain : e.IsPlain) : r.Allows rest (.fault e)
  | collect {focus : Focus} (bare : r.focus.tree? = none) (bare' : focus.tree? = none)
      (size : focus.size ≤ r.focus.size + 1) : r.Allows rest (.collect focus)
  | begin {o : Operand} {value : Node} {op : Operator} (chain : r.chain = none)
      (focus : r.focus = .operand o) (node : o.node? = some value) (arithmetic : op ≠ .apply) :
      r.Allows rest (.begin value op)
  | close {callee : Option String} {content : List Char}
      (focus : r.focus = .bracket callee 0 content) :
      r.Allows rest (.close callee content.reverse)
  | extend {ch : Chain} {o : Operand} {value : Node} {op : Operator} (chain : r.chain = some ch)
      (focus : r.focus = .operand o) (node : o.node? = some value) (arithmetic : op ≠ .apply)
      (level : nestsRight ch.operator op = false) : r.Allows rest (.extend ch value op)
  | nest {ch : Chain} {o : Operand} {value : Node} {op : Operator} (chain : r.chain = some ch)
      (focus : r.focus = .operand o) (node : o.node? = some value) (arithmetic : op ≠ .apply)
      (nests : nestsRight ch.operator op = true) : r.Allows rest (.nest ch value op rest)

namespace Reading

variable {r : Reading} {rest : List Char}

theorem allows_inside {chain : Option Chain} (i : Nat) (c : Char) (callee : Option String)
    (inner : Nat) (content : List Char) :
    Allows ⟨chain, .bracket callee inner content⟩ rest (.inside i c callee inner content) := by
  have hmore (inner' : Nat) : Allows ⟨chain, .bracket callee inner content⟩ rest
      (.collect (.bracket callee inner' (c :: content))) := .collect rfl rfl (Nat.le_refl _)
  unfold Move.inside
  split
  · cases inner with
    | zero =>
      dsimp only
      split
      · exact .fault (by rintro _ ⟨⟩)
      · exact .close rfl
    | succ inner => exact hmore inner
  · split
    · exact hmore _
    · exact hmore _

section Outside

variable {chain : Option Chain}

theorem allows_openBracket (i : Nat) (o : Operand) :
    Allows ⟨chain, .operand o⟩ rest (.ofFocus (o.openBracket i)) := by
  cases o with
  | empty => exact .collect rfl rfl (Nat.le_refl _)
  | callee f => exact .collect rfl rfl (Nat.le_succ _)
  | _ => exact .fault (by rintro _ ⟨⟩)

theorem allows_markCall (i : Nat) (o : Operand) :
    Allows ⟨chain, .operand o⟩ rest (.ofFocus ((o.markCall i).map .operand)) := by
  cases o with
  | name text => exact .collect rfl rfl (Nat.le_succ _)
  | _ => exact .fault (by rintro _ ⟨⟩)

theorem allows_push (i : Nat) (c : Char) (o : Operand) :
    Allows ⟨chain, .operand o⟩ rest (.ofFocus ((o.push i c).map .operand)) := by
  cases o with
  | empty =>
    rw [Operand.push]
    split <;> exact .collect rfl rfl (Nat.le_refl _)
  | number text => exact .collect rfl rfl (Nat.le_succ _)
  | name text =>
    rw [Operand.push]
    split
    · exact .fault (by rintro _ ⟨⟩)
    · exact .collect rfl rfl (Nat.le_succ _)
  | _ => exact .fault (by rintro _ ⟨⟩)

theorem isPlain_of_close {o : Operand} {i : Nat} {e : ParseError} (h : o.close i = .error e) :
    e.IsPlain := by
  rcases Operand.cases_of_close_error h with ⟨f, -, rfl⟩ | ⟨-, -, rfl⟩ <;> rintro _ ⟨⟩

theorem allows_ofOperator {o : Operand} {value : Node} (ho : o.node? = some value) {op : Operator}
    (hop : op ≠ .apply) :
    Allows ⟨chain, .operand o⟩ rest (.ofOperator chain value op rest) := by
  cases chain with
  | none => exact .begin rfl rfl ho hop
  | some ch =>
    rw [Move.ofOperator]
    split
    · next hnests => exact .nest rfl rfl ho hop hnests
    · next hnests => exact .extend rfl rfl ho hop (Bool.eq_false_iff.2 hnests)

theorem allows_outside (i : Nat) (c : Char) (o : Operand) :
    Allows ⟨chain, .operand o⟩ rest (.outside i c rest chain o) := by
  unfold Move.outside
  split
  · exact allows_openBracket i o
  · split
    · exact .fault (by rintro _ ⟨⟩)
    · split
      · exact allows_markCall i o
      · next hmark =>
        cases hop : Operator.ofChar? c with
        | none => exact allows_push i c o
        | some op =>
          obtain rfl := Operator.ofChar?_eq_some_iff.1 hop
          cases hclose : o.close i with
          | error e => exact .fault (isPlain_of_close hclose)
          | ok value =>
            refine allows_ofOperator (Operand.node?_of_close hclose) ?_
            rintro rfl
            exact hmark rfl

end Outside

/-- **Every move is allowed** to the reading that makes it. -/
theorem allows_move (r : Reading) (i : Nat) (c : Char) (rest : List Char) :
    r.Allows rest (r.move i c rest) := by
  obtain ⟨chain, focus⟩ := r
  cases focus with
  | operand o => exact allows_outside i c o
  | bracket callee inner content => exact allows_inside i c callee inner content

/-! ## The end of the text -/

/-- **The end** is a plain fault, or the tree of the only operand, or the chain joined with an
operand or with the `0` in its place. -/
theorem finish_cases (r : Reading) :
    (∃ e : ParseError, e.IsPlain ∧ ∀ limit, r.finish limit = .error e)
      ∨ (∃ o n, r.chain = none ∧ r.focus = .operand o ∧ o.node? = some n
        ∧ ∀ limit, r.finish limit = .ok n)
      ∨ ∃ ch o right, r.chain = some ch ∧ r.focus = .operand o
        ∧ (o.node? = some right ∨ o.node? = none ∧ right = .leaf (.literal 0))
        ∧ ∀ limit, r.finish limit = Node.join limit ch.operator ch.left right := by
  obtain ⟨chain, focus⟩ := r
  cases focus with
  | bracket callee inner content =>
    exact .inl ⟨⟨.unmatchedOpen, none⟩, (by rintro _ ⟨⟩), fun _ => rfl⟩
  | operand o =>
    cases ho : o.node? with
    | some n =>
      cases chain with
      | none => exact .inr (.inl ⟨o, n, rfl, rfl, ho, fun _ => finish_of_node? ho⟩)
      | some ch =>
        exact .inr (.inr ⟨ch, o, n, rfl, rfl, .inl ho, fun _ => finish_of_node? ho⟩)
    | none =>
      by_cases hcallee : ∃ f, o = .callee f
      · obtain ⟨f, rfl⟩ := hcallee
        exact .inl ⟨⟨.argumentExpected, none⟩, (by rintro _ ⟨⟩), fun _ => rfl⟩
      · have hmissing := not_exists.1 hcallee
        cases chain with
        | none =>
          exact .inl ⟨⟨.emptyInput, none⟩, (by rintro _ ⟨⟩),
            fun _ => finish_of_missing ho hmissing⟩
        | some ch =>
          exact .inr (.inr ⟨ch, o, _, rfl, rfl, .inr ⟨ho, rfl⟩,
            fun _ => finish_of_missing ho hmissing⟩)

/-! ## Runs -/

section Run

variable {limit : Nat} {sub : SubReading}

/-- A run makes the move of its first character and goes on from there. -/
theorem run_move {c : Char} (h : Text.isBlank c = false) (r : Reading) (i : Nat)
    (rest : List Char) :
    r.run limit sub i (c :: rest)
      = follow limit sub (i + c.utf8Size) rest ((r.move i c rest).perform limit sub r.chain) := by
  rw [run_cons h, step_eq_perform]

/-- **What every step keeps, the whole run keeps**: `P` relates a reading to the text that is left,
`Q` says what is wanted of the run. -/
theorem run_induction (P : Reading → List Char → Prop) (Q : Except ParseError Node → Prop)
    (finish : ∀ r, P r [] → Q (r.finish limit))
    (blank : ∀ r c rest, P r (c :: rest) → P r rest)
    (step : ∀ r c rest move, P r (c :: rest) → r.Allows rest move →
      match move.perform limit sub r.chain with
      | .error e => Q (.error e)
      | .ok (.done n) => Q (.ok n)
      | .ok (.more r') => P r' rest)
    {r : Reading} {i : Nat} {rest : List Char} (h : P r rest) : Q (r.run limit sub i rest) := by
  induction rest generalizing r i with
  | nil => exact finish r h
  | cons c rest ih =>
    by_cases hblank : Text.isBlank c = true
    · rw [run_blank hblank]
      exact ih (blank r c rest h)
    · rw [run_move (Bool.eq_false_iff.2 hblank)]
      have hstep := step r c rest _ h (r.allows_move i c rest)
      cases hmove : (r.move i c rest).perform limit sub r.chain with
      | error e =>
        rw [hmove] at hstep
        exact hstep
      | ok outcome =>
        rw [hmove] at hstep
        cases outcome with
        | done n => exact hstep
        | more r' => exact ih hstep

end Run

end Reading

/-! ## Trees -/

/-- The trees that an outcome holds. -/
def Outcome.trees : Outcome → List Node
  | done n => [n]
  | more r => r.trees

/-- A way to read a text on its own that makes trees with `p` behind trees with `p`. -/
def SubReading.Keeps (p : Node → Prop) (sub : SubReading) : Prop :=
  ∀ chain t n, (∀ ch ∈ chain, p ch.left) → sub chain t = .ok n → p n

section Trees

variable {limit : Nat} {sub : SubReading} {p : Node → Prop}
  (leaf : ∀ e : Expr, e.depth = 1 → p (.leaf e))
  (join : ∀ op left right n, p left → p right → Node.join limit op left right = .ok n → p n)
include leaf join

theorem of_wrapCall {callee : Option String} {n n' : Node} (hn : p n)
    (h : wrapCall limit callee n = .ok n') : p n' := by
  cases callee with
  | none => exact Except.ok.inj h ▸ hn
  | some name => exact join _ _ _ _ (leaf _ rfl) hn h

/-- **A move keeps what leaves have and joining keeps**, if reading a text on its own does. -/
theorem Reading.Allows.forall_trees (hsub : sub.Keeps p) {r : Reading} {rest : List Char}
    {move : Move} (hmove : r.Allows rest move) (hr : ∀ n ∈ r.trees, p n) {outcome : Outcome}
    (h : move.perform limit sub r.chain = .ok outcome) : ∀ n ∈ outcome.trees, p n := by
  have hchain := (Reading.forall_trees.1 hr).1
  cases hmove with
  | fault => cases h
  | collect bare bare' size =>
    cases h
    exact Reading.forall_trees.2 ⟨hchain, by simp [bare']⟩
  | begin chain focus node =>
    cases h
    exact List.forall_mem_singleton.2 (Reading.of_node? hr leaf focus node)
  | close =>
    obtain ⟨n, hn, h⟩ := exists_of_bind_eq_ok h
    obtain ⟨n', hwrap, rfl⟩ := exists_of_map_eq_ok h
    have hn' : p n' := of_wrapCall leaf join (hsub _ _ _ (by rintro ch ⟨⟩) hn) hwrap
    exact Reading.forall_trees.2 ⟨hchain, fun m hm => Option.some.inj hm ▸ hn'⟩
  | extend chain focus node =>
    obtain ⟨n, hjoin, rfl⟩ := exists_of_map_eq_ok h
    have hvalue := Reading.of_node? hr leaf focus node
    exact List.forall_mem_singleton.2 (join _ _ _ _ (hchain _ chain) hvalue hjoin)
  | nest chain focus node =>
    obtain ⟨n, hn, h⟩ := exists_of_bind_eq_ok h
    obtain ⟨n', hjoin, rfl⟩ := exists_of_map_eq_ok h
    have hvalue := Reading.of_node? hr leaf focus node
    have hnested : p n := hsub _ _ _ (fun ch hch => Option.some.inj hch ▸ hvalue) hn
    exact List.forall_mem_singleton.2 (join _ _ _ _ (hchain _ chain) hnested hjoin)

/-- **A reading within any room keeps** what leaves have and joining keeps. -/
theorem keeps_readWithin (room : Nat) : (readWithin limit room).Keeps p := by
  induction room with
  | zero => rintro chain t n - ⟨⟩
  | succ room ih =>
    intro chain t n hchain h
    refine Reading.run_induction (fun r _ => ∀ m ∈ r.trees, p m)
      (fun x => ∀ m, x = .ok m → p m) ?finish (fun _ _ _ hr => hr) ?step ?start n h
    case finish =>
      intro r hr m hm
      rcases r.finish_cases with ⟨e, -, he⟩ | ⟨o, k, -, focus, node, hk⟩ |
        ⟨ch, o, right, chain, focus, node, hjoin⟩
      · rw [he] at hm
        cases hm
      · rw [hk] at hm
        exact Except.ok.inj hm ▸ Reading.of_node? hr leaf focus node
      · have hright : p right := by
          rcases node with node | ⟨-, rfl⟩
          · exact Reading.of_node? hr leaf focus node
          · exact leaf _ rfl
        exact join _ _ _ _ ((Reading.forall_trees.1 hr).1 ch chain) hright (hjoin limit ▸ hm)
    case step =>
      intro r c rest move hr hmove
      cases hperform : move.perform limit (readWithin limit room) r.chain with
      | error e => rintro m ⟨⟩
      | ok outcome =>
        have htrees := hmove.forall_trees leaf join ih hr hperform
        cases outcome with
        | done n => exact fun m hm => Except.ok.inj hm ▸ htrees n List.mem_cons_self
        | more r' => exact htrees
    case start => exact Reading.forall_trees.2 ⟨hchain, by simp [Reading.start, Focus.tree?]⟩

end Trees

end FormulaPlot
