import FormulaPlot.Proofs.Formula.Positions

/-!
# Proofs/Formula/Registers — a reading in registers of its own

`Registers` keep what a `Reading` keeps, each thing in a register that is set apart from the others:
the chain, the pending operand, the content of a bracket, how many brackets are open, and the name
of a function that waits for its argument.  So there are registers that no reading has, with a
number pending inside a bracket, say, or fewer than no brackets open.  They do as the readings do:

* `Reading.step_registers` — a character does the same to the registers of a reading;
* `readRegisters_eq` — so the same trees and faults come of every text.

None of the other registers is ever reached, in no text that is read on its own in another:

* `Reached.exists_reading` — registers that are reached are those of a reading;
* `registers_reached` — so they fit together (`Registers.IsSound`), and what they ask for is a
  balanced content, or what is behind a multiplicative operator.
-/

namespace FormulaPlot

/-! ## Registers -/

/-- The operand that is pending; texts are in the order in which they are read. -/
inductive Pending where
  | none
  | number (text : List Char)
  | name (text : List Char)
  | group (node : Node)
  deriving Repr, DecidableEq

/-- The tree of a pending operand. -/
def Pending.node? : Pending → Option Node
  | none => .none
  | number text => (Number.readFront? text).map fun v => .leaf (.literal v)
  | name text => some (.leaf (.identifier (String.ofList text)))
  | group node => some node

/-- What is kept between two characters. -/
structure Registers where
  chain : Option Chain := none
  pending : Pending := .none
  /-- The content of the bracket that is open. -/
  content : List Char := []
  /-- How many brackets are open. -/
  depth : Int := 0
  /-- The function that waits for its argument. -/
  callee : Option String := none
  deriving Repr, DecidableEq

/-- What a character does to registers. -/
inductive Transition where
  | fault (e : ParseError)
  | next (s : Registers)
  /-- It asks for the tree of a text that is read on its own, from a chain or without, and goes on
  with that tree to other registers or to the tree of the whole text. -/
  | ask (chain : Option Chain) (text : List Char)
    (resume : Node → Except ParseError (Registers ⊕ Node))

/-- What a transition leads to, if texts are read on their own by `sub`. -/
def Transition.perform (sub : SubReading) : Transition → Except ParseError (Registers ⊕ Node)
  | fault e => .error e
  | next s => .ok (.inl s)
  | ask chain text resume => (sub chain text).bind resume

namespace Registers

/-- An opening bracket at `i`, outside all brackets. -/
def openBracket (i : Nat) (s : Registers) : Transition :=
  if s.pending = .none then .next { s with depth := 1 } else .fault ⟨.operatorExpected, some i⟩

/-- The bracket that closes at `i` is the outermost one: its content is taken out and read. -/
def closeBracket (limit : Nat) (i : Nat) (s : Registers) : Transition :=
  let group (n : Node) : Registers :=
    { s with content := [], callee := none, pending := .group n }
  match s.callee with
  | some name =>
    .ask none s.content fun n =>
      (Node.join limit .apply (.leaf (.identifier name)) n).map fun n => .inl (group n)
  | none =>
    if s.content = [] then .fault ⟨.emptyBrackets, some i⟩
    else .ask none s.content fun n => .ok (.inl (group n))

/-- A character at `i` inside a bracket. -/
def inBracket (limit : Nat) (i : Nat) (c : Char) (s : Registers) : Transition :=
  let depth := if c = '(' then s.depth + 1 else if c = ')' then s.depth - 1 else s.depth
  if c = ')' ∧ depth = 0 then closeBracket limit i { s with depth := depth }
  else .next { s with depth := depth, content := s.content ++ [c] }

/-- The call mark at `i`. -/
def markCall (i : Nat) (s : Registers) : Transition :=
  match s.pending, s.callee with
  | .name text, none => .next { s with pending := .none, callee := some (String.ofList text) }
  | _, _ => .fault ⟨.functionExpected, some i⟩

/-- An ordinary character at `i`. -/
def pushChar (i : Nat) (c : Char) (s : Registers) : Transition :=
  if s.callee ≠ none then .fault ⟨.argumentExpected, some i⟩
  else
    match s.pending, isNumeral c with
    | .none, true => .next { s with pending := .number [c] }
    | .none, false => .next { s with pending := .name [c] }
    | .number text, _ => .next { s with pending := .number (text ++ [c]) }
    | .name text, false => .next { s with pending := .name (text ++ [c]) }
    | _, _ => .fault ⟨.operatorExpected, some i⟩

/-- An operator at `i`, with `rest` behind it. -/
def pushOperator (limit : Nat) (i : Nat) (op : Operator) (rest : List Char) (s : Registers) :
    Transition :=
  if s.callee ≠ none then .fault ⟨.argumentExpected, some i⟩
  else
    match s.pending.node?, s.chain with
    | none, _ => .fault ⟨.operandExpected, some i⟩
    | some value, none => .next { s with pending := .none, chain := some ⟨value, op⟩ }
    | some value, some ⟨left, previous⟩ =>
      if nestsRight previous op then
        .ask (some ⟨value, op⟩) rest fun n => (Node.join limit previous left n).map .inr
      else
        match Node.join limit previous left value with
        | .error e => .fault e
        | .ok n => .next { s with pending := .none, chain := some ⟨n, op⟩ }

/-- The character `c` at `i`, with `rest` behind it. -/
def step (limit : Nat) (i : Nat) (c : Char) (rest : List Char) (s : Registers) : Transition :=
  if 0 < s.depth then s.inBracket limit i c
  else if c = '(' then s.openBracket i
  else if c = ')' then .fault ⟨.unmatchedClose, some i⟩
  else if c = callMark then s.markCall i
  else
    match Operator.ofChar? c with
    | some op => s.pushOperator limit i op rest
    | none => s.pushChar i c

/-- The tree at the end of the text. -/
def finish (limit : Nat) (s : Registers) : Except ParseError Node :=
  if 0 < s.depth then .error ⟨.unmatchedOpen, none⟩
  else if s.callee ≠ none then .error ⟨.argumentExpected, none⟩
  else
    match s.chain, s.pending.node? with
    | none, some node => .ok node
    | none, none => .error ⟨.emptyInput, none⟩
    | some ⟨left, op⟩, right? => Node.join limit op left (right?.getD (.leaf (.literal 0)))

/-- The tree that the rest of a text leads to; the rest starts at byte `i`. -/
def run (limit : Nat) (sub : SubReading) (s : Registers) (i : Nat) :
    List Char → Except ParseError Node
  | [] => s.finish limit
  | c :: rest =>
    if Text.isBlank c then run limit sub s (i + c.utf8Size) rest
    else
      match (s.step limit i c rest).perform sub with
      | .error e => .error e
      | .ok (.inr node) => .ok node
      | .ok (.inl s) => run limit sub s (i + c.utf8Size) rest

end Registers

/-- The tree of a text read on its own, at most `room` such readings inside one another. -/
def readRegisters (limit : Nat) : Nat → SubReading
  | 0, _, _ => .error ⟨.tooDeep limit, none⟩
  | room + 1, chain, text =>
    Registers.run limit (readRegisters limit room) { chain := chain } 0 (withLeadingZero text)

/-! ## The registers of a reading -/

/-- What is pending of an operand; a function waits in a register of its own. -/
def Operand.register : Operand → Pending
  | empty => .none
  | number text => .number text.reverse
  | name text => .name text.reverse
  | finished n => .group n
  | callee _ => .none

/-- The function that an operand is, if it is one. -/
def Operand.callee? : Operand → Option String
  | callee f => some f
  | _ => none

/-- The registers that hold what a reading holds. -/
def Reading.registers (r : Reading) : Registers :=
  match r.focus with
  | .operand o => { chain := r.chain, pending := o.register, callee := o.callee? }
  | .bracket callee inner content =>
    { chain := r.chain, content := content.reverse, depth := inner + 1, callee := callee }

/-- The bracket itself is open. -/
theorem Reading.depth_bracket_pos {chain : Option Chain} {callee : Option String} {inner : Nat}
    {content : List Char} : 0 < (registers ⟨chain, .bracket callee inner content⟩).depth := by
  show (0 : Int) < inner + 1
  omega

/-- The registers that an outcome leads to, or the tree. -/
def Outcome.registers : Outcome → Registers ⊕ Node
  | more r => .inl r.registers
  | done n => .inr n

/-- What a move is for registers with the chain `chain`. -/
def Move.transition (limit : Nat) (chain : Option Chain) : Move → Transition
  | fault e => .fault e
  | collect focus => .next (Reading.registers ⟨chain, focus⟩)
  | begin value op => .next { chain := some ⟨value, op⟩ }
  | close callee content =>
    .ask none content fun n =>
      (wrapCall limit callee n).map fun n => .inl { chain := chain, pending := .group n }
  | extend ch value op =>
    match Node.join limit ch.operator ch.left value with
    | .error e => .fault e
    | .ok n => .next { chain := some ⟨n, op⟩ }
  | nest ch value op rest =>
    .ask (some ⟨value, op⟩) rest fun n => (Node.join limit ch.operator ch.left n).map .inr

section Simulation

variable {limit : Nat} {chain : Option Chain}

theorem Move.perform_transition (sub : SubReading) (move : Move) :
    (move.transition limit chain).perform sub
      = (move.perform limit sub chain).map Outcome.registers := by
  cases move with
  | fault e => rfl
  | collect focus => rfl
  | begin value op => rfl
  | close callee content =>
    rw [perform, transition, Transition.perform]
    cases sub none content with
    | error e => rfl
    | ok n =>
      simp only [Except.bind]
      cases wrapCall limit callee n <;> rfl
  | extend ch value op =>
    rw [perform, transition]
    cases Node.join limit ch.operator ch.left value <;> rfl
  | nest ch value op rest =>
    rw [perform, transition, Transition.perform]
    cases sub (some ⟨value, op⟩) rest with
    | error e => rfl
    | ok n =>
      simp only [Except.bind]
      cases Node.join limit ch.operator ch.left n <;> rfl

theorem Operand.node?_register {o : Operand} (h : o.callee? = none) :
    o.register.node? = o.node? := by
  cases o with
  | callee f => cases h
  | _ => rfl

variable (i : Nat) (c : Char) (rest : List Char) (o : Operand)

theorem openBracket_registers :
    (Reading.registers ⟨chain, .operand o⟩).openBracket i
      = (Move.ofFocus (o.openBracket i)).transition limit chain := by
  cases o <;> rfl

theorem markCall_registers :
    (Reading.registers ⟨chain, .operand o⟩).markCall i
      = (Move.ofFocus ((o.markCall i).map .operand)).transition limit chain := by
  cases o <;> rfl

theorem pushChar_registers :
    (Reading.registers ⟨chain, .operand o⟩).pushChar i c
      = (Move.ofFocus ((o.push i c).map .operand)).transition limit chain := by
  unfold Registers.pushChar
  cases o with
  | empty =>
    rw [Operand.push]
    cases isNumeral c <;> rfl
  | number text =>
    have hpush : Move.transition limit chain (.collect (.operand (.number (c :: text))))
        = .next { chain := chain, pending := .number (text.reverse ++ [c]) } := by
      rw [← List.reverse_cons]
      rfl
    exact hpush.symm
  | name text =>
    have hpush : Move.transition limit chain (.collect (.operand (.name (c :: text))))
        = .next { chain := chain, pending := .name (text.reverse ++ [c]) } := by
      rw [← List.reverse_cons]
      rfl
    rw [Operand.push]
    cases isNumeral c
    · exact hpush.symm
    · rfl
  | finished n => rfl
  | callee f => rfl

section Operator

variable {i o} (op : Operator)

theorem pushOperator_of_close_error {e : ParseError} (h : o.close i = .error e) :
    (Reading.registers ⟨chain, .operand o⟩).pushOperator limit i op rest = .fault e := by
  rcases Operand.cases_of_close_error h with ⟨f, rfl, rfl⟩ | ⟨hwaiting, hnode, rfl⟩
  · rfl
  · have hcallee : o.callee? = none := by
      cases o with
      | callee f => exact absurd rfl (hwaiting f)
      | _ => rfl
    simp only [Registers.pushOperator, Reading.registers, hcallee, hnode,
      Operand.node?_register hcallee, ne_eq, not_true_eq_false, if_false]

/-- An operator ends the pending operand as it ends the one that is collected. -/
theorem pushOperator_of_close_ok {value : Node} (h : o.close i = .ok value) :
    (Reading.registers ⟨chain, .operand o⟩).pushOperator limit i op rest
      = (Move.ofOperator chain value op rest).transition limit chain := by
  have hcallee : o.callee? = none := by
    cases o with
    | callee f => cases h
    | _ => rfl
  simp only [Registers.pushOperator, Reading.registers, hcallee, Operand.node?_of_close h,
    Operand.node?_register hcallee, ne_eq, not_true_eq_false, if_false]
  cases chain with
  | none => rfl
  | some ch =>
    dsimp only [Move.ofOperator]
    by_cases hnests : nestsRight ch.operator op = true
    · rw [if_pos hnests, if_pos hnests]
      rfl
    · rw [if_neg hnests, if_neg hnests]
      rfl

end Operator

theorem closeBracket_registers (callee : Option String) (content : List Char) :
    Registers.closeBracket limit i
        { chain := chain, content := content.reverse, depth := 0, callee := callee }
      = (if callee = none ∧ content = [] then Move.fault ⟨.emptyBrackets, some i⟩
        else .close callee content.reverse).transition limit chain := by
  unfold Registers.closeBracket
  cases callee with
  | some name => rfl
  | none =>
    by_cases hempty : content = []
    · subst hempty
      rfl
    · have hreverse : content.reverse ≠ [] := fun h => hempty (List.reverse_eq_nil_iff.1 h)
      rw [if_neg fun h => hempty h.2]
      exact if_neg hreverse

theorem inBracket_registers (callee : Option String) (inner : Nat) (content : List Char) :
    (Reading.registers ⟨chain, .bracket callee inner content⟩).inBracket limit i c
      = (Move.inside i c callee inner content).transition limit chain := by
  have hmore (inner' : Nat) :
      Move.transition limit chain (.collect (.bracket callee inner' (c :: content)))
        = .next ⟨chain, .none, content.reverse ++ [c], inner' + 1, callee⟩ := by
    rw [← List.reverse_cons]
    rfl
  unfold Registers.inBracket Move.inside
  by_cases hclose : c = ')'
  · subst hclose
    cases inner with
    | zero =>
      -- The outermost bracket: its depth, which is `0 + 1`, goes down to `0` by evaluation.
      exact closeBracket_registers i callee content
    | succ inner =>
      have hdepth : ((inner + 1 : Nat) : Int) + 1 - 1 = inner + 1 := by omega
      have hpositive : ¬ (inner : Int) + 1 = 0 := by omega
      simp only [Reading.registers, Char.reduceEq, if_false, if_true, hdepth, hpositive, and_false,
        hmore]
  · by_cases hopen : c = '('
    · subst hopen
      simp only [Reading.registers, Char.reduceEq, if_false, if_true, false_and, hmore]
      rfl
    · simp only [Reading.registers, hclose, hopen, if_false, false_and, hmore]

theorem step_operand :
    (Reading.registers ⟨chain, .operand o⟩).step limit i c rest
      = (Move.outside i c rest chain o).transition limit chain := by
  unfold Registers.step Move.outside
  have hdepth : ¬ 0 < (Reading.registers ⟨chain, .operand o⟩).depth := Int.lt_irrefl 0
  rw [if_neg hdepth]
  split
  · exact openBracket_registers i o
  · split
    · rfl
    · split
      · exact markCall_registers i o
      · cases Operator.ofChar? c with
        | none => exact pushChar_registers i c o
        | some op =>
          cases hclose : o.close i with
          | error e => exact pushOperator_of_close_error rest op hclose
          | ok value => exact pushOperator_of_close_ok rest op hclose

end Simulation

/-- **A character does the same to the registers** of a reading as to the reading. -/
theorem Reading.step_registers (limit : Nat) (r : Reading) (i : Nat) (c : Char)
    (rest : List Char) :
    r.registers.step limit i c rest = (r.move i c rest).transition limit r.chain := by
  obtain ⟨chain, focus⟩ := r
  cases focus with
  | operand o => exact step_operand i c rest o
  | bracket callee inner content =>
    rw [Registers.step, if_pos depth_bracket_pos]
    exact inBracket_registers i c callee inner content

theorem Reading.finish_registers (limit : Nat) (r : Reading) :
    r.registers.finish limit = r.finish limit := by
  obtain ⟨chain, focus⟩ := r
  cases focus with
  | bracket callee inner content =>
    rw [Registers.finish, if_pos depth_bracket_pos]
    rfl
  | operand o =>
    cases o <;> cases chain <;> rfl

theorem Reading.run_registers {limit : Nat} {sub : SubReading} (r : Reading) (i : Nat)
    (rest : List Char) : r.registers.run limit sub i rest = r.run limit sub i rest := by
  induction rest generalizing r i with
  | nil => exact r.finish_registers limit
  | cons c rest ih =>
    rw [Registers.run]
    by_cases hblank : Text.isBlank c = true
    · rw [if_pos hblank, run_blank hblank, ih]
    · rw [if_neg hblank, run_move (Bool.eq_false_iff.2 hblank), step_registers,
        Move.perform_transition]
      cases (r.move i c rest).perform limit sub r.chain with
      | error e => rfl
      | ok outcome =>
        cases outcome with
        | done n => rfl
        | more r' => exact ih r' _

/-- **The same trees and faults** come of every text. -/
theorem readRegisters_eq (limit room : Nat) : readRegisters limit room = readWithin limit room := by
  induction room with
  | zero => rfl
  | succ room ih =>
    funext chain t
    rw [readRegisters, readWithin, ih]
    exact (Reading.start chain).run_registers 0 (withLeadingZero t)

/-! ## The registers that are reached -/

/-- The registers that are reached while the text `t` is read under `limit`, in `t` or in a text
that is read on its own, with the part of that text that is read already, the rest of it, and the
`room` for texts that are read on their own inside it. -/
inductive Reached (limit : Nat) (t : String) :
    (room : Nat) → (before : List Char) → Registers → (rest : List Char) → Prop
  | start : Reached limit t limit [] {} (withLeadingZero t.toList)
  | sub {room : Nat} {before : List Char} {s : Registers} {c : Char} {rest : List Char}
      {chain : Option Chain} {u : List Char} {resume : Node → Except ParseError (Registers ⊕ Node)}
      (outer : Reached limit t (room + 1) before s (c :: rest)) (read : Text.isBlank c = false)
      (asks : s.step limit (Text.byteSize before) c rest = .ask chain u resume) :
      Reached limit t room [] { chain := chain } (withLeadingZero u)
  | blank {room : Nat} {before : List Char} {s : Registers} {c : Char} {rest : List Char}
      (here : Reached limit t room before s (c :: rest)) (blank : Text.isBlank c = true) :
      Reached limit t room (before ++ [c]) s rest
  | next {room : Nat} {before : List Char} {s s' : Registers} {c : Char} {rest : List Char}
      (here : Reached limit t room before s (c :: rest)) (read : Text.isBlank c = false)
      (leads : (s.step limit (Text.byteSize before) c rest).perform (readRegisters limit room)
        = .ok (.inl s')) :
      Reached limit t room (before ++ [c]) s' rest

/-- A tree with its own depth, which is at most `limit`, or one. -/
def Node.IsMeasured (limit : Nat) (n : Node) : Prop :=
  n.depth = n.expr.depth ∧ n.depth ≤ max 1 limit

/-- The trees that registers keep. -/
def Registers.nodes (s : Registers) : List Node :=
  (s.chain.map Chain.left).toList ++ match s.pending with
    | .group n => [n]
    | _ => []

/-- **Registers that fit together.** -/
structure Registers.IsSound (limit : Nat) (s : Registers) : Prop where
  nonneg : 0 ≤ s.depth
  content : s.depth = 0 → s.content = []
  pending : 0 < s.depth → s.pending = .none
  callee : s.callee ≠ none → s.pending = .none
  unspaced : ∀ c ∈ s.content, Text.isBlank c = false
  prefixes : ∀ p, p <+: s.content → p.count ')' ≤ p.count '('
  surplus : 0 < s.depth → (s.content.count '(' : Int) - s.content.count ')' = s.depth - 1
  nodes : ∀ n ∈ s.nodes, n.IsMeasured limit

section Sound

variable {limit : Nat}

theorem isMeasured_leaf {e : Expr} (he : e.depth = 1) : (Node.leaf e).IsMeasured limit :=
  ⟨he.symm, Nat.le_max_left 1 limit⟩

theorem isMeasured_join {op : Operator} {left right n : Node} (hl : left.IsMeasured limit)
    (hr : right.IsMeasured limit) (h : Node.join limit op left right = .ok n) :
    n.IsMeasured limit :=
  ⟨Node.depth_of_join hl.1 hr.1 h,
    Nat.le_trans (Node.join_eq_ok_iff.1 h).2 (Nat.le_max_right 1 limit)⟩

theorem Reading.nodes_registers (r : Reading) : r.registers.nodes = r.trees := by
  obtain ⟨chain, focus⟩ := r
  cases focus with
  | operand o => cases o <;> rfl
  | bracket callee inner content => rfl

/-- **The registers of a reading fit together**, if its trees have their own depth. -/
theorem Reading.isSound_registers {r : Reading} {before : List Char} (hr : r.Follows before)
    (htrees : ∀ n ∈ r.trees, n.IsMeasured limit) : r.registers.IsSound limit := by
  have hnodes : ∀ n ∈ r.registers.nodes, n.IsMeasured limit := by rwa [nodes_registers]
  obtain ⟨holds, a, s, -, hs⟩ := hr
  obtain ⟨chain, focus⟩ := r
  cases focus with
  | operand o =>
    refine ⟨Int.le_refl 0, fun _ => rfl, fun h => absurd h (Int.lt_irrefl 0), fun h => ?_,
      List.forall_mem_nil _, fun p hp => ?_, fun h => absurd h (Int.lt_irrefl 0), hnodes⟩
    · cases o with
      | callee f => rfl
      | _ => exact absurd rfl h
    · obtain rfl := List.prefix_nil.1 hp
      exact Nat.le_refl 0
  | bracket callee inner content =>
    obtain ⟨hprefixes, hcount⟩ := Text.bracketsOpen_eq_some_iff.1 holds
    refine ⟨Int.le_of_lt depth_bracket_pos, fun h => absurd h (Int.ne_of_gt depth_bracket_pos),
      fun _ => rfl, fun _ => rfl, fun c hc => ?_, fun p hp => ?_, fun _ => ?_, hnodes⟩
    · have hmem : c ∈ Text.withoutBlanks s := hs ▸ List.mem_cons_of_mem '(' hc
      simpa using (List.mem_filter.1 hmem).2
    · rw [← Nat.zero_add (p.count '(')]
      exact hprefixes p hp
    · show (content.reverse.count '(' : Int) - content.reverse.count ')' = inner + 1 - 1
      omega

end Sound

section Reached

variable {limit room : Nat} {t : String} {before rest : List Char} {s : Registers}
  {chain : Option Chain} {u : List Char} {resume : Node → Except ParseError (Registers ⊕ Node)}

/-- **What a reading asks for** is the content of its bracket, or the rest behind an operator that
takes its operand for a chain to start from. -/
theorem Reading.asked_cases {r : Reading} {move : Move} (hallows : r.Allows rest move)
    (h : move.transition limit r.chain = .ask chain u resume) :
    (∃ callee content, r.focus = .bracket callee 0 content ∧ chain = none ∧ u = content.reverse)
      ∨ ∃ o value op, r.focus = .operand o ∧ o.node? = some value ∧ op.kind = .multiplicative
        ∧ chain = some ⟨value, op⟩ ∧ u = rest := by
  cases hallows with
  | fault => cases h
  | collect => cases h
  | begin => cases h
  | close focus =>
    cases h
    exact .inl ⟨_, _, focus, rfl, rfl⟩
  | extend =>
    rw [Move.transition] at h
    split at h <;> cases h
  | nest _ focus node arithmetic nests =>
    cases h
    exact .inr ⟨_, _, _, focus, node, kind_of_nestsRight nests arithmetic, rfl, rfl⟩

/-- **Registers that are reached are those of a reading** of the same text. -/
theorem Reached.exists_reading (h : Reached limit t room before s rest) :
    ∃ r : Reading, r.registers = s ∧ r.Follows before ∧ ∀ n ∈ r.trees, n.IsMeasured limit := by
  have hleaf : ∀ e : Expr, e.depth = 1 → (Node.leaf e).IsMeasured limit :=
    fun e he => isMeasured_leaf he
  have hjoin : ∀ op left right n, Node.IsMeasured limit left → Node.IsMeasured limit right →
      Node.join limit op left right = .ok n → Node.IsMeasured limit n :=
    fun _ _ _ _ hl hr => isMeasured_join hl hr
  induction h with
  | start => exact ⟨.start none, rfl, Reading.follows_start none, List.forall_mem_nil _⟩
  | @sub room before s c rest chain u resume _ read asks ih =>
    obtain ⟨r, rfl, -, htrees⟩ := ih
    rw [Reading.step_registers] at asks
    -- The only tree that a text starts from is the operand in front of the operator that nests.
    refine ⟨.start chain, rfl, Reading.follows_start chain, ?_⟩
    rcases Reading.asked_cases (r.allows_move _ c rest) asks with
      ⟨_, _, -, rfl, -⟩ | ⟨o, value, op, focus, node, -, rfl, -⟩
    · exact List.forall_mem_nil _
    · exact List.forall_mem_singleton.2 (Reading.of_node? htrees hleaf focus node)
  | blank _ blank ih =>
    obtain ⟨r, rfl, hr, htrees⟩ := ih
    exact ⟨r, rfl, hr.blank blank, htrees⟩
  | @next room before s s' c rest _ read leads ih =>
    obtain ⟨r, rfl, hr, htrees⟩ := ih
    rw [Reading.step_registers, Move.perform_transition, readRegisters_eq] at leads
    obtain ⟨outcome, hperform, houtcome⟩ := exists_of_map_eq_ok leads
    cases outcome with
    | done n => cases houtcome
    | more r' =>
      obtain rfl := Sum.inl.inj houtcome
      exact ⟨r', rfl, hr.next read hperform,
        (r.allows_move _ c rest).forall_trees hleaf hjoin (keeps_readWithin hleaf hjoin room)
          htrees hperform⟩

end Reached

/-- **Registers fit together whatever is read.**  Reading with them is reading, and this holds of
all registers that are reached on the way, in the text or in one that is read on its own inside it,
under every limit.  While no bracket is open there is no content, and there are never fewer than
none open; inside a bracket, and while a function waits, no operand is pending; a content has no
blanks, never closes more brackets than it opens, and opens as many more as are open inside the
bracket; and trees have their own depth, which is at most the limit, or one.  What is asked for from
a chain is behind a multiplicative operator, and what is asked for without one is a balanced
content. -/
theorem registers_reached (limit : Nat) (t : String) :
    (readRegisters limit (limit + 1) none t.toList).map Node.expr = parsePrepared limit t
      ∧ ∀ {room : Nat} {before rest : List Char} {s : Registers},
        Reached limit t room before s rest → s.IsSound limit
          ∧ ∀ {c : Char} {after : List Char} {chain : Option Chain} {u : List Char}
            {resume : Node → Except ParseError (Registers ⊕ Node)},
            rest = c :: after → Text.isBlank c = false →
            s.step limit (Text.byteSize before) c after = .ask chain u resume →
              (∀ ch ∈ chain, ch.operator.kind = .multiplicative)
                ∧ (chain = none → Text.IsBalanced u) := by
  refine ⟨by rw [readRegisters_eq]; rfl, fun hreached => ?_⟩
  obtain ⟨r, rfl, hr, htrees⟩ := hreached.exists_reading
  refine ⟨Reading.isSound_registers hr htrees, fun _ _ hask => ?_⟩
  rw [Reading.step_registers] at hask
  rcases Reading.asked_cases (r.allows_move _ _ _) hask with
    ⟨callee, content, focus, rfl, rfl⟩ | ⟨o, value, op, -, -, hkind, rfl, -⟩
  · have hbalanced : (Focus.bracket callee 0 content).Holds := focus ▸ hr.holds
    exact ⟨nofun, fun _ => hbalanced⟩
  · exact ⟨fun ch hch => Option.some.inj hch ▸ hkind, nofun⟩

/-- In a bracket behind an operator that nests: the chain that its text starts from is kept, and the
content, which is asked for next, is balanced. -/
theorem registers_reached_nested :
    let s : Registers :=
      { chain := some ⟨.leaf (.identifier "x"), .mul⟩, content := ['y'], depth := 1 }
    Reached 9 "z+x*(y)" 8 ['(', 'y'] s [')'] ∧ s.IsSound 9
      ∧ (∃ resume, s.step 9 (Text.byteSize ['(', 'y']) ')' [] = .ask none ['y'] resume)
      ∧ Text.IsBalanced ['y'] := by
  intro s
  have hproduct : Reached 9 "z+x*(y)" 9 ([] ++ ['z'] ++ ['+'] ++ ['x'])
      { chain := some ⟨.leaf (.identifier "z"), .add⟩, pending := .name ['x'] }
      ['*', '(', 'y', ')'] :=
    ((Reached.start.next rfl rfl).next rfl rfl).next rfl rfl
  have hcontent : Reached 9 "z+x*(y)" 8 ([] ++ ['('] ++ ['y']) s [')'] :=
    ((hproduct.sub rfl rfl).next rfl rfl).next rfl rfl
  obtain ⟨hsound, hasked⟩ := (registers_reached 9 "z+x*(y)").2 hcontent
  exact ⟨hcontent, hsound, ⟨_, rfl⟩, (hasked rfl rfl rfl).2 rfl⟩

end FormulaPlot
