import FormulaPlot.Proofs.Formula.Recasing

/-!
# Proofs/Formula/RecasedReading — texts that differ in the case of what is called, side by side

Letters in front of a call mark become the name of a function that waits for its bracket, or there
is a fault at or behind them; their case has no part in which (`Reading.run_word`,
`RecasedOperand.call`).  All else is the same in both texts.  So the two are read side by side, word
by word, and come to the same fault or to trees that differ in the case of called names only:

* `RecasedMove.perform` — a move side by side;
* `RecasedReading.run` — a run side by side;
* `keepsCase_readWithin` — reading within any room.
-/

namespace FormulaPlot

/-! ## Results side by side -/

/-- Two results are the same fault, or related by `R`. -/
inductive SameFault {α β : Type} (R : α → β → Prop) :
    Except ParseError α → Except ParseError β → Prop
  | error (e : ParseError) : SameFault R (.error e) (.error e)
  | ok {a : α} {b : β} (h : R a b) : SameFault R (.ok a) (.ok b)

theorem SameFault.refl {α : Type} {R : α → α → Prop} (hR : ∀ a, R a a) (x : Except ParseError α) :
    SameFault R x x := by
  cases x with
  | error e => exact .error e
  | ok a => exact .ok (hR a)

namespace SameFault

variable {α β γ δ : Type} {R : α → β → Prop} {Q : γ → δ → Prop} {x : Except ParseError α}
  {y : Except ParseError β}

theorem bind (h : SameFault R x y) {f : α → Except ParseError γ} {g : β → Except ParseError δ}
    (hfg : ∀ {a b}, R a b → SameFault Q (f a) (g b)) : SameFault Q (x.bind f) (y.bind g) := by
  cases h with
  | error e => exact .error e
  | ok h => exact hfg h

theorem map (h : SameFault R x y) {f : α → γ} {g : β → δ} (hfg : ∀ {a b}, R a b → Q (f a) (g b)) :
    SameFault Q (x.map f) (y.map g) := by
  cases h with
  | error e => exact .error e
  | ok h => exact .ok (hfg h)

end SameFault

/-! ## What differs in the case of called names -/

/-- The names are the same but for their case. -/
def SameName (f f' : String) : Prop := f.toList.map Char.toLower = f'.toList.map Char.toLower

/-- The trees are the same but for the case of called names. -/
inductive RecasedExpr : Expr → Expr → Prop
  | refl (e : Expr) : RecasedExpr e e
  | node (op : Operator) {left left' right right' : Expr} (hleft : RecasedExpr left left')
      (hright : RecasedExpr right right') :
      RecasedExpr (.node op left right) (.node op left' right')
  | call {f f' : String} {argument argument' : Expr} (name : SameName f f')
      (hargument : RecasedExpr argument argument') :
      RecasedExpr (.node .apply (.identifier f) argument) (.node .apply (.identifier f') argument')

/-- Trees of one depth that differ in the case of called names. -/
structure RecasedNode (n n' : Node) : Prop where
  expr : RecasedExpr n.expr n'.expr
  depth : n.depth = n'.depth

theorem RecasedNode.refl (n : Node) : RecasedNode n n := ⟨.refl n.expr, rfl⟩

/-- Chains of one operator behind such trees, of which there are both or none. -/
inductive RecasedChain : Option Chain → Option Chain → Prop
  | none : RecasedChain none none
  | some (op : Operator) {left left' : Node} (h : RecasedNode left left') :
      RecasedChain (some ⟨left, op⟩) (some ⟨left', op⟩)

/-- Operands that differ in the case of called names; what is still collected is the same. -/
inductive RecasedOperand : Operand → Operand → Prop
  | refl (o : Operand) : RecasedOperand o o
  | finished {n n' : Node} (h : RecasedNode n n') : RecasedOperand (.finished n) (.finished n')
  | callee {f f' : String} (name : SameName f f') : RecasedOperand (.callee f) (.callee f')

/-- The names of functions that wait for their bracket's content, of which there are both or
none. -/
inductive RecasedCallee : Option String → Option String → Prop
  | none : RecasedCallee none none
  | some {f f' : String} (name : SameName f f') : RecasedCallee (some f) (some f')

theorem RecasedCallee.eq_none_iff {callee callee' : Option String}
    (h : RecasedCallee callee callee') : callee = .none ↔ callee' = .none := by
  cases h with
  | none => exact Iff.rfl
  | some name => exact iff_of_false nofun nofun

inductive RecasedFocus : Focus → Focus → Prop
  | operand {o o' : Operand} (h : RecasedOperand o o') : RecasedFocus (.operand o) (.operand o')
  | bracket {callee callee' : Option String} (inner : Nat) {content content' : List Char}
      (hcallee : RecasedCallee callee callee')
      (hcontent : RecasedCalls content.reverse content'.reverse) :
      RecasedFocus (.bracket callee inner content) (.bracket callee' inner content')

/-- Readings that differ in the case of called names. -/
structure RecasedReading (r r' : Reading) : Prop where
  chain : RecasedChain r.chain r'.chain
  focus : RecasedFocus r.focus r'.focus

inductive RecasedOutcome : Outcome → Outcome → Prop
  | more {r r' : Reading} (h : RecasedReading r r') : RecasedOutcome (.more r) (.more r')
  | done {n n' : Node} (h : RecasedNode n n') : RecasedOutcome (.done n) (.done n')

/-- Moves that differ in the case of called names, with texts behind them that do so as well. -/
inductive RecasedMove : Move → Move → Prop
  | fault (e : ParseError) : RecasedMove (.fault e) (.fault e)
  | collect {focus focus' : Focus} (h : RecasedFocus focus focus') :
      RecasedMove (.collect focus) (.collect focus')
  | begin {value value' : Node} (op : Operator) (h : RecasedNode value value') :
      RecasedMove (.begin value op) (.begin value' op)
  | close {callee callee' : Option String} {content content' : List Char}
      (hcallee : RecasedCallee callee callee') (hcontent : RecasedCalls content content') :
      RecasedMove (.close callee content) (.close callee' content')
  | extend (previous op : Operator) {left left' value value' : Node}
      (hleft : RecasedNode left left') (hvalue : RecasedNode value value') :
      RecasedMove (.extend ⟨left, previous⟩ value op) (.extend ⟨left', previous⟩ value' op)
  | nest (previous op : Operator) {left left' value value' : Node} {rest rest' : List Char}
      (hleft : RecasedNode left left') (hvalue : RecasedNode value value')
      (hrest : RecasedCalls rest rest') :
      RecasedMove (.nest ⟨left, previous⟩ value op rest) (.nest ⟨left', previous⟩ value' op rest')

/-- A way to read texts on their own that reads them side by side. -/
def SubReading.KeepsCase (sub : SubReading) : Prop :=
  ∀ {chain chain' t t'}, RecasedChain chain chain' → RecasedCalls t t' →
    SameFault RecasedNode (sub chain t) (sub chain' t')

/-! ## Trees -/

section Trees

variable {limit : Nat}

/-- The limit looks at depths only. -/
theorem recased_join_of {op : Operator} {left left' right right' : Node}
    (hexpr : RecasedExpr (.node op left.expr right.expr) (.node op left'.expr right'.expr))
    (hdepth : max left.depth right.depth = max left'.depth right'.depth) :
    SameFault RecasedNode (Node.join limit op left right) (Node.join limit op left' right') := by
  unfold Node.join
  dsimp only
  rw [hdepth]
  split
  · exact .error _
  · exact .ok ⟨hexpr, rfl⟩

theorem recased_join (op : Operator) {left left' right right' : Node}
    (hleft : RecasedNode left left') (hright : RecasedNode right right') :
    SameFault RecasedNode (Node.join limit op left right) (Node.join limit op left' right') :=
  recased_join_of (.node op hleft.expr hright.expr) (by rw [hleft.depth, hright.depth])

theorem recased_wrapCall {callee callee' : Option String} (hcallee : RecasedCallee callee callee')
    {n n' : Node} (hn : RecasedNode n n') :
    SameFault RecasedNode (wrapCall limit callee n) (wrapCall limit callee' n') := by
  cases hcallee with
  | none => exact .ok hn
  | some name => exact recased_join_of (.call name hn.expr) (by rw [hn.depth]; rfl)

/-- **The end** side by side. -/
theorem RecasedReading.finish {r r' : Reading} (h : RecasedReading r r') :
    SameFault RecasedNode (r.finish limit) (r'.finish limit) := by
  obtain ⟨chain, focus⟩ := r
  obtain ⟨chain', focus'⟩ := r'
  obtain ⟨hchain, hfocus⟩ := h
  dsimp only at hchain hfocus
  cases hfocus with
  | bracket => exact .error _
  | @operand o o' h =>
    cases h with
    | callee => exact .error _
    | finished hn =>
      cases hchain with
      | none => exact .ok hn
      | some op hleft => exact recased_join op hleft hn
    | refl =>
      cases hchain with
      | none => exact .refl RecasedNode.refl _
      | some op hleft =>
        cases ho : o.node? with
        | some n =>
          rw [Reading.finish_of_node? ho, Reading.finish_of_node? ho]
          exact recased_join op hleft (.refl n)
        | none =>
          by_cases hcallee : ∃ f, o = .callee f
          · obtain ⟨f, rfl⟩ := hcallee
            exact .error _
          · have hmissing := not_exists.1 hcallee
            rw [Reading.finish_of_missing ho hmissing, Reading.finish_of_missing ho hmissing]
            exact recased_join op hleft (.refl _)

end Trees

/-! ## Single characters -/

section Characters

variable {o o' : Operand} (h : RecasedOperand o o') (i : Nat)
include h

theorem RecasedOperand.openBracket :
    SameFault RecasedFocus (o.openBracket i) (o'.openBracket i) := by
  have hopen {callee callee' : Option String} (hcallee : RecasedCallee callee callee') :
      SameFault RecasedFocus (.ok (.bracket callee 0 [])) (.ok (.bracket callee' 0 [])) :=
    .ok (.bracket 0 hcallee .nil)
  cases h with
  | refl o =>
    cases o with
    | empty => exact hopen .none
    | callee f => exact hopen (.some rfl)
    | _ => exact .error _
  | finished => exact .error _
  | callee name => exact hopen (.some name)

theorem RecasedOperand.markCall :
    SameFault RecasedOperand (o.markCall i) (o'.markCall i) := by
  cases h with
  | refl o =>
    cases o with
    | name text => exact .ok (.refl _)
    | _ => exact .error _
  | finished => exact .error _
  | callee => exact .error _

theorem RecasedOperand.push (c : Char) : SameFault RecasedOperand (o.push i c) (o'.push i c) := by
  cases h with
  | refl o => exact .refl RecasedOperand.refl _
  | finished => exact .error _
  | callee => exact .error _

theorem RecasedOperand.close : SameFault RecasedNode (o.close i) (o'.close i) := by
  cases h with
  | refl o => exact .refl RecasedNode.refl _
  | finished h => exact .ok h
  | callee => exact .error _

end Characters

/-! ## Words in front of call marks -/

/-- What the letters `k`, from `i` on, and the call mark behind them make of an operand: the name of
a function, unless there is an operand that does not go on with them. -/
def Operand.call (i : Nat) (k : List Char) : Operand → Except ParseError Operand
  | empty => .ok (callee (String.ofList k))
  | name text => .ok (callee (String.ofList (text.reverse ++ k)))
  | number _ => .error ⟨.functionExpected, some (i + Text.byteSize k)⟩
  | finished _ => .error ⟨.operatorExpected, some i⟩
  | callee _ => .error ⟨.argumentExpected, some i⟩

theorem RecasedOperand.call {o o' : Operand} (h : RecasedOperand o o') (i : Nat) {k k' : List Char}
    (hcase : k.map Char.toLower = k'.map Char.toLower)
    (hsize : Text.byteSize k = Text.byteSize k') :
    SameFault RecasedOperand (o.call i k) (o'.call i k') := by
  have hname (text : List Char) :
      SameName (String.ofList (text ++ k)) (String.ofList (text ++ k')) := by
    rw [SameName, String.toList_ofList, String.toList_ofList, List.map_append, List.map_append,
      hcase]
  cases h with
  | finished => exact .error _
  | callee => exact .error _
  | refl o =>
    cases o with
    | empty => exact .ok (.callee (hname []))
    | name text => exact .ok (.callee (hname text.reverse))
    | number text =>
      rw [Operand.call, Operand.call, hsize]
      exact .error _
    | finished n => exact .error _
    | callee f => exact .error _

/-- The call mark goes to the operand. -/
theorem Reading.run_mark {limit : Nat} {sub : SubReading} {chain : Option Chain} (o : Operand)
    (i : Nat) (rest : List Char) :
    run limit sub ⟨chain, .operand o⟩ i (callMark :: rest)
      = follow limit sub (i + callMark.utf8Size) rest
          ((o.markCall i).map fun o => .more ⟨chain, .operand o⟩) := by
  have hbracket : callMark ≠ '(' ∧ callMark ≠ ')' := by decide
  rw [run_cons (by decide)]
  simp only [step, stepOutside, if_neg hbracket.1, if_neg hbracket.2, if_pos]
  cases o.markCall i <;> rfl

section Word

variable {limit : Nat} {sub : SubReading} {chain : Option Chain} {k : List Char}
  (hk : k ≠ []) (hletters : ∀ c ∈ k, c.isAlpha = true)
include hk hletters

/-- **A word with a call mark behind it** outside brackets. -/
theorem Reading.run_word (o : Operand) (i : Nat) (rest : List Char) :
    run limit sub ⟨chain, .operand o⟩ i (k ++ callMark :: rest)
      = follow limit sub (i + Text.byteSize k + callMark.utf8Size) rest
          ((o.call i k).map fun o => .more ⟨chain, .operand o⟩) := by
  have hname : IsName k := ⟨hk, fun c hc => ⟨isOrdinary_of_isAlpha (hletters c hc), by
    rw [isNumeral_eq_false_of_isAlpha (hletters c hc)]
    exact Bool.false_ne_true⟩⟩
  have hordinary (c : Char) (hc : c ∈ k) : isOrdinary c = true := (hname.2 c hc).1
  cases o with
  | empty =>
    rw [run_wholeName hname, run_mark, Operand.markCall, List.reverse_reverse, Operand.call]
  | name text =>
    rw [run_name hname.2, run_mark, Operand.markCall, List.reverse_append, List.reverse_reverse,
      Operand.call]
  | number text =>
    rw [run_number hordinary, run_mark]
    rfl
  | finished n =>
    obtain ⟨c, k, rfl⟩ := List.exists_cons_of_ne_nil hk
    rw [List.cons_append, run_ordinary (hordinary c List.mem_cons_self), Operand.push,
      Operand.call]
    rfl
  | callee f =>
    obtain ⟨c, k, rfl⟩ := List.exists_cons_of_ne_nil hk
    rw [List.cons_append, run_ordinary (hordinary c List.mem_cons_self), Operand.push,
      Operand.call]
    rfl

omit hk in
/-- **A word with a call mark behind it** inside a bracket goes to the content. -/
theorem Reading.run_wordInside (callee : Option String) (inner : Nat) (content : List Char)
    (i : Nat) (rest : List Char) :
    run limit sub ⟨chain, .bracket callee inner content⟩ i (k ++ callMark :: rest)
      = run limit sub ⟨chain, .bracket callee inner ((k ++ [callMark]).reverse ++ content)⟩
          (i + Text.byteSize k + callMark.utf8Size) rest := by
  have hplain : ∀ c ∈ k ++ [callMark], Text.isBlank c = false ∧ c ≠ '(' ∧ c ≠ ')' := by
    intro c hc
    rcases List.mem_append.1 hc with hc | hc
    · obtain ⟨hblank, hopen, hclose, -⟩ := isOrdinary_iff.1 (isOrdinary_of_isAlpha (hletters c hc))
      exact ⟨hblank, hopen, hclose⟩
    · rw [List.mem_singleton.1 hc]
      decide
  have hopen : Text.bracketsOpen inner (k ++ [callMark]) = some inner := by
    have hbalanced : Text.IsBalanced (k ++ [callMark]) :=
      Text.isBalanced_of_forall fun c hc => (hplain c hc).2
    have hadd := Text.bracketsOpen_add hbalanced inner
    rwa [Nat.zero_add] at hadd
  rw [← List.singleton_append, ← List.append_assoc, run_inside hopen,
    Text.withoutBlanks_of_forall fun c hc => (hplain c hc).1, Text.byteSize_append,
    Text.byteSize_cons, Text.byteSize_nil, Nat.add_zero, Nat.add_assoc]

end Word

/-! ## Moves -/

theorem RecasedMove.ofFocus {x x' : Except ParseError Focus} (h : SameFault RecasedFocus x x') :
    RecasedMove (.ofFocus x) (.ofFocus x') := by
  cases h with
  | error e => exact .fault e
  | ok h => exact .collect h

theorem RecasedMove.ofOperator {chain chain' : Option Chain} (hchain : RecasedChain chain chain')
    {value value' : Node} (hvalue : RecasedNode value value') (op : Operator)
    {rest rest' : List Char} (hrest : RecasedCalls rest rest') :
    RecasedMove (.ofOperator chain value op rest) (.ofOperator chain' value' op rest') := by
  cases hchain with
  | none => exact .begin op hvalue
  | some previous hleft =>
    unfold Move.ofOperator
    dsimp only
    split
    · exact .nest previous op hleft hvalue hrest
    · exact .extend previous op hleft hvalue

theorem RecasedMove.inside (i : Nat) (c : Char) {callee callee' : Option String}
    (hcallee : RecasedCallee callee callee') (inner : Nat) {content content' : List Char}
    (hcontent : RecasedCalls content.reverse content'.reverse) :
    RecasedMove (.inside i c callee inner content) (.inside i c callee' inner content') := by
  have hmore (inner : Nat) : RecasedMove (.collect (.bracket callee inner (c :: content)))
      (.collect (.bracket callee' inner (c :: content'))) := by
    refine .collect (.bracket inner hcallee ?_)
    rw [List.reverse_cons, List.reverse_cons]
    exact hcontent.append (.refl [c])
  have hempty : (callee = none ∧ content = []) ↔ (callee' = none ∧ content' = []) := by
    have hnil : content = [] ↔ content' = [] := by
      rw [← List.reverse_eq_nil_iff, hcontent.eq_nil_iff, List.reverse_eq_nil_iff]
    rw [hcallee.eq_none_iff, hnil]
  unfold Move.inside
  split
  · cases inner with
    | zero =>
      dsimp only
      rw [if_congr hempty rfl rfl]
      split
      · exact .fault _
      · exact .close hcallee hcontent
    | succ inner => exact hmore inner
  · split <;> exact hmore _

theorem RecasedMove.outside (i : Nat) (c : Char) {chain chain' : Option Chain}
    (hchain : RecasedChain chain chain') {o o' : Operand} (h : RecasedOperand o o')
    {rest rest' : List Char} (hrest : RecasedCalls rest rest') :
    RecasedMove (.outside i c rest chain o) (.outside i c rest' chain' o') := by
  unfold Move.outside
  split
  · exact .ofFocus (h.openBracket i)
  · split
    · exact .fault _
    · split
      · exact .ofFocus ((h.markCall i).map .operand)
      · split
        · next op hop =>
          have hclose := h.close i
          revert hclose
          generalize o.close i = x
          generalize o'.close i = x'
          rintro (e | hvalue)
          · exact .fault e
          · exact .ofOperator hchain hvalue op hrest
        · exact .ofFocus ((h.push i c).map .operand)

/-- **A character makes the same move** in both. -/
theorem RecasedReading.move {r r' : Reading} (h : RecasedReading r r') (i : Nat) (c : Char)
    {rest rest' : List Char} (hrest : RecasedCalls rest rest') :
    RecasedMove (r.move i c rest) (r'.move i c rest') := by
  obtain ⟨chain, focus⟩ := r
  obtain ⟨chain', focus'⟩ := r'
  obtain ⟨hchain, hfocus⟩ := h
  dsimp only at hchain hfocus
  cases hfocus with
  | operand h => exact .outside i c hchain h hrest
  | bracket inner hcallee hcontent => exact .inside i c hcallee inner hcontent

section Run

variable {limit : Nat} {sub : SubReading} (hsub : sub.KeepsCase)
include hsub

/-- **A move side by side.** -/
theorem RecasedMove.perform {chain chain' : Option Chain} (hchain : RecasedChain chain chain')
    {move move' : Move} (h : RecasedMove move move') :
    SameFault RecasedOutcome (move.perform limit sub chain) (move'.perform limit sub chain') := by
  cases h with
  | fault e => exact .error e
  | collect h => exact .ok (.more ⟨hchain, h⟩)
  | begin op h => exact .ok (.more ⟨.some op h, .operand (.refl _)⟩)
  | close hcallee hcontent =>
    exact (hsub .none hcontent).bind fun hn =>
      (recased_wrapCall hcallee hn).map fun hn => .more ⟨hchain, .operand (.finished hn)⟩
  | extend previous op hleft hvalue =>
    exact (recased_join previous hleft hvalue).map fun hn =>
      .more ⟨.some op hn, .operand (.refl _)⟩
  | nest previous op hleft hvalue hrest =>
    exact (hsub (.some op hvalue) hrest).bind fun hn =>
      (recased_join previous hleft hn).map .done

omit hsub in
/-- What follows a step side by side. -/
theorem SameFault.follow {x x' : Except ParseError Outcome} (h : SameFault RecasedOutcome x x')
    {i : Nat} {s s' : List Char}
    (hrun : ∀ {r r'}, RecasedReading r r' →
      SameFault RecasedNode (r.run limit sub i s) (r'.run limit sub i s')) :
    SameFault RecasedNode (Reading.follow limit sub i s x) (Reading.follow limit sub i s' x') := by
  cases h with
  | error e => exact .error e
  | ok h =>
    cases h with
    | done hn => exact .ok hn
    | more h => exact hrun h

/-- **A run side by side.** -/
theorem RecasedReading.run {r r' : Reading} (h : RecasedReading r r') {s s' : List Char}
    (hs : RecasedCalls s s') (i : Nat) :
    SameFault RecasedNode (r.run limit sub i s) (r'.run limit sub i s') := by
  induction hs generalizing r r' i with
  | nil => exact h.finish
  | @cons c s s' tail ih =>
    by_cases hblank : Text.isBlank c = true
    · rw [Reading.run_blank hblank, Reading.run_blank hblank]
      exact ih h _
    · have hc := Bool.eq_false_iff.2 hblank
      rw [Reading.run_move hc, Reading.run_move hc]
      exact ((h.move i c tail).perform hsub h.chain).follow fun h => ih h _
  | @call k k' s s' nonempty letters case tail ih =>
    have nonempty' := ne_nil_congr case nonempty
    have letters' := forall_isAlpha_congr case letters
    have hsize : Text.byteSize k = Text.byteSize k' := by
      rw [byteSize_of_isAlpha letters, byteSize_of_isAlpha letters',
        ← List.length_map (f := Char.toLower), case, List.length_map]
    obtain ⟨chain, focus⟩ := r
    obtain ⟨chain', focus'⟩ := r'
    obtain ⟨hchain, hfocus⟩ := h
    dsimp only at hchain hfocus
    cases hfocus with
    | operand h =>
      rw [Reading.run_word nonempty letters, Reading.run_word nonempty' letters', ← hsize]
      refine ((h.call i case hsize).map ?_).follow fun h => ih h _
      exact fun h => .more ⟨hchain, .operand h⟩
    | bracket inner hcallee hcontent =>
      rw [Reading.run_wordInside letters, Reading.run_wordInside letters', ← hsize]
      refine ih ⟨hchain, .bracket inner hcallee ?_⟩ _
      simp only [List.reverse_append, List.reverse_reverse]
      exact hcontent.append (.call nonempty letters case .nil)

end Run

/-- **Texts are read side by side** within any room. -/
theorem keepsCase_readWithin (limit room : Nat) : (readWithin limit room).KeepsCase := by
  induction room with
  | zero => exact fun _ _ => .error _
  | succ room ih =>
    intro chain chain' t t' hchain ht
    exact RecasedReading.run ih ⟨hchain, .operand (.refl _)⟩ ht.withLeadingZero 0

end FormulaPlot
