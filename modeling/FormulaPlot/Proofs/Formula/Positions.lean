import FormulaPlot.Proofs.Formula.Brackets
import FormulaPlot.Proofs.Formula.Faults

/-!
# Proofs/Formula/Positions — what the position of a fault points at

A fault keeps the position that it gets in the text in which it is noticed, however many texts that
text is part of.  `Reading.trace` reads as `Reading.run` does and keeps that text with the fault,
cut where the fault is noticed; a fault that comes out of a text read on its own is handed on as it
is.

* `mapError_traceWithin` — but for the text, this is reading;
* `Reading.isFoundIn_of_trace` — a position is that of the cut, and the character there is one that
  faults of the kind are noticed at; without a position, the text is at its end or nested too deep;
  and the text is the whole one or a part of it (`PartOf`), with its `0` in front;
* `position_of_parsePrepared` — so all this holds of the faults of prepared texts.
-/

namespace FormulaPlot

/-! ## Reading that keeps the text of a fault -/

/-- A fault and the text in which it is noticed, as it is read: what is `before` the character that
the fault is noticed at, and the `rest` from it on, which is empty at the end of the text. -/
structure Finding where
  fault : ParseError
  before : List Char
  rest : List Char
  deriving Repr, DecidableEq

/-- What a move comes to, with `found` for its own faults; those of a text that it has read on its
own are handed on. -/
def Move.trace (limit : Nat) (found : ParseError → Finding)
    (sub : Option Chain → List Char → Except Finding Node) (chain : Option Chain) :
    Move → Except Finding Outcome
  | fault e => .error (found e)
  | collect focus => .ok (.more ⟨chain, focus⟩)
  | begin value op => .ok (.more (.start (some ⟨value, op⟩)))
  | close callee content =>
    (sub none content).bind fun n =>
      ((wrapCall limit callee n).mapError found).map fun n => .more ⟨chain, .operand (.finished n)⟩
  | extend ch value op =>
    ((Node.join limit ch.operator ch.left value).mapError found).map fun n =>
      .more (.start (some ⟨n, op⟩))
  | nest ch value op rest =>
    (sub (some ⟨value, op⟩) rest).bind fun n =>
      ((Node.join limit ch.operator ch.left n).mapError found).map .done

/-- The tree that the rest of a text leads to, of which `before` is read already. -/
def Reading.trace (limit : Nat) (sub : Option Chain → List Char → Except Finding Node) (r : Reading)
    (before : List Char) : List Char → Except Finding Node
  | [] => (r.finish limit).mapError fun e => ⟨e, before, []⟩
  | c :: rest =>
    if Text.isBlank c then trace limit sub r (before ++ [c]) rest
    else
      let move := r.move (Text.byteSize before) c rest
      match move.trace limit (fun e => ⟨e, before, c :: rest⟩) sub r.chain with
      | .error f => .error f
      | .ok (.done node) => .ok node
      | .ok (.more r) => trace limit sub r (before ++ [c]) rest

/-- The tree of a text read on its own, at most `room` such readings inside one another. -/
def traceWithin (limit : Nat) : Nat → Option Chain → List Char → Except Finding Node
  | 0, _, text => .error ⟨⟨.tooDeep limit, none⟩, [], withLeadingZero text⟩
  | room + 1, chain, text =>
    (Reading.start chain).trace limit (traceWithin limit room) [] (withLeadingZero text)

example : traceWithin 9 10 none "1+2*(x * y 3)".toList
    = .error ⟨⟨.operatorExpected, some 3⟩, "x*y".toList, "3".toList⟩ := rfl

/-- The same way to read a text on its own, without the texts of its faults. -/
def plainly (sub : Option Chain → List Char → Except Finding Node) : SubReading :=
  fun chain text => (sub chain text).mapError Finding.fault

section Erasure

variable {limit : Nat} {sub : Option Chain → List Char → Except Finding Node}

theorem Move.mapError_trace {found : ParseError → Finding} (hfound : ∀ e, (found e).fault = e)
    (chain : Option Chain) (move : Move) :
    (move.trace limit found sub chain).mapError Finding.fault
      = move.perform limit (plainly sub) chain := by
  have herase {α : Type} (x : Except ParseError α) :
      (x.mapError found).mapError Finding.fault = x := by
    cases x with
    | error e => exact congrArg Except.error (hfound e)
    | ok a => rfl
  have hbind {α β : Type} (x : Except Finding α) (f : α → Except Finding β) :
      (x.bind f).mapError Finding.fault
        = (x.mapError Finding.fault).bind fun a => (f a).mapError Finding.fault := by
    cases x <;> rfl
  have hmap {α β : Type} (x : Except Finding α) (f : α → β) :
      (x.map f).mapError Finding.fault = (x.mapError Finding.fault).map f := by
    cases x <;> rfl
  cases move with
  | fault e => exact congrArg Except.error (hfound e)
  | collect focus => rfl
  | begin value op => rfl
  | close callee content => simp only [trace, perform, plainly, hbind, hmap, herase]
  | extend ch value op => simp only [trace, perform, hmap, herase]
  | nest ch value op rest => simp only [trace, perform, plainly, hbind, hmap, herase]

/-- A move whose own faults are noticed at its character. -/
theorem Reading.mapError_trace_move (r : Reading) (before : List Char) (c : Char)
    (rest : List Char) :
    ((r.move (Text.byteSize before) c rest).trace limit (fun e => ⟨e, before, c :: rest⟩) sub
        r.chain).mapError Finding.fault
      = (r.move (Text.byteSize before) c rest).perform limit (plainly sub) r.chain :=
  Move.mapError_trace (fun _ => rfl) r.chain _

theorem Reading.mapError_trace (r : Reading) (before rest : List Char) :
    (r.trace limit sub before rest).mapError Finding.fault
      = r.run limit (plainly sub) (Text.byteSize before) rest := by
  induction rest generalizing r before with
  | nil =>
    rw [trace, run]
    cases r.finish limit <;> rfl
  | cons c rest ih =>
    have hbyte : Text.byteSize before + c.utf8Size = Text.byteSize (before ++ [c]) := by
      rw [Text.byteSize_append]; rfl
    rw [trace]
    by_cases hblank : Text.isBlank c = true
    · rw [if_pos hblank, run_blank hblank, ih, hbyte]
    · rw [if_neg hblank, run_move (Bool.eq_false_iff.2 hblank), ← mapError_trace_move, hbyte]
      dsimp only
      cases (r.move (Text.byteSize before) c rest).trace limit _ sub r.chain with
      | error f => rfl
      | ok outcome =>
        cases outcome with
        | done n => rfl
        | more r' => exact ih r' _

end Erasure

/-- **Without the texts of its faults** this is reading. -/
theorem mapError_traceWithin (limit room : Nat) (chain : Option Chain) (t : List Char) :
    (traceWithin limit room chain t).mapError Finding.fault = readWithin limit room chain t := by
  induction room generalizing chain t with
  | zero => rfl
  | succ room ih =>
    have hsub : plainly (traceWithin limit room) = readWithin limit room :=
      funext fun chain => funext fun t => ih chain t
    rw [traceWithin, Reading.mapError_trace, hsub]
    rfl

/-! ## What a fault points at -/

/-- The characters at which faults of a kind are noticed. -/
def ParseError.Kind.PointsAt (c : Char) : Kind → Prop
  | unmatchedClose => c = ')'
  | emptyBrackets => c = ')'
  | functionExpected => c = '_'
  | operandExpected => c ∈ ['+', '-', '*', '/', '%', '^']
  | operatorExpected => c = '(' ∨ isOrdinary c = true
  | argumentExpected => c ∈ ['+', '-', '*', '/', '%', '^'] ∨ isOrdinary c = true
  | unmatchedOpen => False
  | emptyInput => False
  | tooDeep _ => False

/-- The faults that are noticed at the end of a text. -/
def ParseError.Kind.IsOfEnd : Kind → Prop
  | unmatchedOpen => True
  | emptyInput => True
  | argumentExpected => True
  | _ => False

/-- Where a fault is noticed, by its kind and position. -/
inductive Finding.IsPlaced : Finding → Prop
  | character {kind : ParseError.Kind} {before rest : List Char} {c : Char}
      (points : kind.PointsAt c) :
      IsPlaced ⟨⟨kind, some (Text.byteSize before)⟩, before, c :: rest⟩
  | ending {kind : ParseError.Kind} {before : List Char} (ends : kind.IsOfEnd) :
      IsPlaced ⟨⟨kind, none⟩, before, []⟩
  | depth {limit : Nat} {before rest : List Char} : IsPlaced ⟨⟨.tooDeep limit, none⟩, before, rest⟩

/-- What a move at `i` tells of the character that makes it. -/
def Move.Tells (i : Nat) (c : Char) : Move → Prop
  | fault e => ∃ kind : ParseError.Kind, e = ⟨kind, some i⟩ ∧ kind.PointsAt c
  | close _ _ => c = ')'
  | nest _ _ op _ => c = op.symbol
  | _ => True

section Tells

variable {i : Nat} {c : Char}

theorem Move.tells_ofFocus {x : Except ParseError Focus}
    (h : ∀ e, x = .error e → (Move.fault e).Tells i c) : (ofFocus x).Tells i c := by
  cases x with
  | error e => exact h e rfl
  | ok focus => trivial

theorem tells_of_openBracket {o : Operand} {e : ParseError} (h : o.openBracket i = .error e) :
    (Move.fault e).Tells i '(' := by
  cases o <;> cases h <;> exact ⟨_, rfl, .inl rfl⟩

theorem tells_of_markCall {o : Operand} {e : ParseError} (h : o.markCall i = .error e) :
    (Move.fault e).Tells i callMark := by
  cases o <;> cases h <;> exact ⟨_, rfl, rfl⟩

theorem tells_of_push (hc : isOrdinary c = true) {o : Operand} {e : ParseError}
    (h : o.push i c = .error e) : (Move.fault e).Tells i c := by
  cases o with
  | empty => cases h
  | number text => cases h
  | name text =>
    rw [Operand.push] at h
    split at h
    · exact ⟨_, (Except.error.inj h).symm, .inr hc⟩
    · cases h
  | finished n => exact ⟨_, (Except.error.inj h).symm, .inr hc⟩
  | callee f => exact ⟨_, (Except.error.inj h).symm, .inr hc⟩

theorem tells_of_close {op : Operator} (hop : op ≠ .apply) {o : Operand} {e : ParseError}
    (h : o.close i = .error e) : (Move.fault e).Tells i op.symbol := by
  have hsymbol : op.symbol ∈ ['+', '-', '*', '/', '%', '^'] := by
    cases op with
    | apply => exact absurd rfl hop
    | _ => decide
  rcases Operand.cases_of_close_error h with ⟨f, -, rfl⟩ | ⟨-, -, rfl⟩
  · exact ⟨_, rfl, .inl hsymbol⟩
  · exact ⟨_, rfl, hsymbol⟩

theorem Move.tells_ofOperator (chain : Option Chain) (value : Node) (op : Operator)
    (rest : List Char) : (ofOperator chain value op rest).Tells i op.symbol := by
  cases chain with
  | none => trivial
  | some ch =>
    rw [ofOperator]
    split
    · rfl
    · trivial

theorem Move.tells_inside (callee : Option String) (inner : Nat) (content : List Char) :
    (inside i c callee inner content).Tells i c := by
  unfold inside
  split
  · next hclose =>
    cases inner with
    | zero =>
      dsimp only
      split
      · exact ⟨_, rfl, hclose⟩
      · exact hclose
    | succ inner => trivial
  · split <;> trivial

theorem Move.tells_outside (hblank : Text.isBlank c = false) (rest : List Char)
    (chain : Option Chain) (o : Operand) : (outside i c rest chain o).Tells i c := by
  unfold outside
  split
  · next hopen => exact hopen ▸ tells_ofFocus fun e => tells_of_openBracket
  · next hopen =>
    split
    · next hclose => exact ⟨_, rfl, hclose⟩
    · next hclose =>
      split
      · next hmark =>
        subst hmark
        exact tells_ofFocus fun e he => tells_of_markCall (eq_error_of_map_eq_error he)
      · next hmark =>
        cases hop : Operator.ofChar? c with
        | none =>
          have hc := isOrdinary_iff.2 ⟨hblank, hopen, hclose, hop⟩
          exact tells_ofFocus fun e he => tells_of_push hc (eq_error_of_map_eq_error he)
        | some op =>
          obtain rfl := Operator.ofChar?_eq_some_iff.1 hop
          cases hvalue : o.close i with
          | error e =>
            refine tells_of_close ?_ hvalue
            rintro rfl
            exact hmark rfl
          | ok value => exact tells_ofOperator chain value op rest

/-- **A character's move** tells of the character. -/
theorem Reading.tells_move (hblank : Text.isBlank c = false) (r : Reading) (rest : List Char) :
    (r.move i c rest).Tells i c := by
  obtain ⟨chain, focus⟩ := r
  cases focus with
  | operand o => exact Move.tells_outside hblank rest chain o
  | bracket callee inner content => exact Move.tells_inside callee inner content

end Tells

/-! ## The texts that are read on their own -/

/-- The texts that may be read on their own while `t` is read: `t` itself and, of a text with the
`0` that goes in front of it, the content of a bracket without its blanks and what is behind a
multiplicative operator. -/
inductive PartOf (t : List Char) : List Char → Prop
  | whole : PartOf t t
  | content {s a u b : List Char} (outer : PartOf t s)
      (split : withLeadingZero s = a ++ '(' :: (u ++ ')' :: b)) (balanced : Text.IsBalanced u) :
      PartOf t (Text.withoutBlanks u)
  | remainder {s a b : List Char} {op : Operator} (outer : PartOf t s)
      (split : withLeadingZero s = a ++ op.symbol :: b) (kind : op.kind = .multiplicative) :
      PartOf t b

theorem PartOf.trans {t s u : List Char} (h : PartOf t s) (h' : PartOf s u) : PartOf t u := by
  induction h' with
  | whole => exact h
  | content _ split balanced ih => exact .content ih split balanced
  | remainder _ split kind ih => exact .remainder ih split kind

theorem byteSize_withoutBlanks_le (s : List Char) :
    Text.byteSize (Text.withoutBlanks s) ≤ Text.byteSize s := by
  induction s with
  | nil => exact Nat.le_refl 0
  | cons c s ih =>
    cases hblank : Text.isBlank c with
    | true =>
      rw [Text.withoutBlanks_cons_of_blank hblank, Text.byteSize_cons]
      omega
    | false =>
      rw [Text.withoutBlanks_cons_of_not_blank hblank, Text.byteSize_cons, Text.byteSize_cons]
      omega

theorem byteSize_withLeadingZero_le (s : List Char) :
    Text.byteSize (withLeadingZero s) ≤ Text.byteSize s + 1 := by
  rcases withLeadingZero_cases s with hzero | ⟨sign, u, -, rfl, hzero⟩
  · rw [hzero]
    exact Nat.le_succ _
  · rw [hzero, Text.byteSize_cons]
    exact Nat.le_of_eq (Nat.add_comm _ _)

/-- **No part is longer**, each with its `0` in front: what is left out in front of a part makes up
for it. -/
theorem PartOf.byteSize_le {t s : List Char} (h : PartOf t s) :
    Text.byteSize (withLeadingZero s) ≤ Text.byteSize (withLeadingZero t) := by
  induction h with
  | whole => exact Nat.le_refl _
  | @content s a u b _ split _ ih =>
    have hopen : '('.utf8Size = 1 := rfl
    have hcontent := byteSize_withoutBlanks_le u
    have hzero := byteSize_withLeadingZero_le (Text.withoutBlanks u)
    rw [split, Text.byteSize_append, Text.byteSize_cons, Text.byteSize_append] at ih
    omega
  | @remainder s a b op _ split _ ih =>
    have hsymbol := op.symbol.utf8Size_pos
    have hzero := byteSize_withLeadingZero_le b
    rw [split, Text.byteSize_append, Text.byteSize_cons] at ih
    omega

/-! ## A reading and the text behind it -/

/-- The reading `r` can come of the text `before`: the bracket that it collects the content of is
opened there, with that content behind it and as many brackets open in it. -/
structure Reading.Follows (before : List Char) (r : Reading) : Prop where
  holds : r.focus.Holds
  pending : ∃ a s, before = a ++ s ∧ Text.withoutBlanks s = r.focus.pending

namespace Reading

variable {limit : Nat} {sub : SubReading} {before rest : List Char} {c : Char} {r : Reading}

theorem follows_start (chain : Option Chain) : Follows [] (start chain) :=
  ⟨trivial, [], [], rfl, rfl⟩

theorem Follows.blank (h : r.Follows before) (hc : Text.isBlank c = true) :
    r.Follows (before ++ [c]) := by
  obtain ⟨a, s, rfl, hs⟩ := h.pending
  refine ⟨h.holds, a, s ++ [c], List.append_assoc a s [c], ?_⟩
  rw [Text.withoutBlanks_append, Text.withoutBlanks_cons_of_blank hc, hs]
  exact List.append_nil _

/-- **A move keeps this**, with its character read. -/
theorem Follows.next (h : r.Follows before) (hc : Text.isBlank c = false) {i : Nat} {r' : Reading}
    (hmove : (r.move i c rest).perform limit sub r.chain = .ok (.more r')) :
    r'.Follows (before ++ [c]) := by
  obtain ⟨a, s, rfl, hs⟩ := h.pending
  obtain ⟨hholds, stretch, hstretch, -⟩ :=
    (respects_move h.holds i c rest).exists_stretch hmove
  have hread : Text.withoutBlanks (s ++ [c]) = stretch ++ r'.focus.pending := by
    rw [Text.withoutBlanks_append, hs, Text.withoutBlanks_cons_of_not_blank hc]
    exact hstretch
  obtain ⟨u, v, huv, -, hv⟩ := Text.exists_of_withoutBlanks_eq_append hread
  exact ⟨hholds, a ++ u, v, by rw [List.append_assoc, huv, List.append_assoc], hv⟩

/-- The content of a bracket that closes is balanced and stands in the text, but for its blanks. -/
theorem Follows.exists_content (h : r.Follows before) {callee : Option String} {content : List Char}
    (focus : r.focus = .bracket callee 0 content) :
    ∃ a u, before = a ++ '(' :: u ∧ Text.withoutBlanks u = content.reverse ∧ Text.IsBalanced u := by
  obtain ⟨a, s, rfl, hs⟩ := h.pending
  have hholds := h.holds
  rw [focus] at hs hholds
  obtain ⟨gap, u, rfl, -, hu⟩ := Text.exists_of_withoutBlanks_eq_cons hs
  have hbalanced : Text.IsBalanced content.reverse := hholds
  refine ⟨a ++ gap, u, by rw [List.append_assoc], hu, ?_⟩
  rwa [← Text.isBalanced_withoutBlanks, hu]

end Reading

/-! ## Where faults are found -/

/-- A finding is in its place, and its text is a part of `t` with its `0` in front. -/
structure Finding.IsFoundIn (t : List Char) (f : Finding) : Prop where
  placed : f.IsPlaced
  part : ∃ s, PartOf t s ∧ f.before ++ f.rest = withLeadingZero s

theorem Finding.IsFoundIn.of_part {t s : List Char} {f : Finding} (h : f.IsFoundIn s)
    (hs : PartOf t s) : f.IsFoundIn t := by
  obtain ⟨placed, u, hu, hread⟩ := h
  exact ⟨placed, u, hs.trans hu, hread⟩

section Found

variable {limit : Nat} {before rest : List Char}

/-- A tree that is refused for its depth is refused wherever that is noticed. -/
theorem isPlaced_of_join {op : Operator} {left right : Node} {f : Finding}
    (h : (Node.join limit op left right).mapError (fun e => ⟨e, before, rest⟩) = .error f) :
    f.IsPlaced ∧ f.before ++ f.rest = before ++ rest := by
  obtain ⟨e, he, rfl⟩ := exists_of_mapError_eq_error h
  obtain rfl := Node.eq_tooDeep_of_join he
  exact ⟨.depth, rfl⟩

theorem isPlaced_of_wrapCall {callee : Option String} {n : Node} {f : Finding}
    (h : (wrapCall limit callee n).mapError (fun e => ⟨e, before, rest⟩) = .error f) :
    f.IsPlaced ∧ f.before ++ f.rest = before ++ rest := by
  cases callee with
  | none => cases h
  | some name => exact isPlaced_of_join h

/-- What is wrong at the end of a text is of the end, or of depth. -/
theorem Reading.isPlaced_of_finish {r : Reading} {e : ParseError}
    (h : r.finish limit = .error e) : (Finding.mk e before []).IsPlaced := by
  unfold finish at h
  split at h
  · exact Except.error.inj h ▸ .ending trivial
  · exact Except.error.inj h ▸ .ending trivial
  · split at h
    · cases h
    · exact Except.error.inj h ▸ .ending trivial
    · exact Node.eq_tooDeep_of_join h ▸ .depth

variable {sub : Option Chain → List Char → Except Finding Node} {s : List Char} {r : Reading}
  {f : Finding} (hsub : ∀ chain u f, sub chain u = .error f → f.IsFoundIn u)
include hsub

/-- **A move's fault** is found where the move is made, or in the text that it has read on its
own. -/
theorem Reading.isFoundIn_of_move (hr : r.Follows before) {c : Char}
    (hread : before ++ c :: rest = withLeadingZero s) {move : Move}
    (hallows : r.Allows rest move) (htells : move.Tells (Text.byteSize before) c)
    (h : move.trace limit (fun e => ⟨e, before, c :: rest⟩) sub r.chain = .error f) :
    f.IsFoundIn s := by
  have hhere (hf : f.IsPlaced ∧ f.before ++ f.rest = before ++ c :: rest) : f.IsFoundIn s :=
    ⟨hf.1, s, .whole, hf.2.trans hread⟩
  cases hallows with
  | fault =>
    obtain ⟨kind, rfl, hpoints⟩ := htells
    cases h
    exact hhere ⟨.character hpoints, rfl⟩
  | collect => cases h
  | begin => cases h
  | close focus =>
    rcases error_or_exists_of_bind_eq_error h with hcontent | ⟨n, -, hwrap⟩
    · obtain rfl : c = ')' := htells
      obtain ⟨a, u, rfl, hu, hbalanced⟩ := hr.exists_content focus
      have hsplit : withLeadingZero s = a ++ '(' :: (u ++ ')' :: rest) := by
        rw [← hread, List.append_assoc]
        rfl
      exact (hsub _ _ _ hcontent).of_part (hu ▸ .content .whole hsplit hbalanced)
    · exact hhere (isPlaced_of_wrapCall (eq_error_of_map_eq_error hwrap))
  | extend => exact hhere (isPlaced_of_join (eq_error_of_map_eq_error h))
  | nest _ _ _ arithmetic nests =>
    rcases error_or_exists_of_bind_eq_error h with hremainder | ⟨n, -, hjoin⟩
    · obtain rfl := htells
      exact (hsub _ _ _ hremainder).of_part
        (.remainder .whole hread.symm (kind_of_nestsRight nests arithmetic))
    · exact hhere (isPlaced_of_join (eq_error_of_map_eq_error hjoin))

/-- **A run's fault** is found in its text, of which `before` is read already. -/
theorem Reading.isFoundIn_of_trace (hr : r.Follows before)
    (hread : before ++ rest = withLeadingZero s) (h : r.trace limit sub before rest = .error f) :
    f.IsFoundIn s := by
  induction rest generalizing r before with
  | nil =>
    obtain ⟨e, he, rfl⟩ := exists_of_mapError_eq_error h
    exact ⟨isPlaced_of_finish he, s, .whole, hread⟩
  | cons c rest ih =>
    rw [trace] at h
    have hread' : (before ++ [c]) ++ rest = withLeadingZero s :=
      (List.append_assoc before [c] rest).trans hread
    by_cases hblank : Text.isBlank c = true
    · rw [if_pos hblank] at h
      exact ih (hr.blank hblank) hread' h
    · have hc := Bool.eq_false_iff.2 hblank
      rw [if_neg hblank] at h
      dsimp only at h
      split at h
      · next f' hmove =>
        obtain rfl := Except.error.inj h
        exact isFoundIn_of_move hsub hr hread (r.allows_move _ c rest) (r.tells_move hc rest) hmove
      · cases h
      · next r' hmove =>
        have hperform : (r.move (Text.byteSize before) c rest).perform limit (plainly sub) r.chain
            = .ok (.more r') := by
          rw [← mapError_trace_move, hmove]
          rfl
        exact ih (hr.next hc hperform) hread' h

end Found

/-- **Faults are found** in the text that is read, in whatever room. -/
theorem isFoundIn_of_traceWithin {limit room : Nat} {chain : Option Chain} {t : List Char}
    {f : Finding} (h : traceWithin limit room chain t = .error f) : f.IsFoundIn t := by
  induction room generalizing chain t f with
  | zero =>
    cases h
    exact ⟨.depth, t, .whole, rfl⟩
  | succ room ih =>
    exact Reading.isFoundIn_of_trace (fun chain u f => ih) (Reading.follows_start chain) rfl h

/-! ## Prepared texts -/

/-- **Positions point at what is wrong.**  A prepared text that is refused is refused for a finding:
in the text or in a part of it that is read on its own, in front of which a `0` may stand.  Brackets
never closed, empty texts and depth have no position; names, operators, operands and brackets that
are out of place have one; and a call without its argument has none only at the end of the part.  A
position is inside the whole text, with its own `0`, and it is the position of the character that
the finding is at in the part, which is one that faults of the kind are noticed at. -/
theorem position_of_parsePrepared {limit : Nat} {t : String} {e : ParseError}
    (h : parsePrepared limit t = .error e) :
    ∃ (f : Finding) (part : List Char), traceWithin limit (limit + 1) none t.toList = .error f
      ∧ f.fault = e ∧ PartOf t.toList part ∧ f.before ++ f.rest = withLeadingZero part
      ∧ (e.kind = .unmatchedOpen ∨ e.kind = .emptyInput ∨ (∃ limit, e.kind = .tooDeep limit) →
        e.position = none)
      ∧ (e.kind = .functionExpected ∨ e.kind = .operatorExpected ∨ e.kind = .operandExpected
        ∨ e.kind = .unmatchedClose ∨ e.kind = .emptyBrackets → e.position ≠ none)
      ∧ (e.kind = .argumentExpected → (e.position = none ↔ f.rest = []))
      ∧ ∀ p, e.position = some p →
        p < Text.byteSize (withLeadingZero t.toList) ∧ p = Text.byteSize f.before
          ∧ ∃ c after, f.rest = c :: after ∧ e.kind.PointsAt c := by
  have hread : readWithin limit (limit + 1) none t.toList = .error e := eq_error_of_map_eq_error h
  rw [← mapError_traceWithin] at hread
  obtain ⟨f, hf, rfl⟩ := exists_of_mapError_eq_error hread
  obtain ⟨placed, part, hpart, hsplit⟩ := isFoundIn_of_traceWithin hf
  refine ⟨f, part, hf, rfl, hpart, hsplit, ?_⟩
  cases placed with
  | @character kind before rest c points =>
    refine ⟨?_, fun _ => Option.some_ne_none _, fun _ => iff_of_false nofun nofun, fun p hp => ?_⟩
    · rintro (rfl | rfl | ⟨_, rfl⟩) <;> exact points.elim
    · obtain rfl := Option.some.inj hp
      refine ⟨?_, rfl, c, rest, rfl, points⟩
      have hpositive := c.utf8Size_pos
      have hinside := hpart.byteSize_le
      rw [← hsplit, Text.byteSize_append, Text.byteSize_cons] at hinside
      dsimp only at hinside
      omega
  | @ending kind before ends =>
    refine ⟨fun _ => rfl, ?_, fun _ => iff_of_true rfl rfl, nofun⟩
    rintro (rfl | rfl | rfl | rfl | rfl) <;> exact ends.elim
  | depth => exact ⟨fun _ => rfl, by simp, nofun, nofun⟩

/-- A fault in a bracket behind an operator that nests: it is the fifth character of the content
without its blank and with its `0`, and the text has more than five. -/
theorem position_of_parsePrepared_nested :
    parsePrepared 9 "1+2*( -f_*3)" = .error ⟨.argumentExpected, some 4⟩
      ∧ 4 < Text.byteSize (withLeadingZero "1+2*( -f_*3)".toList)
      ∧ ∃ (f : Finding) (part : List Char), PartOf "1+2*( -f_*3)".toList part
        ∧ f.before ++ f.rest = withLeadingZero part ∧ f.before ++ f.rest = "0-f_*3".toList
        ∧ 4 = Text.byteSize f.before
        ∧ ∃ c after, f.rest = c :: after ∧ ParseError.Kind.argumentExpected.PointsAt c := by
  have hrefused : parsePrepared 9 "1+2*( -f_*3)" = .error ⟨.argumentExpected, some 4⟩ := rfl
  obtain ⟨f, part, hf, -, hpart, hsplit, -, -, -, hposition⟩ := position_of_parsePrepared hrefused
  obtain ⟨hinside, hbefore, hpoints⟩ := hposition 4 rfl
  have htext : f.before ++ f.rest = "0-f_*3".toList := by
    have hfinding : traceWithin 9 10 none "1+2*( -f_*3)".toList
        = .error ⟨⟨.argumentExpected, some 4⟩, "0-f_".toList, "*3".toList⟩ := rfl
    obtain rfl := Except.error.inj (hfinding.symm.trans hf)
    rfl
  exact ⟨hrefused, hinside, f, part, hpart, hsplit, htext, hbefore, hpoints⟩

end FormulaPlot
