import FormulaPlot.Proofs.Formula.Moves

/-!
# Proofs/Formula/Brackets — what a verdict says of the brackets

A formula that is read has all its brackets in pairs, and one that is refused for its brackets has
them as the refusal says (`brackets_of_parsePrepared`).

**What is pending.**  A reading that collects the content of a bracket still owes the text from
that bracket on (`Focus.pending`); a verdict is about this text and what follows it.  Each move
either adds its character to what is pending, or completes a balanced stretch, which no verdict
depends on (`Move.Respects`).

**Contents.**  The content of a bracket is read on its own when its own brackets are closed, so it
is balanced; hence no bracket is found to be missing in there, nor in the texts that are read on
their own inside it (`isBalanced_of_mem_contentsWithin`).
-/

namespace FormulaPlot

/-! ## Counting brackets -/

namespace Text

/-- Brackets open behind a text, in numbers: no prefix closes more than are open by then. -/
theorem bracketsOpen_eq_some_iff {n m : Nat} {s : List Char} :
    bracketsOpen n s = some m
      ↔ (∀ p, p <+: s → p.count ')' ≤ n + p.count '(') ∧ n + s.count '(' = m + s.count ')' := by
  induction s generalizing n with
  | nil =>
    have hnil : bracketsOpen n [] = some n := rfl
    simp [hnil]
  | cons c s ih =>
    have hprefixes {P : List Char → Prop} :
        (∀ p, p <+: c :: s → P p) ↔ P [] ∧ ∀ p, p <+: s → P (c :: p) := by
      simp only [List.prefix_cons_iff]
      grind
    rw [bracketsOpen_cons, hprefixes, bracketStep]
    by_cases hopen : c = '('
    · subst hopen
      simp only [reduceIte, Option.bind_some, ih, List.count_cons]
      grind
    · by_cases hclose : c = ')'
      · subst hclose
        simp only [reduceIte, Char.reduceEq, List.count_cons]
        cases n with
        | zero =>
          rw [if_pos rfl, Option.bind_none]
          refine iff_of_false (Option.some_ne_none m).symm fun h => ?_
          have hone := h.1.2 [] List.nil_prefix
          simp at hone
        | succ n => grind
      · simp only [if_neg hopen, if_neg hclose, Option.bind_some, ih, List.count_cons]
        grind

/-- A text that closes a bracket that is not open has a prefix that does. -/
theorem exists_prefix_of_bracketsOpen {s : List Char} (h : bracketsOpen 0 s = none) :
    ∃ p, p <+: s ∧ p.count '(' < p.count ')' := by
  refine Classical.byContradiction fun hnot => ?_
  have hprefixes : ∀ p, p <+: s → p.count ')' ≤ 0 + p.count '(' := fun p hp =>
    (Nat.zero_add _).symm ▸ Nat.le_of_not_lt fun hlt => hnot ⟨p, hp, hlt⟩
  have hle := hprefixes s (List.prefix_refl s)
  have hopen : bracketsOpen 0 s = some (s.count '(' - s.count ')') :=
    bracketsOpen_eq_some_iff.2 ⟨hprefixes, by omega⟩
  rw [h] at hopen
  cases hopen

/-- Two brackets with only blanks between them, before the blanks are left out. -/
theorem exists_gap_of_infix {s : List Char} (h : ['(', ')'] <:+: withoutBlanks s) :
    ∃ a gap b, s = a ++ '(' :: (gap ++ ')' :: b) ∧ ∀ c ∈ gap, isBlank c = true := by
  obtain ⟨u, v, huv⟩ := h
  rw [List.append_assoc] at huv
  obtain ⟨a, s', rfl, -, hs'⟩ := exists_of_withoutBlanks_eq_append huv.symm
  obtain ⟨a', s'', rfl, -, hs''⟩ := exists_of_withoutBlanks_eq_cons hs'
  obtain ⟨gap, b, rfl, hgap, -⟩ := exists_of_withoutBlanks_eq_cons hs''
  exact ⟨a ++ a', gap, b, by simp, withoutBlanks_eq_nil_iff.1 hgap⟩

end Text

/-! ## Truthful verdicts -/

/-- What a fault of some kind says of the brackets of the text `s`. -/
def ParseError.Kind.Shows (s : List Char) : Kind → Prop
  | unmatchedOpen => ∃ n, Text.bracketsOpen 0 s = some (n + 1)
  | unmatchedClose => Text.bracketsOpen 0 s = none
  | emptyBrackets => ['(', ')'] <:+: Text.withoutBlanks s
  | _ => True

/-- Whether the brackets of the text `s` are as the result of reading it says. -/
def Truthful (s : List Char) : Except ParseError Node → Prop
  | .ok _ => Text.IsBalanced s
  | .error e => e.kind.Shows s

section Truthful

variable {s t : List Char} {k : ParseError.Kind} {x : Except ParseError Node}

theorem bracketsOpen_append_of_balanced (hs : Text.IsBalanced s) (t : List Char) :
    Text.bracketsOpen 0 (s ++ t) = Text.bracketsOpen 0 t := by
  rw [Text.bracketsOpen_append, show Text.bracketsOpen 0 s = some 0 from hs]
  rfl

/-- A balanced stretch in front has no part in what a fault says. -/
theorem ParseError.Kind.Shows.append_left (h : k.Shows t) (hs : Text.IsBalanced s) :
    k.Shows (s ++ t) := by
  have hopen := bracketsOpen_append_of_balanced hs t
  cases k with
  | unmatchedOpen => exact h.imp fun n hn => hopen.trans hn
  | unmatchedClose => exact hopen.trans h
  | emptyBrackets =>
    have hpair : ['(', ')'] <:+: Text.withoutBlanks t := h
    show ['(', ')'] <:+: Text.withoutBlanks (s ++ t)
    rw [Text.withoutBlanks_append]
    exact hpair.trans (List.suffix_append _ _).isInfix
  | _ => trivial

/-- **A balanced text** is at fault for no bracket that is missing. -/
theorem ParseError.Kind.Shows.ne_of_balanced (h : k.Shows s) (hs : Text.IsBalanced s) :
    k ≠ .unmatchedOpen ∧ k ≠ .unmatchedClose := by
  constructor
  · rintro rfl
    obtain ⟨n, hn⟩ := h
    cases hs.symm.trans hn
  · rintro rfl
    cases hs.symm.trans h

/-- What a balanced part is at fault for, the whole has too. -/
theorem ParseError.Kind.Shows.of_part (h : k.Shows s) (hs : Text.IsBalanced s)
    (hpart : s <:+: t) : k.Shows t := by
  obtain ⟨hopen, hclose⟩ := h.ne_of_balanced hs
  cases k with
  | unmatchedOpen => exact absurd rfl hopen
  | unmatchedClose => exact absurd rfl hclose
  | emptyBrackets => exact List.IsInfix.trans h (hpart.filter _)
  | _ => trivial

/-- Blanks tell nothing of brackets. -/
theorem ParseError.Kind.Shows.congr (h : k.Shows s)
    (hblanks : Text.withoutBlanks s = Text.withoutBlanks t) : k.Shows t := by
  have hopen : Text.bracketsOpen 0 t = Text.bracketsOpen 0 s := by
    rw [← Text.bracketsOpen_withoutBlanks, ← hblanks, Text.bracketsOpen_withoutBlanks]
  cases k with
  | unmatchedOpen => exact h.imp fun n hn => hopen.trans hn
  | unmatchedClose => exact hopen.trans h
  | emptyBrackets =>
    show ['(', ')'] <:+: Text.withoutBlanks t
    exact hblanks ▸ h
  | _ => trivial

/-- **A balanced stretch in front** changes no verdict. -/
theorem Truthful.append_left (h : Truthful t x) (hs : Text.IsBalanced s) :
    Truthful (s ++ t) x := by
  cases x with
  | ok n => exact hs.append h
  | error e => exact ParseError.Kind.Shows.append_left h hs

theorem Truthful.congr (h : Truthful s x)
    (hblanks : Text.withoutBlanks s = Text.withoutBlanks t) : Truthful t x := by
  cases x with
  | ok n =>
    have hs : Text.IsBalanced s := h
    rwa [← Text.isBalanced_withoutBlanks, hblanks, Text.isBalanced_withoutBlanks] at hs
  | error e => exact ParseError.Kind.Shows.congr h hblanks

end Truthful

/-! ## What is pending -/

/-- The text that a bracket stands for whose content is being collected. -/
def Focus.pending : Focus → List Char
  | .operand _ => []
  | .bracket _ _ content => '(' :: content.reverse

/-- The content of the bracket has as many brackets open as the focus says. -/
def Focus.Holds : Focus → Prop
  | .operand _ => True
  | .bracket _ inner content => Text.bracketsOpen 0 content.reverse = some inner

/-- What a move says of the brackets behind the pending text `p`, at a character `c` with `rest`
behind it: it leaves more pending, or it completes a balanced stretch. -/
def Move.Respects (p : List Char) (c : Char) (rest : List Char) : Move → Prop
  | fault e => e.kind.Shows (p ++ c :: rest)
  | collect focus =>
    focus.Holds ∧ ∃ stretch, p ++ [c] = stretch ++ focus.pending ∧ Text.IsBalanced stretch
  | begin _ _ => Text.IsBalanced (p ++ [c])
  | close _ content => Text.IsBalanced content ∧ p ++ [c] = '(' :: (content ++ [')'])
  | extend _ _ _ => Text.IsBalanced (p ++ [c])
  | nest _ _ _ rest' => Text.IsBalanced (p ++ [c]) ∧ rest' = rest

section Moves

variable {rest : List Char}

/-- Where no bracket is open, a character that is no bracket completes itself. -/
theorem isBalanced_singleton {c : Char} (hc : c ≠ '(' ∧ c ≠ ')') : Text.IsBalanced ([] ++ [c]) :=
  Text.isBalanced_of_forall (List.forall_mem_singleton.2 hc)

/-! No fault of an operand is one of brackets. -/

theorem shows_of_markCall {o : Operand} {i : Nat} {e : ParseError}
    (h : o.markCall i = .error e) (s : List Char) : e.kind.Shows s := by
  cases o <;> cases h <;> trivial

theorem shows_of_push {o : Operand} {i : Nat} {c : Char} {e : ParseError}
    (h : o.push i c = .error e) (s : List Char) : e.kind.Shows s := by
  cases o with
  | name text =>
    rw [Operand.push] at h
    split at h
    · cases h
      trivial
    · cases h
  | _ => cases h <;> trivial

theorem shows_of_close {o : Operand} {i : Nat} {e : ParseError}
    (h : o.close i = .error e) (s : List Char) : e.kind.Shows s := by
  rcases Operand.cases_of_close_error h with ⟨f, -, rfl⟩ | ⟨-, -, rfl⟩ <;> trivial

theorem respects_ofFocus_openBracket (i : Nat) (o : Operand) :
    (Move.ofFocus (o.openBracket i)).Respects [] '(' rest := by
  cases o with
  | empty => exact ⟨rfl, [], rfl, rfl⟩
  | callee f => exact ⟨rfl, [], rfl, rfl⟩
  | _ => trivial

theorem respects_ofFocus_operand {c : Char} (hc : c ≠ '(' ∧ c ≠ ')')
    {x : Except ParseError Operand} (hx : ∀ e, x = .error e → e.kind.Shows (c :: rest)) :
    (Move.ofFocus (x.map .operand)).Respects [] c rest := by
  cases x with
  | error e => exact hx e rfl
  | ok o => exact ⟨trivial, [c], rfl, isBalanced_singleton hc⟩

theorem respects_ofOperator {c : Char} (hc : c ≠ '(' ∧ c ≠ ')') (chain : Option Chain)
    (value : Node) (op : Operator) : (Move.ofOperator chain value op rest).Respects [] c rest := by
  have hbalanced := isBalanced_singleton hc
  unfold Move.ofOperator
  split
  · exact hbalanced
  · split
    · exact ⟨hbalanced, rfl⟩
    · exact hbalanced

theorem respects_outside (i : Nat) (c : Char) (chain : Option Chain) (o : Operand) :
    (Move.outside i c rest chain o).Respects [] c rest := by
  unfold Move.outside
  split
  · next hopen => exact hopen ▸ respects_ofFocus_openBracket i o
  · next hopen =>
    split
    · next hclose =>
      subst hclose
      rfl
    · next hclose =>
      split
      · exact respects_ofFocus_operand ⟨hopen, hclose⟩ fun e he => shows_of_markCall he _
      · split
        · split
          · next he => exact shows_of_close he _
          · exact respects_ofOperator ⟨hopen, hclose⟩ ..
        · exact respects_ofFocus_operand ⟨hopen, hclose⟩ fun e he => shows_of_push he _

/-- A character that goes to the content leaves it pending with the rest. -/
theorem respects_collect {callee : Option String} {inner inner' : Nat} {content : List Char}
    {c : Char} (hholds : (Focus.bracket callee inner content).Holds)
    (hstep : Text.bracketStep inner c = some inner') :
    (Move.collect (.bracket callee inner' (c :: content))).Respects ('(' :: content.reverse) c
      rest := by
  have hopen : Text.bracketsOpen 0 content.reverse = some inner := hholds
  refine ⟨?_, [], by simp [Focus.pending], rfl⟩
  show Text.bracketsOpen 0 (c :: content).reverse = some inner'
  rw [List.reverse_cons, Text.bracketsOpen_append, hopen, Option.bind_some,
    Text.bracketsOpen_cons, hstep]
  rfl

theorem respects_inside (i : Nat) (c : Char) {callee : Option String} {inner : Nat}
    {content : List Char} (hholds : (Focus.bracket callee inner content).Holds) :
    (Move.inside i c callee inner content).Respects ('(' :: content.reverse) c rest := by
  unfold Move.inside
  split
  · next hclose =>
    subst hclose
    cases inner with
    | zero =>
      dsimp only
      split
      · next hempty =>
        obtain ⟨-, rfl⟩ := hempty
        exact List.prefix_append ['(', ')'] _ |>.isInfix
      · exact ⟨hholds, rfl⟩
    | succ inner => exact respects_collect hholds rfl
  · next hclose =>
    split
    · next hopen => exact respects_collect hholds (by rw [hopen]; rfl)
    · next hopen => exact respects_collect hholds (Text.bracketStep_of_ne ⟨hopen, hclose⟩ inner)

/-- **Every move respects the brackets.** -/
theorem Reading.respects_move {r : Reading} (hholds : r.focus.Holds) (i : Nat) (c : Char)
    (rest : List Char) : (r.move i c rest).Respects r.focus.pending c rest := by
  obtain ⟨chain, focus⟩ := r
  cases focus with
  | operand o => exact respects_outside i c chain o
  | bracket callee inner content => exact respects_inside i c hholds

end Moves

/-! ## Runs -/

section Run

variable {limit : Nat} {sub : SubReading} {p rest : List Char} {c : Char} {move : Move}
  {chain : Option Chain}

/-- Joining is refused for depth only, which says nothing of brackets. -/
theorem shows_of_join {op : Operator} {left right : Node} {e : ParseError}
    (h : Node.join limit op left right = .error e) (s : List Char) : e.kind.Shows s :=
  Node.eq_tooDeep_of_join h ▸ trivial

theorem shows_of_wrapCall {callee : Option String} {n : Node} {e : ParseError}
    (h : wrapCall limit callee n = .error e) (s : List Char) : e.kind.Shows s := by
  cases callee with
  | none => cases h
  | some name => exact shows_of_join h s

/-- What is left pending, behind a balanced stretch. -/
theorem Truthful.behind {stretch q : List Char} {x : Except ParseError Node}
    (h : Truthful (q ++ rest) x) (hstretch : p ++ [c] = stretch ++ q)
    (hbalanced : Text.IsBalanced stretch) : Truthful (p ++ c :: rest) x := by
  rw [List.append_cons, hstretch, List.append_assoc]
  exact h.append_left hbalanced

/-- What a move that goes on leaves pending. -/
theorem Move.Respects.exists_stretch (h : move.Respects p c rest) {r : Reading}
    (hmore : move.perform limit sub chain = .ok (.more r)) :
    r.focus.Holds ∧ ∃ stretch, p ++ [c] = stretch ++ r.focus.pending ∧ Text.IsBalanced stretch := by
  have hempty (hbalanced : Text.IsBalanced (p ++ [c])) :
      ∃ stretch, p ++ [c] = stretch ++ [] ∧ Text.IsBalanced stretch :=
    ⟨_, (List.append_nil _).symm, hbalanced⟩
  cases move with
  | fault e => cases hmore
  | collect focus =>
    cases hmore
    exact h
  | begin value op =>
    cases hmore
    exact ⟨trivial, hempty h⟩
  | close callee content =>
    obtain ⟨n, -, hmore⟩ := exists_of_bind_eq_ok hmore
    obtain ⟨n', -, hmore⟩ := exists_of_map_eq_ok hmore
    cases hmore
    exact ⟨trivial, hempty (h.2 ▸ h.1.bracket)⟩
  | extend ch value op =>
    obtain ⟨n, -, hmore⟩ := exists_of_map_eq_ok hmore
    cases hmore
    exact ⟨trivial, hempty h⟩
  | nest ch value op rest' =>
    obtain ⟨n, -, hmore⟩ := exists_of_bind_eq_ok hmore
    obtain ⟨n', -, hmore⟩ := exists_of_map_eq_ok hmore
    cases hmore

variable (hsub : ∀ chain t, Truthful t (sub chain t))
include hsub

/-- **A fault that a move comes to** tells the truth, if the readings that it asks for do. -/
theorem Move.Respects.shows (h : move.Respects p c rest) {e : ParseError}
    (herror : move.perform limit sub chain = .error e) : e.kind.Shows (p ++ c :: rest) := by
  cases move with
  | fault e' => exact Except.error.inj herror ▸ h
  | collect focus => cases herror
  | begin value op => cases herror
  | close callee content =>
    obtain ⟨hbalanced, hbracket⟩ := h
    rcases error_or_exists_of_bind_eq_error herror with hcontent | ⟨n, -, hwrap⟩
    · have hshows : Truthful content (.error e) := hcontent ▸ hsub none content
      refine ParseError.Kind.Shows.of_part hshows hbalanced ?_
      rw [List.append_cons, hbracket]
      exact ⟨['('], ')' :: rest, by simp⟩
    · exact shows_of_wrapCall (eq_error_of_map_eq_error hwrap) _
  | extend ch value op => exact shows_of_join (eq_error_of_map_eq_error herror) _
  | nest ch value op rest' =>
    obtain ⟨hbalanced, rfl⟩ := h
    rcases error_or_exists_of_bind_eq_error herror with hrest | ⟨n, -, hjoin⟩
    · have hshows : Truthful ([] ++ rest') (.error e) := hrest ▸ hsub (some ⟨value, op⟩) rest'
      exact hshows.behind (List.append_nil _).symm hbalanced
    · exact shows_of_join (eq_error_of_map_eq_error hjoin) _

/-- **The tree that a move comes to** tells the truth too. -/
theorem Move.Respects.isBalanced (h : move.Respects p c rest) {n : Node}
    (hdone : move.perform limit sub chain = .ok (.done n)) :
    Text.IsBalanced (p ++ c :: rest) := by
  cases move with
  | fault e' => cases hdone
  | collect focus => cases hdone
  | begin value op => cases hdone
  | close callee content =>
    obtain ⟨m, -, hdone⟩ := exists_of_bind_eq_ok hdone
    obtain ⟨m', -, hdone⟩ := exists_of_map_eq_ok hdone
    cases hdone
  | extend ch value op =>
    obtain ⟨m, -, hdone⟩ := exists_of_map_eq_ok hdone
    cases hdone
  | nest ch value op rest' =>
    obtain ⟨hbalanced, rfl⟩ := h
    obtain ⟨m, hm, -⟩ := exists_of_bind_eq_ok hdone
    have hrest : Truthful ([] ++ rest') (.ok m) := hm ▸ hsub (some ⟨value, op⟩) rest'
    exact hrest.behind (List.append_nil _).symm hbalanced

omit hsub in
/-- The end outside all brackets is no fault of brackets. -/
theorem Reading.shows_of_finish {o : Operand} {e : ParseError}
    (h : finish limit ⟨chain, .operand o⟩ = .error e) (s : List Char) : e.kind.Shows s := by
  cases ho : o.node? with
  | some n =>
    rw [finish_of_node? ho] at h
    cases chain with
    | none => cases h
    | some ch => exact shows_of_join h s
  | none =>
    by_cases hcallee : ∃ f, o = .callee f
    · obtain ⟨f, rfl⟩ := hcallee
      exact Except.error.inj h ▸ trivial
    · rw [finish_of_missing ho (not_exists.1 hcallee)] at h
      cases chain with
      | none => exact Except.error.inj h ▸ trivial
      | some ch => exact shows_of_join h s

omit hsub in
/-- **The end tells the truth.** -/
theorem Reading.truthful_finish {r : Reading} (hholds : r.focus.Holds) :
    Truthful (r.focus.pending ++ []) (r.finish limit) := by
  obtain ⟨chain, focus⟩ := r
  rw [List.append_nil]
  cases focus with
  | bracket callee inner content => exact ⟨inner, Text.bracketsOpen_add hholds 1⟩
  | operand o =>
    cases hfinish : finish limit ⟨chain, .operand o⟩ with
    | ok n => rfl
    | error e => exact shows_of_finish hfinish _

/-- **A run tells the truth.** -/
theorem Reading.truthful_run {r : Reading} (hholds : r.focus.Holds) (i : Nat) :
    Truthful (r.focus.pending ++ rest) (r.run limit sub i rest) := by
  induction rest generalizing r i with
  | nil => exact truthful_finish hholds
  | cons c rest ih =>
    by_cases hblank : Text.isBlank c = true
    · rw [run_blank hblank]
      refine (ih hholds _).congr ?_
      rw [Text.withoutBlanks_append, Text.withoutBlanks_append,
        Text.withoutBlanks_cons_of_blank hblank]
    · have hmove := respects_move hholds i c rest
      rw [run_move (Bool.eq_false_iff.2 hblank)]
      cases hperform : (r.move i c rest).perform limit sub r.chain with
      | error e => exact hmove.shows hsub hperform
      | ok outcome =>
        cases outcome with
        | done n => exact hmove.isBalanced hsub hperform
        | more r' =>
          obtain ⟨hholds', stretch, hstretch, hbalanced⟩ := hmove.exists_stretch hperform
          exact (ih hholds' _).behind hstretch hbalanced

end Run

/-- The digit in front tells nothing of brackets. -/
theorem ParseError.Kind.Shows.of_zero {k : Kind} {t : List Char} (h : k.Shows ('0' :: t)) :
    k.Shows t := by
  cases k with
  | emptyBrackets =>
    have hpair : ['(', ')'] <:+: '0' :: Text.withoutBlanks t := h
    rcases List.infix_cons_iff.1 hpair with hprefixes | hpair
    · cases (List.cons_prefix_cons.1 hprefixes).1
    · exact hpair
  | _ => exact h

theorem truthful_of_withLeadingZero {t : List Char} {x : Except ParseError Node}
    (h : Truthful (withLeadingZero t) x) : Truthful t x := by
  rcases withLeadingZero_cases t with hzero | ⟨sign, u, -, rfl, hzero⟩
  · rwa [hzero] at h
  · rw [hzero] at h
    cases x with
    | ok n => exact h
    | error e => exact ParseError.Kind.Shows.of_zero h

/-- **A reading within any room tells the truth.** -/
theorem truthful_readWithin (limit room : Nat) (chain : Option Chain) (t : List Char) :
    Truthful t (readWithin limit room chain t) := by
  induction room generalizing chain t with
  | zero => trivial
  | succ room ih =>
    have hstart : (Reading.start chain).focus.Holds := trivial
    exact truthful_of_withLeadingZero (Reading.truthful_run ih hstart 0)

/-! ## The contents of brackets -/

/-- The contents of brackets that a move has read on their own, if `inner` lists those of each text
read on its own. -/
def Move.contents (inner : Option Chain → List Char → List (List Char)) :
    Move → List (List Char)
  | close _ content => content :: inner none content
  | nest _ value op rest => inner (some ⟨value, op⟩) rest
  | _ => []

/-- The contents of brackets that are read on their own in a run, those inside them and those
inside the rest behind an operator that nests included. -/
def Reading.contents (limit : Nat) (sub : SubReading)
    (inner : Option Chain → List Char → List (List Char)) (r : Reading) (i : Nat) :
    List Char → List (List Char)
  | [] => []
  | c :: rest =>
    if Text.isBlank c then contents limit sub inner r (i + c.utf8Size) rest
    else
      let move := r.move i c rest
      match move.perform limit sub r.chain with
      | .ok (.more r) => move.contents inner ++ contents limit sub inner r (i + c.utf8Size) rest
      | _ => move.contents inner

/-- The contents of brackets that are read on their own while a text is read within some room. -/
def contentsWithin (limit : Nat) : Nat → Option Chain → List Char → List (List Char)
  | 0, _, _ => []
  | room + 1, chain, text =>
    (Reading.start chain).contents limit (readWithin limit room) (contentsWithin limit room) 0
      (withLeadingZero text)

example : contentsWithin 9 10 none "1+2*(a-(b))".toList = ["a-(b)".toList, "b".toList] := rfl

section Contents

variable {limit : Nat} {sub : SubReading} {inner : Option Chain → List Char → List (List Char)}
  (hinner : ∀ chain t, ∀ s ∈ inner chain t, Text.IsBalanced s)
include hinner

theorem Move.Respects.isBalanced_contents {move : Move} {p rest : List Char} {c : Char}
    (h : move.Respects p c rest) : ∀ s ∈ move.contents inner, Text.IsBalanced s := by
  cases move with
  | close callee content => exact List.forall_mem_cons.2 ⟨h.1, hinner none content⟩
  | nest ch value op rest' => exact hinner _ rest'
  | _ => exact List.forall_mem_nil _

theorem Reading.isBalanced_contents {r : Reading} (hholds : r.focus.Holds) (i : Nat)
    (rest : List Char) : ∀ s ∈ r.contents limit sub inner i rest, Text.IsBalanced s := by
  induction rest generalizing r i with
  | nil => exact List.forall_mem_nil _
  | cons c rest ih =>
    rw [contents]
    split
    · exact ih hholds _
    · have hmove := respects_move hholds i c rest
      have hcontents := hmove.isBalanced_contents hinner
      dsimp only
      split
      · next r' hperform =>
        obtain ⟨hholds', -⟩ := hmove.exists_stretch hperform
        exact List.forall_mem_append.2 ⟨hcontents, ih hholds' _⟩
      · exact hcontents

end Contents

/-- **The content of a bracket is balanced** wherever it is read on its own. -/
theorem isBalanced_of_mem_contentsWithin {limit room : Nat} {chain : Option Chain}
    {t s : List Char} (h : s ∈ contentsWithin limit room chain t) : Text.IsBalanced s := by
  induction room generalizing chain t s with
  | zero => cases h
  | succ room ih =>
    have hstart : (Reading.start chain).focus.Holds := trivial
    exact Reading.isBalanced_contents (fun chain t s hs => ih hs) hstart 0 _ s h

/-! ## The verdict on a prepared text -/

/-- **Bracket verdicts are truthful.**  A text that is read has as many brackets of either kind and
no prefix with more closing ones; one refused for a bracket never closed has more opening ones, and
no such prefix; one refused for a bracket that closes none has such a prefix; and one refused for
empty brackets has a pair of them with only blanks in it.  The first two faults never come from
inside a bracket: no content that is read on its own is refused for them, in whatever room. -/
theorem brackets_of_parsePrepared (t : String) (limit : Nat) :
    (∀ e, parsePrepared limit t = .ok e →
        (∀ p, p <+: t.toList → p.count ')' ≤ p.count '(')
          ∧ t.toList.count '(' = t.toList.count ')')
      ∧ (∀ e, parsePrepared limit t = .error e → e.kind = .unmatchedOpen →
        (∀ p, p <+: t.toList → p.count ')' ≤ p.count '(')
          ∧ t.toList.count ')' < t.toList.count '(')
      ∧ (∀ e, parsePrepared limit t = .error e → e.kind = .unmatchedClose →
        ∃ p, p <+: t.toList ∧ p.count '(' < p.count ')')
      ∧ (∀ e, parsePrepared limit t = .error e → e.kind = .emptyBrackets →
        ∃ a gap b, t.toList = a ++ '(' :: (gap ++ ')' :: b) ∧ ∀ c ∈ gap, Text.isBlank c = true)
      ∧ ∀ s ∈ contentsWithin limit (limit + 1) none t.toList, ∀ room e,
        readWithin limit room none s = .error e →
          e.kind ≠ .unmatchedOpen ∧ e.kind ≠ .unmatchedClose := by
  have htruth := truthful_readWithin limit (limit + 1) none t.toList
  have hverdict {e : ParseError} (h : parsePrepared limit t = .error e) :
      e.kind.Shows t.toList := by
    rw [eq_error_of_map_eq_error h] at htruth
    exact htruth
  refine ⟨fun e h => ?_, fun e h hkind => ?_, fun e h hkind => ?_, fun e h hkind => ?_,
    fun s hs room e h => ?_⟩
  · obtain ⟨n, hn, -⟩ := exists_of_map_eq_ok h
    rw [hn] at htruth
    simpa using Text.bracketsOpen_eq_some_iff.1 htruth
  · obtain ⟨n, hn⟩ : ∃ n, Text.bracketsOpen 0 t.toList = some (n + 1) := by
      have hshows := hverdict h
      rwa [hkind] at hshows
    obtain ⟨hprefixes, hcount⟩ := Text.bracketsOpen_eq_some_iff.1 hn
    exact ⟨fun p hp => by simpa using hprefixes p hp, by omega⟩
  · have hshows := hverdict h
    rw [hkind] at hshows
    exact Text.exists_prefix_of_bracketsOpen hshows
  · have hshows := hverdict h
    rw [hkind] at hshows
    exact Text.exists_gap_of_infix hshows
  · have hshows : e.kind.Shows s := by
      have hcontent := truthful_readWithin limit room none s
      rwa [h] at hcontent
    exact hshows.ne_of_balanced (isBalanced_of_mem_contentsWithin hs)

/-- A text for each verdict, and a content that is refused for another fault. -/
theorem brackets_of_parsePrepared_each :
    parsePrepared 8 "(x)*2" = .ok (.node .mul (.identifier "x") (.literal 2))
      ∧ "(x)*2".toList.count '(' = "(x)*2".toList.count ')'
      ∧ parsePrepared 8 "((x)" = .error ⟨.unmatchedOpen, none⟩
      ∧ "((x)".toList.count ')' < "((x)".toList.count '('
      ∧ parsePrepared 8 "x)(" = .error ⟨.unmatchedClose, some 1⟩
      ∧ (∃ p, p <+: "x)(".toList ∧ p.count '(' < p.count ')')
      ∧ parsePrepared 8 "1+2*( )" = .error ⟨.emptyBrackets, some 2⟩
      ∧ (∃ a gap b, "1+2*( )".toList = a ++ '(' :: (gap ++ ')' :: b)
        ∧ ∀ c ∈ gap, Text.isBlank c = true)
      ∧ "x2".toList ∈ contentsWithin 8 9 none "1+(x2)".toList
      ∧ readWithin 8 8 none "x2".toList = .error ⟨.operatorExpected, some 1⟩
      ∧ ParseError.Kind.operatorExpected ≠ .unmatchedOpen := by
  have hok : parsePrepared 8 "(x)*2" = .ok (.node .mul (.identifier "x") (.literal 2)) := rfl
  have hopen : parsePrepared 8 "((x)" = .error ⟨.unmatchedOpen, none⟩ := rfl
  have hclose : parsePrepared 8 "x)(" = .error ⟨.unmatchedClose, some 1⟩ := rfl
  have hempty : parsePrepared 8 "1+2*( )" = .error ⟨.emptyBrackets, some 2⟩ := rfl
  have hmem : "x2".toList ∈ contentsWithin 8 9 none "1+(x2)".toList := List.mem_cons_self
  have hread : readWithin 8 8 none "x2".toList = .error ⟨.operatorExpected, some 1⟩ := rfl
  exact ⟨hok, ((brackets_of_parsePrepared _ 8).1 _ hok).2,
    hopen, ((brackets_of_parsePrepared _ 8).2.1 _ hopen rfl).2,
    hclose, (brackets_of_parsePrepared _ 8).2.2.1 _ hclose rfl,
    hempty, (brackets_of_parsePrepared _ 8).2.2.2.1 _ hempty rfl,
    hmem, hread, ((brackets_of_parsePrepared _ 8).2.2.2.2 _ hmem 8 _ hread).1⟩

end FormulaPlot
