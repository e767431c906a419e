import FormulaPlot.Formula.Parse
import FormulaPlot.Proofs.Formula.Grammar
import FormulaPlot.Text.Offset

/-!
# Proofs/Formula/Reading — what a reading makes of a stretch of text

`Reading.run` goes character by character; here it goes in strides.  A blank changes nothing, a run
of ordinary characters is collected, a balanced text inside brackets becomes their content, and an
operator or a closing bracket hands over to `pushOperator` or `closeBracket`:

* `Reading.run_number`, `Reading.run_name` — runs of ordinary characters;
* `Reading.run_inside`, `Reading.run_brackets` — the content of brackets, less its blanks;
* `Reading.run_operator` — an operator behind a finished operand.
-/

namespace FormulaPlot

/-! ## Steps that may fail -/

section Except

variable {ε α β : Type} {x : Except ε α} {b : β} {e : ε}

theorem exists_of_bind_eq_ok {f : α → Except ε β} (h : x.bind f = .ok b) :
    ∃ a, x = .ok a ∧ f a = .ok b := by
  cases x with
  | error e => cases h
  | ok a => exact ⟨a, rfl, h⟩

theorem exists_of_map_eq_ok {f : α → β} (h : x.map f = .ok b) : ∃ a, x = .ok a ∧ f a = b := by
  cases x with
  | error e => cases h
  | ok a => exact ⟨a, rfl, Except.ok.inj h⟩

theorem error_or_exists_of_bind_eq_error {f : α → Except ε β} (h : x.bind f = .error e) :
    x = .error e ∨ ∃ a, x = .ok a ∧ f a = .error e := by
  cases x with
  | error e' => exact .inl (congrArg _ (Except.error.inj h))
  | ok a => exact .inr ⟨a, rfl, h⟩

theorem eq_error_of_map_eq_error {f : α → β} (h : x.map f = .error e) : x = .error e := by
  cases x with
  | error e' => exact congrArg _ (Except.error.inj h)
  | ok a => cases h

theorem exists_of_mapError_eq_error {ε' : Type} {f : ε → ε'} {e' : ε'}
    (h : x.mapError f = .error e') : ∃ e, x = .error e ∧ f e = e' := by
  cases x with
  | error e => exact ⟨e, rfl, Except.error.inj h⟩
  | ok a => cases h

end Except

/-! ## Characters -/

theorem Operator.ofChar?_eq_none_iff {c : Char} :
    Operator.ofChar? c = none ↔ c ∉ ['+', '-', '*', '/', '%', '^', '_'] := by
  unfold Operator.ofChar?
  split <;> simp_all

/-- An ordinary character is no blank, no bracket and no operator. -/
theorem isOrdinary_iff {c : Char} :
    isOrdinary c = true
      ↔ Text.isBlank c = false ∧ c ≠ '(' ∧ c ≠ ')' ∧ Operator.ofChar? c = none := by
  rw [Operator.ofChar?_eq_none_iff]
  simp only [isOrdinary, specialChars, Bool.and_eq_true, Bool.not_eq_true', List.contains_cons,
    List.contains_nil, Bool.or_false, Bool.or_eq_false_iff, beq_eq_false_iff_ne, List.mem_cons,
    List.not_mem_nil, or_false, not_or, ne_eq]

theorem isBlank_eq_false_of_isOrdinary {c : Char} (h : isOrdinary c = true) :
    Text.isBlank c = false := (isOrdinary_iff.1 h).1

theorem isBlank_symbol (op : Operator) : Text.isBlank op.symbol = false := by
  cases op <;> decide

theorem not_isOrdinary_symbol (op : Operator) : isOrdinary op.symbol = false := by
  cases op <;> decide

theorem ne_callMark_of_ofChar?_eq_none {c : Char} (h : Operator.ofChar? c = none) :
    c ≠ callMark := by
  rintro rfl
  exact absurd h (by decide)

theorem symbol_ne_callMark {op : Operator} (h : op ≠ .apply) : op.symbol ≠ callMark := by
  cases op with
  | apply => exact absurd rfl h
  | _ => decide

theorem ne_apply_of_isAdditive {op : Operator} (h : op.isAdditive = true) : op ≠ .apply := by
  rintro rfl
  cases h

theorem nestsRight_eq_false_of_isAdditive {previous op : Operator} (h : op.isAdditive = true) :
    nestsRight previous op = false := by rw [nestsRight, h, Bool.not_true, Bool.and_false]

theorem kind_of_nestsRight {previous op : Operator} (h : nestsRight previous op = true)
    (hop : op ≠ .apply) : op.kind = .multiplicative := by
  have hkind : op.kind ≠ .additive := by
    intro hadditive
    rw [nestsRight_eq_false_of_isAdditive (decide_eq_true hadditive)] at h
    cases h
  cases op with
  | apply => exact absurd rfl hop
  | add => exact absurd rfl hkind
  | sub => exact absurd rfl hkind
  | _ => rfl

/-- Either a text starts with a sign, and a `0` goes in front of it, or it stays as it is. -/
theorem withLeadingZero_cases (s : List Char) :
    withLeadingZero s = s
      ∨ ∃ (sign : Operator) (t : List Char), sign.isAdditive = true ∧ s = sign.symbol :: t
        ∧ withLeadingZero s = '0' :: sign.symbol :: t := by
  unfold withLeadingZero
  split
  · exact .inr ⟨.add, _, rfl, rfl, rfl⟩
  · exact .inr ⟨.sub, _, rfl, rfl, rfl⟩
  · exact .inl rfl

/-! ## Brackets -/

namespace Text

/-- The number of brackets open behind a character, of `n` before it; there is none when the
character closes a bracket that is not open. -/
def bracketStep (n : Nat) (c : Char) : Option Nat :=
  if c = '(' then some (n + 1)
  else if c = ')' then if n = 0 then none else some (n - 1)
  else some n

/-- The number of brackets open behind a text that starts with `n` open ones, unless the text
closes one that is not open. -/
def bracketsOpen (n : Nat) (s : List Char) : Option Nat := s.foldlM bracketStep n

/-- Whether every bracket of a text has its partner in it. -/
def IsBalanced (s : List Char) : Prop := bracketsOpen 0 s = some 0

/-- A text less its blanks. -/
def withoutBlanks (s : List Char) : List Char := s.filter fun c => !isBlank c

theorem bracketStep_of_ne {c : Char} (h : c ≠ '(' ∧ c ≠ ')') (n : Nat) :
    bracketStep n c = some n := by rw [bracketStep, if_neg h.1, if_neg h.2]

theorem bracketsOpen_cons (n : Nat) (c : Char) (s : List Char) :
    bracketsOpen n (c :: s) = (bracketStep n c).bind fun m => bracketsOpen m s := List.foldlM_cons

theorem bracketsOpen_append (n : Nat) (s t : List Char) :
    bracketsOpen n (s ++ t) = (bracketsOpen n s).bind fun m => bracketsOpen m t :=
  List.foldlM_append

theorem bracketStep_add {n m : Nat} {c : Char} (h : bracketStep n c = some m) (k : Nat) :
    bracketStep (n + k) c = some (m + k) := by
  simp only [bracketStep] at h ⊢
  grind

/-- Brackets that are open from the start stay so. -/
theorem bracketsOpen_add {n m : Nat} {s : List Char} (h : bracketsOpen n s = some m) (k : Nat) :
    bracketsOpen (n + k) s = some (m + k) := by
  induction s generalizing n with
  | nil => rw [Option.some.inj h]; rfl
  | cons c s ih =>
    rw [bracketsOpen_cons, Option.bind_eq_some_iff] at h
    obtain ⟨n', hstep, hrest⟩ := h
    rw [bracketsOpen_cons, bracketStep_add hstep k]
    exact ih hrest

theorem IsBalanced.append {s t : List Char} (hs : IsBalanced s) (ht : IsBalanced t) :
    IsBalanced (s ++ t) := by
  rw [IsBalanced, bracketsOpen_append, show bracketsOpen 0 s = some 0 from hs]
  exact ht

/-- Brackets around a balanced text balance it again. -/
theorem IsBalanced.bracket {s : List Char} (h : IsBalanced s) :
    IsBalanced ('(' :: (s ++ [')'])) := by
  have hs : bracketsOpen 1 s = some 1 := bracketsOpen_add h 1
  rw [IsBalanced, bracketsOpen_cons]
  exact (bracketsOpen_append 1 s [')']).trans (by rw [hs]; rfl)

theorem isBalanced_of_forall {s : List Char} (h : ∀ c ∈ s, c ≠ '(' ∧ c ≠ ')') : IsBalanced s := by
  induction s with
  | nil => rfl
  | cons c s ih =>
    rw [IsBalanced, bracketsOpen_cons, bracketStep_of_ne (h c List.mem_cons_self)]
    exact ih fun d hd => h d (List.mem_cons_of_mem _ hd)

@[simp] theorem withoutBlanks_nil : withoutBlanks [] = [] := rfl

@[simp] theorem withoutBlanks_append (s t : List Char) :
    withoutBlanks (s ++ t) = withoutBlanks s ++ withoutBlanks t := List.filter_append s t

theorem withoutBlanks_cons_of_blank {c : Char} (h : isBlank c = true) (s : List Char) :
    withoutBlanks (c :: s) = withoutBlanks s := List.filter_cons_of_neg (by simp [h])

theorem withoutBlanks_cons_of_not_blank {c : Char} (h : isBlank c = false) (s : List Char) :
    withoutBlanks (c :: s) = c :: withoutBlanks s := List.filter_cons_of_pos (by simp [h])

theorem withoutBlanks_of_forall {s : List Char} (h : ∀ c ∈ s, isBlank c = false) :
    withoutBlanks s = s := List.filter_eq_self.2 fun c hc => by rw [h c hc]; rfl

theorem withoutBlanks_eq_nil_iff {s : List Char} :
    withoutBlanks s = [] ↔ ∀ c ∈ s, isBlank c = true := by
  simp only [withoutBlanks, List.filter_eq_nil_iff, Bool.not_eq_true', Bool.not_eq_false]

/-- A cut of a text less its blanks is one of the text. -/
theorem exists_of_withoutBlanks_eq_append {s t u : List Char} (h : withoutBlanks s = t ++ u) :
    ∃ a b, s = a ++ b ∧ withoutBlanks a = t ∧ withoutBlanks b = u :=
  List.filter_eq_append_iff.1 h

/-- Only blanks are left out in front of its first character. -/
theorem exists_of_withoutBlanks_eq_cons {s t : List Char} {c : Char}
    (h : withoutBlanks s = c :: t) :
    ∃ gap rest, s = gap ++ c :: rest ∧ withoutBlanks gap = [] ∧ withoutBlanks rest = t := by
  obtain ⟨gap, rest, rfl, hgap, -, hrest⟩ := List.filter_eq_cons_iff.1 h
  exact ⟨gap, rest, rfl, List.filter_eq_nil_iff.2 hgap, hrest⟩

/-- Blanks are no brackets. -/
theorem bracketsOpen_withoutBlanks (n : Nat) (s : List Char) :
    bracketsOpen n (withoutBlanks s) = bracketsOpen n s := by
  induction s generalizing n with
  | nil => rfl
  | cons c s ih =>
    cases hblank : isBlank c with
    | true =>
      have hc : c ≠ '(' ∧ c ≠ ')' := by
        constructor <;> rintro rfl <;> exact absurd hblank (by decide)
      rw [withoutBlanks_cons_of_blank hblank, bracketsOpen_cons, bracketStep_of_ne hc]
      exact ih n
    | false =>
      rw [withoutBlanks_cons_of_not_blank hblank, bracketsOpen_cons, bracketsOpen_cons]
      simp only [ih]

theorem isBalanced_withoutBlanks {s : List Char} : IsBalanced (withoutBlanks s) ↔ IsBalanced s := by
  rw [IsBalanced, IsBalanced, bracketsOpen_withoutBlanks]

end Text

/-! ## Single characters -/

/-- An operand that an operator ends has a tree. -/
theorem Operand.node?_of_close {o : Operand} {i : Nat} {n : Node} (h : o.close i = .ok n) :
    o.node? = some n := by
  unfold Operand.close at h
  grind

/-- An operand that an operator cannot end is a function that waits, or has no tree. -/
theorem Operand.cases_of_close_error {o : Operand} {i : Nat} {e : ParseError}
    (h : o.close i = .error e) :
    (∃ f, o = .callee f ∧ e = ⟨.argumentExpected, some i⟩)
      ∨ ((∀ f, o ≠ .callee f) ∧ o.node? = none ∧ e = ⟨.operandExpected, some i⟩) := by
  unfold Operand.close at h
  grind

section PushOperator

variable {limit : Nat} {sub : SubReading} {previous op : Operator} {left value : Node}
  {rest : List Char}

theorem pushOperator_of_nests (h : nestsRight previous op = true) :
    pushOperator limit sub op rest (some ⟨left, previous⟩) value
      = (sub (some ⟨value, op⟩) rest).bind fun nested =>
          (Node.join limit previous left nested).map .done := by
  have h' : (previous.isAdditive && !op.isAdditive) = true := h
  rw [pushOperator, if_pos h']
  refine congrArg (Except.bind _) (funext fun nested => ?_)
  cases Node.join limit previous left nested <;> rfl

theorem pushOperator_of_not_nests (h : nestsRight previous op = false) :
    pushOperator limit sub op rest (some ⟨left, previous⟩) value
      = (Node.join limit previous left value).map fun node =>
          .more (.start (some ⟨node, op⟩)) := by
  have h' : ¬ (previous.isAdditive && !op.isAdditive) = true := by
    rw [show (previous.isAdditive && !op.isAdditive) = false from h]
    exact Bool.false_ne_true
  rw [pushOperator, if_neg h']
  cases Node.join limit previous left value <;> rfl

end PushOperator

namespace Reading

variable {limit : Nat} {sub : SubReading} {chain : Option Chain}

/-- What a step's outcome makes of the rest of the text. -/
def follow (limit : Nat) (sub : SubReading) (i : Nat) (rest : List Char) :
    Except ParseError Outcome → Except ParseError Node
  | .error e => .error e
  | .ok (.done n) => .ok n
  | .ok (.more r) => r.run limit sub i rest

theorem run_blank {c : Char} (h : Text.isBlank c = true) (r : Reading) (i : Nat)
    (rest : List Char) :
    r.run limit sub i (c :: rest) = r.run limit sub (i + c.utf8Size) rest := by
  rw [run, if_pos h]

theorem run_cons {c : Char} (h : Text.isBlank c = false) (r : Reading) (i : Nat)
    (rest : List Char) :
    r.run limit sub i (c :: rest)
      = follow limit sub (i + c.utf8Size) rest (r.step limit sub i c rest) := by
  rw [run, if_neg (by simp [h])]
  cases r.step limit sub i c rest with
  | error e => rfl
  | ok outcome => cases outcome <;> rfl

/-- An ordinary character goes to the operand. -/
theorem run_ordinary {c : Char} (h : isOrdinary c = true) (o : Operand) (i : Nat)
    (rest : List Char) :
    run limit sub ⟨chain, .operand o⟩ i (c :: rest)
      = follow limit sub (i + c.utf8Size) rest
          ((o.push i c).map fun o => .more ⟨chain, .operand o⟩) := by
  obtain ⟨hblank, hopen, hclose, hop⟩ := isOrdinary_iff.1 h
  rw [run_cons hblank]
  simp only [step, stepOutside, if_neg hopen, if_neg hclose,
    if_neg (ne_callMark_of_ofChar?_eq_none hop), hop]
  cases o.push i c <;> rfl

/-- **An operator** ends a finished operand. -/
theorem run_operator {op : Operator} (hop : op ≠ .apply) {o : Operand} {value : Node}
    (ho : o.node? = some value) (i : Nat) (rest : List Char) :
    run limit sub ⟨chain, .operand o⟩ i (op.symbol :: rest)
      = follow limit sub (i + op.symbol.utf8Size) rest
          (pushOperator limit sub op rest chain value) := by
  have hclose : o.close i = .ok value := by
    cases o with
    | callee f => cases ho
    | _ => simp only [Operand.close, ho]
  have hsymbol : op.symbol ≠ '(' ∧ op.symbol ≠ ')' := by cases op <;> decide
  rw [run_cons (isBlank_symbol op)]
  simp only [step, stepOutside, if_neg hsymbol.1, if_neg hsymbol.2,
    if_neg (symbol_ne_callMark hop), Operator.ofChar?_eq_some_iff.2 rfl, hclose]
  rfl

/-- The `0` in front of a sign is an operand. -/
theorem run_leadingZero {sign : Operator} (h : sign.isAdditive = true) (t : List Char) :
    (start chain).run limit sub 0 ('0' :: sign.symbol :: t)
      = follow limit sub (0 + '0'.utf8Size + sign.symbol.utf8Size) t
          (pushOperator limit sub sign t chain (.leaf (.literal 0))) := by
  have hzero : (Operand.number ['0']).node? = some (.leaf (.literal 0)) := rfl
  rw [start, run_ordinary (by decide)]
  exact run_operator (ne_apply_of_isAdditive h) hzero _ _

/-! ## The end of the text -/

/-- **The end** behind an operand that has a tree. -/
theorem finish_of_node? {o : Operand} {node : Node} (h : o.node? = some node) :
    finish limit ⟨chain, .operand o⟩
      = match chain with
        | none => .ok node
        | some ⟨left, op⟩ => Node.join limit op left node := by
  cases o with
  | callee f => cases h
  | _ => cases chain <;> simp only [finish, h, Option.getD_some]

/-- **The end** where an operand is missing. -/
theorem finish_of_missing {o : Operand} (h : o.node? = none) (hcallee : ∀ f, o ≠ .callee f) :
    finish limit ⟨chain, .operand o⟩
      = match chain with
        | none => .error ⟨.emptyInput, none⟩
        | some ⟨left, op⟩ => Node.join limit op left (.leaf (.literal 0)) := by
  cases o with
  | callee f => exact absurd rfl (hcallee f)
  | _ => cases chain <;> simp only [finish, h, Option.getD_none]

/-! ## Runs of ordinary characters -/

theorem run_number {s : List Char} (h : ∀ c ∈ s, isOrdinary c = true) (text : List Char)
    (i : Nat) (rest : List Char) :
    run limit sub ⟨chain, .operand (.number text)⟩ i (s ++ rest)
      = run limit sub ⟨chain, .operand (.number (s.reverse ++ text))⟩
          (i + Text.byteSize s) rest := by
  induction s generalizing text i with
  | nil => rfl
  | cons c s ih =>
    rw [List.cons_append, run_ordinary (h c List.mem_cons_self)]
    refine (ih (fun d hd => h d (List.mem_cons_of_mem _ hd)) (c :: text) _).trans ?_
    rw [List.reverse_cons, List.append_assoc, Text.byteSize_cons, Nat.add_assoc]
    rfl

theorem run_name {s : List Char} (h : ∀ c ∈ s, isOrdinary c = true ∧ ¬ isNumeral c = true)
    (text : List Char) (i : Nat) (rest : List Char) :
    run limit sub ⟨chain, .operand (.name text)⟩ i (s ++ rest)
      = run limit sub ⟨chain, .operand (.name (s.reverse ++ text))⟩
          (i + Text.byteSize s) rest := by
  induction s generalizing text i with
  | nil => rfl
  | cons c s ih =>
    obtain ⟨hc, hnum⟩ := h c List.mem_cons_self
    rw [List.cons_append, run_ordinary hc, Operand.push, if_neg hnum]
    refine (ih (fun d hd => h d (List.mem_cons_of_mem _ hd)) (c :: text) _).trans ?_
    rw [List.reverse_cons, List.append_assoc, Text.byteSize_cons, Nat.add_assoc]
    rfl

/-! ## Brackets -/

/-- **Inside a bracket** every character but the blanks goes to the content. -/
theorem run_inside {callee : Option String} {inner inner' : Nat} {s : List Char}
    (h : Text.bracketsOpen inner s = some inner') (content : List Char) (i : Nat)
    (rest : List Char) :
    run limit sub ⟨chain, .bracket callee inner content⟩ i (s ++ rest)
      = run limit sub ⟨chain, .bracket callee inner' ((Text.withoutBlanks s).reverse ++ content)⟩
          (i + Text.byteSize s) rest := by
  induction s generalizing inner content i with
  | nil => rw [Option.some.inj h]; rfl
  | cons c s ih =>
    rw [Text.bracketsOpen_cons, Option.bind_eq_some_iff] at h
    obtain ⟨m, hstep, hrest⟩ := h
    rw [List.cons_append, Text.byteSize_cons, ← Nat.add_assoc]
    by_cases hblank : Text.isBlank c = true
    · have hc : c ≠ '(' ∧ c ≠ ')' := by
        constructor <;> rintro rfl <;> exact absurd hblank (by decide)
      obtain rfl : inner = m := Option.some.inj ((Text.bracketStep_of_ne hc inner).symm.trans hstep)
      rw [run_blank hblank, ih hrest, Text.withoutBlanks_cons_of_blank hblank]
    · have hblank : Text.isBlank c = false := by simpa using hblank
      rw [run_cons hblank, Text.withoutBlanks_cons_of_not_blank hblank, List.reverse_cons,
        List.append_assoc]
      have hmore : stepInside limit sub i c callee inner content
          = .ok (.bracket callee m (c :: content)) := by
        simp only [Text.bracketStep] at hstep
        unfold stepInside
        cases inner <;> grind
      simp only [step, hmore]
      exact ih hrest (c :: content) _

/-- **A closed bracket** is the operand that its content, less the blanks, comes to. -/
theorem run_brackets {callee : Option String} {s : List Char} (h : Text.IsBalanced s) (i : Nat)
    (rest : List Char) {n : Node}
    (hn : ∀ i, closeBracket limit sub i callee (Text.withoutBlanks s) = .ok n) :
    run limit sub ⟨chain, .bracket callee 0 []⟩ i (s ++ ')' :: rest)
      = run limit sub ⟨chain, .operand (.finished n)⟩
          (i + Text.byteSize s + ')'.utf8Size) rest := by
  rw [run_inside h, run_cons (by decide)]
  simp only [step, stepInside, if_pos, List.append_nil, List.reverse_reverse, hn]
  rfl

end Reading

end FormulaPlot
