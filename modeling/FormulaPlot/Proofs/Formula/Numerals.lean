import FormulaPlot.Proofs.Formula.RoundTrip

/-!
# Proofs/Formula/Numerals — which numerals are literals

Numbers are read in two layers.  The lower one takes the longest numeral off the front of a text,
with its exponent and the exponent's sign; but what it gets is what the upper one has collected, and
for that one a sign is an operator wherever it stands.  So:

* `parse_numeral` — a numeral is one literal exactly if its exponent has no sign; with a sign, it is
  a sum or a difference of what stands on the two sides.

In front of the sign stands a numeral and the exponent mark; the mark alone is no exponent, so the
numeral in front of it is all that is read (`readFront?_significand_mark`).
-/

namespace FormulaPlot

open Number

/-! ## Preparing -/

/-- Every function has more in its keyword than an exponent mark. -/
theorem exists_mem_keyword_ne (f : Builtin) : ∃ c ∈ f.keyword, c ≠ 'e' := by
  have hany : (f.keyword.any fun c => c != 'e') = true := by cases f <;> rfl
  obtain ⟨c, hc, hne⟩ := List.any_eq_true.1 hany
  exact ⟨c, hc, by simpa using hne⟩

/-- A text whose only letters are exponent marks has no keyword in it. -/
theorem hasNoKeyword_of_marks {s : List Char}
    (h : ∀ c ∈ s, c.isAlpha = true → c = 'e' ∨ c = 'E') : HasNoKeyword s := by
  intro f hf
  obtain ⟨d, hd, hne⟩ := exists_mem_keyword_ne f
  obtain ⟨c, hc, rfl⟩ := List.mem_map.1 (hf.subset hd)
  have hletter := isAlpha_of_isLower_toLower (isLower_of_mem_keyword f _ hd)
  rcases h c hc hletter with rfl | rfl <;> exact hne rfl

/-- A text is prepared already if it has no keyword, and starts and ends with no blank and no
sign. -/
theorem prepare_ofList {s : List Char} (hkeyword : HasNoKeyword s)
    (hhead : ∀ c ∈ s.head?, isOrdinary c = true) (hlast : ∀ c ∈ s.getLast?, isOrdinary c = true) :
    (prepare (String.ofList s)).toList = s := by
  have htrim : Text.trim s = s :=
    Text.trim_of_ends (fun c hc => isBlank_eq_false_of_isOrdinary (hhead c hc))
      fun c hc => isBlank_eq_false_of_isOrdinary (hlast c hc)
  have hmark := markFrom_plain hkeyword (s := []) (by simp)
  rw [List.append_nil, markFrom, List.append_nil] at hmark
  rw [prepare, String.toList_ofList, String.toList_ofList, prepareChars, htrim,
    withLeadingZero_of_head fun c hc => .inl (hhead c hc), markKeywords, hmark]

/-! ## The characters of a numeral -/

theorem isOrdinary_of_isDigit {c : Char} (h : c.isDigit = true) : isOrdinary c = true :=
  isOrdinary_of_isAlphanum (by rw [Char.isAlphanum, h, Bool.or_true])

theorem isOrdinary_of_isNumeral {c : Char} (h : c.isDigit = true ∨ c = '.') :
    isOrdinary c = true := by
  rcases h with h | rfl
  · exact isOrdinary_of_isDigit h
  · decide

theorem isNumeral_of_isDigit_or {c : Char} (h : c.isDigit = true ∨ c = '.') :
    isNumeral c = true := by
  rcases h with h | rfl
  · rw [isNumeral, h, Bool.true_or]
  · rfl

section Characters

variable {n : Numeral} (h : n.IsWellFormed)
include h

/-- A numeral, with ordinary characters behind what is in front of its exponent, is a number's
run. -/
theorem isNumberRun_significand_append {t : List Char} (ht : ∀ c ∈ t, isOrdinary c = true) :
    IsNumberRun (n.significand ++ t) := by
  obtain ⟨c, s, hcons⟩ := List.exists_cons_of_ne_nil h.significand_ne_nil
  have hc := h.forall_significand c (by rw [hcons]; exact List.mem_cons_self)
  refine ⟨c, s ++ t, by rw [hcons]; rfl, isNumeral_of_isDigit_or hc, fun d hd => ?_⟩
  rcases List.mem_append.1 hd with hd | hd
  · exact isOrdinary_of_isNumeral (h.forall_significand d hd)
  · exact ht d hd

/-- **Without digits of its own an exponent mark is left over.** -/
theorem readFront?_significand_mark {c : Char} (hc : c = 'e' ∨ c = 'E') :
    readFront? (n.significand ++ [c]) = some n.plain.value.toFloat := by
  have hhead : ∀ d ∈ [c].head?, d.isDigit = false ∧ d ≠ '.' := by
    intro d hd
    obtain rfl : c = d := Option.some.inj hd
    rcases hc with rfl | rfl <;> decide
  have hsplit : Numeral.split? (n.significand ++ [c]) = some (n.plain, [c]) := by
    rw [Numeral.split?_significand_append h hhead, Exponent.split?_mark]
  exact readFront?_of_split? hsplit

end Characters

/-! ## Reading -/

/-- Two literals make a tree of depth two. -/
theorem join_literals (limit : Nat) (op : Operator) (a b : Float) :
    (Node.join limit op (.of (.literal a)) (.of (.literal b))).map Node.expr
      = if limit < 2 then .error ⟨.tooDeep limit, none⟩
        else .ok (.node op (.literal a) (.literal b)) := by
  have hjoin : Node.join limit op (.of (.literal a)) (.of (.literal b))
      = if limit < 2 then .error ⟨.tooDeep limit, none⟩
        else .ok (.of (.node op (.literal a) (.literal b))) := rfl
  rw [hjoin, apply_ite (Except.map Node.expr)]
  rfl

section Numerals

variable {n : Numeral} (h : n.IsWellFormed)
include h

/-- **A numeral is prepared already.** -/
theorem prepare_numeral : (prepare (String.ofList n.chars)).toList = n.chars := by
  refine prepare_ofList (hasNoKeyword_of_marks fun c hc hletter => ?_) (fun c hc => ?_)
    fun c hc => ?_
  · rcases h.mem_chars hc with hc | hc | hc | hc
    · rw [isAlpha_eq_false_of_isDigit hc] at hletter
      cases hletter
    · rw [hc] at hletter
      cases hletter
    · exact hc
    · rcases hc with rfl | rfl <;> cases hletter
  · obtain ⟨d, s, hcons, hd⟩ := h.exists_cons
    rw [hcons] at hc
    exact Option.some.inj hc ▸ isOrdinary_of_isNumeral hd
  · exact isOrdinary_of_isNumeral (h.getLast_chars hc)

/-- A numeral whose exponent has no sign is a number's run. -/
theorem isNumberRun_chars_of_unsigned (hsign : ∀ e ∈ n.exponent, e.sign = none) :
    IsNumberRun n.chars := by
  rw [Numeral.chars_eq]
  refine isNumberRun_significand_append h fun c hc => ?_
  cases hexp : n.exponent with
  | none => rw [hexp] at hc; cases hc
  | some e =>
    have he := h.exponent e hexp
    rw [hexp, Option.elim_some, Exponent.chars, hsign e hexp, Option.toList_none,
      List.nil_append] at hc
    rcases List.mem_cons.1 hc with rfl | hc
    · rcases he.mark with hmark | hmark <;> rw [hmark] <;> decide
    · exact isOrdinary_of_isDigit (he.digits c hc)

/-- **Without a sign in its exponent** a numeral is one literal. -/
theorem parse_unsigned (hsign : ∀ e ∈ n.exponent, e.sign = none) (limit : Nat) :
    parse limit (String.ofList n.chars) = .ok (.literal n.value.toFloat) := by
  have hconsumes : Consumes limit (readWithin limit limit) n.chars (.of (.literal _)) :=
    consumes_number (isNumberRun_chars_of_unsigned h hsign) (readFront?_of_split? h.split?_chars)
  have hzero : withLeadingZero n.chars = n.chars := by
    refine withLeadingZero_of_head fun c hc => .inl ?_
    exact (isNumberRun_chars_of_unsigned h hsign).forall c (List.mem_of_mem_head? hc)
  rw [parse, parsePrepared, parseChars, prepare_numeral h, readWithin_operand hconsumes hzero]
  rfl

/-- **With a sign in its exponent** a numeral is an operation on what the sign parts. -/
theorem parse_signed {e : Exponent} (hexp : n.exponent = some e) {sign : Operator}
    (hsign : e.sign = some sign.symbol) (hadditive : sign.isAdditive = true) (limit : Nat) :
    parse limit (String.ofList n.chars)
      = if limit < 2 then .error ⟨.tooDeep limit, none⟩
        else .ok (.node sign (.literal n.plain.value.toFloat)
          (.literal (Numeral.mk e.digits none none).value.toFloat)) := by
  have he := h.exponent e hexp
  have hchars : n.chars = (n.significand ++ [e.mark]) ++ sign.symbol :: e.digits := by
    rw [Numeral.chars_eq, hexp, Option.elim_some, Exponent.chars, hsign, List.append_assoc]
    rfl
  have hmark : isOrdinary e.mark = true := by
    rcases he.mark with hmark | hmark <;> rw [hmark] <;> decide
  have hleft : IsNumberRun (n.significand ++ [e.mark]) :=
    isNumberRun_significand_append h (List.forall_mem_singleton.2 hmark)
  have hdigits := Numeral.isWellFormed_digits he.digits he.nonempty
  have hright : IsNumberRun e.digits := by
    have hrun := isNumberRun_chars_of_unsigned hdigits fun _ he => absurd he (Option.not_mem_none _)
    rwa [Numeral.chars_digits] at hrun
  have hvalue := readFront?_of_split? (Numeral.split?_digits he.digits he.nonempty)
  have hzero : withLeadingZero n.chars = n.chars := by
    obtain ⟨c, s, hcons, hc⟩ := h.exists_cons
    rw [hcons]
    exact withLeadingZero_cons (.inl (isOrdinary_of_isNumeral hc)) s
  rw [parse, parsePrepared, parseChars, prepare_numeral h]
  rw [hchars] at hzero ⊢
  rw [readWithin_join (ne_apply_of_isAdditive hadditive)
    (consumes_number hleft (readFront?_significand_mark h he.mark)) (consumes_number hright hvalue)
    hzero, join_literals]

end Numerals

/-- **A numeral is one literal exactly if its exponent has no sign.**  Every well-formed numeral is
taken off the front of its spelling as a whole, and spells a number; but only without a sign in the
exponent its spelling is parsed to that number, whatever the limit.  With one, it is parsed to a sum
or a difference, of what stands in front of the exponent and the digits behind the sign. -/
theorem parse_numeral {n : Numeral} (h : n.IsWellFormed) (limit : Nat) :
    Numeral.split? n.chars = some (n, [])
      ∧ ∃ v, read? n.chars = some v
        ∧ (parse limit (String.ofList n.chars) = .ok (.literal v)
            ↔ ∀ e ∈ n.exponent, e.sign = none)
        ∧ ∀ e ∈ n.exponent, ∀ c ∈ e.sign, ∃ (sign : Operator) (a b : Float),
            sign.isAdditive = true ∧ sign.symbol = c
              ∧ read? n.significand = some a ∧ read? e.digits = some b
              ∧ parse limit (String.ofList n.chars)
                = if limit < 2 then .error ⟨.tooDeep limit, none⟩
                  else .ok (.node sign (.literal a) (.literal b)) := by
  have hsigned : ∀ e ∈ n.exponent, ∀ c ∈ e.sign, ∃ (sign : Operator) (a b : Float),
      sign.isAdditive = true ∧ sign.symbol = c
        ∧ read? n.significand = some a ∧ read? e.digits = some b
        ∧ parse limit (String.ofList n.chars)
          = if limit < 2 then .error ⟨.tooDeep limit, none⟩
            else .ok (.node sign (.literal a) (.literal b)) := by
    intro e hexp c hc
    have he := h.exponent e hexp
    obtain ⟨sign, hadditive, rfl⟩ :
        ∃ sign : Operator, sign.isAdditive = true ∧ sign.symbol = c := by
      rcases he.sign c hc with rfl | rfl
      · exact ⟨.add, rfl, rfl⟩
      · exact ⟨.sub, rfl, rfl⟩
    have hleft := read?_chars h.plain
    have hright := read?_chars (Numeral.isWellFormed_digits he.digits he.nonempty)
    rw [Numeral.chars_plain] at hleft
    rw [Numeral.chars_digits] at hright
    exact ⟨sign, _, _, hadditive, rfl, hleft, hright, parse_signed h hexp hc hadditive limit⟩
  refine ⟨h.split?_chars, _, read?_chars h, ⟨fun hliteral e hexp => ?_, fun hsign => ?_⟩, hsigned⟩
  · -- A tree with an operation in it is no literal, and neither is a fault.
    refine Option.eq_none_iff_forall_not_mem.2 fun c hc => ?_
    obtain ⟨sign, a, b, -, -, -, -, hparse⟩ := hsigned e hexp c hc
    rw [hparse] at hliteral
    split at hliteral <;> cases hliteral
  · exact parse_unsigned h hsign limit

/-- A fraction and an exponent, without a sign and with one. -/
theorem parse_numeral_exponents :
    let hundreds : Numeral := ⟨['1'], some ['5'], some ⟨'E', none, ['2']⟩⟩
    let tenths : Numeral := ⟨[], some ['5'], some ⟨'e', some '-', ['1']⟩⟩
    (hundreds.IsWellFormed ∧ parse 1 "1.5E2" = .ok (.literal 150))
      ∧ (tenths.IsWellFormed ∧ parse 1 ".5e-1" = .error ⟨.tooDeep 1, none⟩) := by
  intro hundreds tenths
  have hhundreds : hundreds.IsWellFormed := by decide
  have htenths : tenths.IsWellFormed := by decide
  obtain ⟨-, v, hread, hliteral, -⟩ := parse_numeral hhundreds 1
  obtain rfl : 150 = v := by
    have hvalue : read? hundreds.chars = some 150 := by decide +kernel
    exact Option.some.inj (hvalue.symm.trans hread)
  obtain ⟨-, -, -, -, hsigned⟩ := parse_numeral htenths 1
  obtain ⟨sign, a, b, -, -, -, -, hparse⟩ := hsigned ⟨'e', some '-', ['1']⟩ rfl '-' rfl
  have hunsigned : ∀ e ∈ hundreds.exponent, e.sign = none := by decide
  exact ⟨⟨hhundreds, hliteral.2 hunsigned⟩, htenths, hparse⟩

/-- A negative power of ten: the number that the text spells, and what it is parsed to. -/
theorem parse_negative_power :
    let n : Numeral := ⟨['1'], none, some ⟨'e', some '-', ['5']⟩⟩
    n.IsWellFormed ∧ String.ofList n.chars = "1e-5" ∧ read? n.chars = some 0.00001
      ∧ parse 256 "1e-5" = .ok (.node .sub (.literal 1) (.literal 5)) := by
  decide +kernel

end FormulaPlot
