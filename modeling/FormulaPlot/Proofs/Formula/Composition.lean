import FormulaPlot.Proofs.Formula.Blanks
import FormulaPlot.Proofs.Formula.Brackets
import FormulaPlot.Proofs.Formula.Depth
import FormulaPlot.Proofs.Formula.Marks
import FormulaPlot.Proofs.Formula.RoundTrip

/-!
# Proofs/Formula/Composition — formulas put together from formulas

A formula in brackets has its own tree, a function's keyword in front of the brackets calls the
function on it, and an operator between two such brackets joins their trees, under every limit above
one that accepts the parts (`parse_composed`).

Inside brackets a formula is prepared as part of a longer text: its ends are not trimmed, its
keywords are marked where they stand, its blanks are left out, and the `0` in front of its sign
comes when its content is read.  Marking is local (`markFrom_append`), so what is read in the end is
the prepared formula less its blanks (`withoutBlanks_markKeywords`), and that has the same tree with
room to spare (`readWithin_content`).
-/

namespace FormulaPlot

/-! ## Marking is local -/

section Marking

variable {a s : List Char}

/-- The keyword at the start of a text ends in front of a character that is no letter. -/
theorem keywordAt?_append (hs : ∀ c ∈ s.head?, c.isAlpha = false) (a : List Char) :
    keywordAt? (a ++ s) = keywordAt? a := by
  have hstarts : (fun f : Builtin => startsWithKeyword f.keyword (a ++ s))
      = fun f : Builtin => startsWithKeyword f.keyword a := by
    funext f
    rw [Bool.eq_iff_iff, startsWithKeyword_iff, startsWithKeyword_iff,
      keyword_prefix_append_iff (isLower_of_mem_keyword f) hs]
  rw [keywordAt?, hstarts, keywordAt?]

theorem keywordLength_le (a : List Char) : keywordLength a ≤ a.length := by
  rw [keywordLength]
  cases hfind : keywordAt? a with
  | none => exact Nat.zero_le _
  | some f =>
    have hstarts : startsWithKeyword f.keyword a = true :=
      List.find?_some (p := fun f : Builtin => startsWithKeyword f.keyword a) hfind
    have hlength := (startsWithKeyword_iff.1 hstarts).length_le
    rwa [List.length_map] at hlength

/-- **Marking is local**: a text ends in front of a character that is neither a letter nor the call
mark, and is marked as it is by itself. -/
theorem markFrom_append (hs : ∀ c ∈ s.head?, c.isAlpha = false) (hmark : s.head? ≠ some callMark)
    {n : Nat} (hn : n ≤ a.length) : markFrom n (a ++ s) = markFrom n a ++ markFrom 0 s := by
  induction a generalizing n with
  | nil =>
    obtain rfl := Nat.le_zero.1 hn
    rw [markFrom, List.nil_append, List.nil_append]
  | cons c a ih =>
    have hlength : keywordLength (c :: a ++ s) = keywordLength (c :: a) := by
      rw [keywordLength, keywordAt?_append hs, keywordLength]
    have hle : (if n = 0 then keywordLength (c :: a) else n) ≤ a.length + 1 := by
      split
      · exact keywordLength_le (c :: a)
      · exact hn
    rw [List.cons_append] at hlength ⊢
    rw [markFrom, markFrom, hlength]
    revert hle
    generalize (if n = 0 then keywordLength (c :: a) else n) = k
    intro hle
    cases k with
    | zero => exact congrArg (c :: ·) (ih (Nat.zero_le _))
    | succ k =>
      cases k with
      | zero =>
        have hhead : (a ++ s).head? = some callMark ↔ a.head? = some callMark := by
          cases a with
          | nil => simp [hmark]
          | cons d a => rfl
        simp only [hhead, ih (Nat.zero_le _)]
        split <;> rfl
      | succ k => exact congrArg (c :: ·) (ih (Nat.le_of_succ_le_succ hle))

/-- A text without letters is copied. -/
theorem markFrom_append_of_forall (ha : ∀ c ∈ a, c.isAlpha = false) (s : List Char) :
    markFrom 0 (a ++ s) = a ++ markFrom 0 s := by
  induction a with
  | nil => rfl
  | cons c a ih =>
    obtain ⟨hc, ha⟩ := List.forall_mem_cons.1 ha
    rw [List.cons_append, markFrom_cons hc, ih ha]
    rfl

end Marking

theorem isAlpha_eq_false_of_isBlank {c : Char} (h : Text.isBlank c = true) : c.isAlpha = false := by
  refine Bool.eq_false_iff.2 fun halpha => ?_
  have hblank : Text.isBlank c = false :=
    isBlank_eq_false_of_isAlphanum (by rw [Char.isAlphanum, halpha, Bool.true_or])
  rw [h] at hblank
  cases hblank

/-- **Trimming does nothing but leave out blanks**, as far as marking goes. -/
theorem withoutBlanks_markKeywords (s : List Char) :
    Text.withoutBlanks (markKeywords s) = Text.withoutBlanks (markKeywords (Text.trim s)) := by
  obtain ⟨before, after, hs, hbefore, hafter, -⟩ := Text.exists_trim s
  have hhead {c : Char} (hc : c ∈ after.head?) : Text.isBlank c = true :=
    hafter c (List.mem_of_mem_head? hc)
  have hmark : after.head? ≠ some callMark := by
    intro h
    exact absurd (hhead h) (by decide)
  have hcopy : markFrom 0 (after ++ []) = after ++ markFrom 0 [] :=
    markFrom_append_of_forall (fun c hc => isAlpha_eq_false_of_isBlank (hafter c hc)) []
  rw [List.append_nil, markFrom, List.append_nil] at hcopy
  have hsplit : markKeywords s = before ++ (markKeywords (Text.trim s) ++ after) := by
    conv_lhs => rw [hs]
    rw [markKeywords,
      markFrom_append_of_forall fun c hc => isAlpha_eq_false_of_isBlank (hbefore c hc),
      markFrom_append (fun c hc => isAlpha_eq_false_of_isBlank (hhead hc)) hmark (Nat.zero_le _),
      hcopy, markKeywords]
  rw [hsplit, Text.withoutBlanks_append, Text.withoutBlanks_append,
    Text.withoutBlanks_eq_nil_iff.2 hbefore, Text.withoutBlanks_eq_nil_iff.2 hafter,
    List.nil_append, List.append_nil]

/-! ## Reading a content -/

theorem withLeadingZero_idem (s : List Char) :
    withLeadingZero (withLeadingZero s) = withLeadingZero s := by
  rcases withLeadingZero_cases s with hzero | ⟨sign, u, -, rfl, hzero⟩
  · rw [hzero, hzero]
  · rw [hzero]
    rfl

/-- The `0` may as well come when keywords are marked. -/
theorem markKeywords_withLeadingZero (s : List Char) :
    markKeywords (withLeadingZero s) = withLeadingZero (markKeywords s) := by
  cases s with
  | nil => rfl
  | cons c s =>
    by_cases hsign : c = '+' ∨ c = '-'
    · have hletter : c.isAlpha = false := by rcases hsign with rfl | rfl <;> rfl
      rw [withLeadingZero_sign hsign, markKeywords, markFrom_cons rfl, markFrom_cons hletter,
        markKeywords, markFrom_cons hletter, withLeadingZero_sign hsign]
    · have hhead : ∀ d ∈ (c :: s).head?, d ≠ '+' ∧ d ≠ '-' :=
        fun d hd => Option.some.inj hd ▸ not_or.1 hsign
      rw [withLeadingZero_of_not_sign hhead, withLeadingZero_of_not_sign]
      rwa [markKeywords, head?_markFrom]

/-- A tree is no deeper than the limit. -/
theorem depth_le_max_of_readWithin {limit room : Nat} {t : List Char} {n : Node}
    (h : readWithin limit room none t = .ok n) : n.depth ≤ max 1 limit := by
  have hverdict := @readWithin_eq_verdict limit limit room room none t n (by rintro ch ⟨⟩) h
  refine Decidable.byContradiction fun hnot => ?_
  rw [h, verdict_of_not fun hfits => hnot hfits.2] at hverdict
  cases hverdict

section Content

variable {s : String} {t : Expr} {limit : Nat}

/-- A formula that is read has the same tree when its `0` comes as late as its blanks go. -/
theorem readWithin_of_parse (h : parse limit s = .ok t) :
    readWithin limit (limit + 1) none (Text.withoutBlanks (markKeywords s.toList))
      = .ok (.of t) := by
  rw [parse, parsePrepared, parseChars] at h
  obtain ⟨n, hn, rfl⟩ := exists_of_map_eq_ok h
  have hdepth : n.depth = n.expr.depth := keeps_depth_eq _ _ _ _ _ (by rintro ch ⟨⟩) hn
  have hof : n = .of n.expr := congrArg (Node.mk n.expr) hdepth
  rw [← hof, withoutBlanks_markKeywords]
  have hread : readWithin limit (limit + 1) none (markKeywords (Text.trim s.toList)) = .ok n := by
    rw [prepare, String.toList_ofList, prepareChars, markKeywords_withLeadingZero, readWithin,
      withLeadingZero_idem] at hn
    exact hn
  rcases parts_readWithin limit (limit + 1) none (markKeywords (Text.trim s.toList)) with
    ⟨hsame, -⟩ | ⟨-, p, hp⟩
  · exact hsame.eq_ok_iff.1 hread
  · rw [hp] at hread
    cases hread

/-- **The content of brackets around a formula** is balanced, is not empty, and has its tree. -/
theorem readWithin_content (h : parse limit s = .ok t) {limit' : Nat} (hlimit : limit < limit') :
    Text.IsBalanced (markKeywords s.toList) ∧ Text.withoutBlanks (markKeywords s.toList) ≠ []
      ∧ readWithin limit' limit' none (Text.withoutBlanks (markKeywords s.toList))
        = .ok (.of t) := by
  have hread := readWithin_of_parse h
  refine ⟨?_, fun hnil => ?_, ?_⟩
  · have htruth := truthful_readWithin limit (limit + 1) none
      (Text.withoutBlanks (markKeywords s.toList))
    rw [hread] at htruth
    exact Text.isBalanced_withoutBlanks.1 htruth
  · rw [hnil] at hread
    cases hread
  · have hagrees := @agrees_readWithin limit limit' (Nat.le_of_lt hlimit) (limit + 1) limit' none
      (Text.withoutBlanks (markKeywords s.toList)) (.inl hlimit)
    rw [hread] at hagrees
    rcases hagrees with hdeep | hsame
    · cases hdeep
    · exact hsame.symm

theorem depth_le_of_parse (h : parse limit s = .ok t) (hlimit : 1 ≤ limit) : t.depth ≤ limit := by
  have hdepth := depth_le_max_of_readWithin (readWithin_of_parse h)
  rwa [Nat.max_eq_right hlimit] at hdepth

end Content

/-! ## Brackets, calls and operations -/

/-- The text of a formula in brackets, marked. -/
theorem markFrom_bracket (s : List Char) {u : List Char} :
    markFrom 0 ('(' :: (s ++ ')' :: u)) = '(' :: (markKeywords s ++ ')' :: markFrom 0 u) := by
  have hclose : (')' :: u).head? ≠ some callMark := by rintro ⟨⟩
  rw [markFrom_cons rfl, markFrom_append (head_not_isAlpha rfl u) hclose (Nat.zero_le _),
    markFrom_cons rfl, markKeywords]

/-- A text that starts with an operand and ends with a bracket is only marked. -/
theorem prepareChars_of_ends {s : List Char} (hfirst : ∀ c ∈ s.head?, isOrdinary c = true ∨ c = '(')
    (hlast : [')'] <:+ s) : prepareChars s = markFrom 0 s := by
  have htrim : Text.trim s = s := by
    refine Text.trim_of_ends (fun c hc => ?_) fun c hc => ?_
    · rcases hfirst c hc with hc | rfl
      · exact isBlank_eq_false_of_isOrdinary hc
      · decide
    · obtain ⟨u, rfl⟩ := hlast
      rw [List.getLast?_concat] at hc
      obtain rfl := Option.some.inj hc
      decide
  rw [prepareChars, htrim, withLeadingZero_of_head hfirst, markKeywords]

/-- **A text between brackets**, its own or not, is only marked. -/
theorem prepareChars_bracket (s : List Char) {u : List Char} (hlast : [')'] <:+ ')' :: u) :
    prepareChars ('(' :: (s ++ ')' :: u)) = '(' :: (markKeywords s ++ ')' :: markFrom 0 u) := by
  have hfirst : ∀ c ∈ ('(' :: (s ++ ')' :: u)).head?, isOrdinary c = true ∨ c = '(' :=
    fun c hc => .inr (Option.some.inj hc).symm
  rw [prepareChars_of_ends hfirst (hlast.trans (List.suffix_append ('(' :: s) _)),
    markFrom_bracket]

/-- A formula is read as its prepared text is. -/
theorem parse_of_readWithin {limit : Nat} {s : String} {p : List Char} {e : Expr}
    (hp : prepareChars s.toList = p) (h : readWithin limit (limit + 1) none p = .ok (.of e)) :
    parse limit s = .ok e := by
  rw [parse, parsePrepared, parseChars, prepare, String.toList_ofList, hp, h]
  rfl

section Composed

variable {s : String} {t : Expr} {limit limit' : Nat} (h : parse limit s = .ok t)
  (hlimit : limit < limit')
include h hlimit

/-- **A formula in brackets** is passed as a whole. -/
theorem consumes_of_parse : Consumes limit' (readWithin limit' limit')
    ('(' :: (markKeywords s.toList ++ [')'])) (.of t) := by
  obtain ⟨hbalanced, hne, hread⟩ := readWithin_content h hlimit
  exact consumes_group hbalanced hne hread

theorem parse_bracket : parse limit' ("(" ++ s ++ ")") = .ok t := by
  have hp : prepareChars ("(" ++ s ++ ")").toList = '(' :: (markKeywords s.toList ++ [')']) := by
    have htext : ("(" ++ s ++ ")").toList = '(' :: (s.toList ++ [')']) := by simp
    rw [htext, prepareChars_bracket s.toList (List.suffix_refl [')']), markFrom]
  refine parse_of_readWithin hp ?_
  exact readWithin_operand (consumes_of_parse h hlimit) (withLeadingZero_cons (.inr rfl) _)

/-- **A keyword in front of the brackets** calls its function. -/
theorem parse_call (hpos : 1 ≤ limit) {k : String} {f : Builtin}
    (hk : k.toList.map Char.toLower = f.keyword) :
    parse limit' (k ++ "(" ++ s ++ ")") = .ok (.node .apply (.identifier k) t) := by
  obtain ⟨hbalanced, -, hread⟩ := readWithin_content h hlimit
  have hname := isName_of_spells hk
  have hfirst (u : List Char) : ∀ c ∈ (k.toList ++ u).head?, isOrdinary c = true ∨ c = '(' :=
    fun c hc => .inl (hname.forall c (mem_of_head?_append hname.1 hc))
  have hp : prepareChars (k ++ "(" ++ s ++ ")").toList
      = k.toList ++ '_' :: '(' :: (markKeywords s.toList ++ [')']) := by
    have htext : (k ++ "(" ++ s ++ ")").toList = k.toList ++ '(' :: (s.toList ++ [')']) := by
      simp
    have hbracket : ('(' :: (s.toList ++ [')'])).head? ≠ some callMark := by rintro ⟨⟩
    rw [htext, prepareChars_of_ends (hfirst _) ⟨k.toList ++ '(' :: s.toList, by simp⟩,
      markFrom_keyword hk (head_not_isAlpha rfl _) hbracket, markFrom_bracket, markFrom]
    rfl
  have hdepth : (Expr.node .apply (.identifier (String.ofList k.toList)) t).depth ≤ limit' := by
    have hle := depth_le_of_parse h hpos
    have hpos' := t.depth_pos
    simp only [Expr.depth]
    omega
  have hcall := consumes_call hname hbalanced hread hdepth
  rw [String.ofList_toList] at hcall
  exact parse_of_readWithin hp (readWithin_operand hcall (withLeadingZero_of_head (hfirst _)))

/-- **An operator between two formulas in brackets** joins their trees. -/
theorem parse_operation (hpos : 1 ≤ limit) {s' : String} {t' : Expr}
    (h' : parse limit s' = .ok t') {op : Operator} (hop : op ≠ .apply) :
    parse limit' ("(" ++ s ++ ")" ++ String.singleton op.symbol ++ "(" ++ s' ++ ")")
      = .ok (.node op t t') := by
  have hp : prepareChars
      ("(" ++ s ++ ")" ++ String.singleton op.symbol ++ "(" ++ s' ++ ")").toList
      = '(' :: (markKeywords s.toList ++ [')']) ++ op.symbol ::
          ('(' :: (markKeywords s'.toList ++ [')'])) := by
    have htext : ("(" ++ s ++ ")" ++ String.singleton op.symbol ++ "(" ++ s' ++ ")").toList
        = '(' :: (s.toList ++ ')' :: op.symbol :: '(' :: (s'.toList ++ [')'])) := by simp
    have hsymbol : op.symbol.isAlpha = false := by cases op <;> rfl
    have hlast : [')'] <:+ ')' :: op.symbol :: '(' :: (s'.toList ++ [')']) :=
      List.suffix_append (')' :: op.symbol :: '(' :: s'.toList) [')']
    rw [htext, prepareChars_bracket s.toList hlast, markFrom_cons hsymbol, markFrom_bracket,
      markFrom, List.cons_append, List.append_assoc, List.singleton_append]
  have hdepth : (Expr.node op t t').depth ≤ limit' := by
    have hle := depth_le_of_parse h hpos
    have hle' := depth_le_of_parse h' hpos
    simp only [Expr.depth]
    omega
  refine parse_of_readWithin hp ?_
  exact readWithin_operation hop (consumes_of_parse h hlimit) (consumes_of_parse h' hlimit)
    (withLeadingZero_cons (.inr rfl) _) hdepth

end Composed

/-- **Formulas compose on raw text**: in brackets a formula keeps its tree; a keyword in front of
the brackets, in any ASCII case, calls its function on it; and an arithmetic operator between two
such brackets joins their trees, under every limit above one that accepts the parts. -/
theorem parse_composed {s₁ s₂ : String} {t₁ t₂ : Expr} {m M : Nat} (hm : 1 ≤ m) (hM : m + 1 ≤ M)
    (h₁ : parse m s₁ = .ok t₁) (h₂ : parse m s₂ = .ok t₂) :
    parse M ("(" ++ s₁ ++ ")") = .ok t₁
      ∧ (∀ (k : String) (f : Builtin), k.toList.map Char.toLower = f.keyword →
        parse M (k ++ "(" ++ s₁ ++ ")") = .ok (.node .apply (.identifier k) t₁))
      ∧ ∀ op : Operator, op ≠ .apply →
        parse M ("(" ++ s₁ ++ ")" ++ String.singleton op.symbol ++ "(" ++ s₂ ++ ")")
          = .ok (.node op t₁ t₂) :=
  ⟨parse_bracket h₁ hM, fun _ _ hk => parse_call h₁ hM hm hk,
    fun _ hop => parse_operation h₁ hM hm h₂ hop⟩

/-- Signs, blanks and a keyword inside the brackets, at the least limit. -/
theorem parse_composed_signed :
    1 ≤ 2 ∧ 2 + 1 ≤ 3 ∧ parse 2 " -x " = .ok (.node .sub (.literal 0) (.identifier "x"))
      ∧ parse 2 "Sin( y)" = .ok (.node .apply (.identifier "Sin") (.identifier "y"))
      ∧ parse 3 "( -x )" = .ok (.node .sub (.literal 0) (.identifier "x"))
      ∧ "COS".toList.map Char.toLower = Builtin.cos.keyword
      ∧ parse 3 "COS( -x )" = .ok (.node .apply (.identifier "COS")
          (.node .sub (.literal 0) (.identifier "x")))
      ∧ Operator.pow ≠ .apply
      ∧ parse 3 "( -x )^(Sin( y))" = .ok (.node .pow (.node .sub (.literal 0) (.identifier "x"))
          (.node .apply (.identifier "Sin") (.identifier "y"))) := by
  have hminus : parse 2 " -x " = .ok (.node .sub (.literal 0) (.identifier "x")) := rfl
  have hcall : parse 2 "Sin( y)" = .ok (.node .apply (.identifier "Sin") (.identifier "y")) := rfl
  have hcomposed := parse_composed (Nat.le_succ 1) (Nat.le_refl 3) hminus hcall
  exact ⟨Nat.le_succ 1, Nat.le_refl 3, hminus, hcall, hcomposed.1, rfl,
    hcomposed.2.1 "COS" .cos rfl, by decide, hcomposed.2.2 .pow (by decide)⟩

end FormulaPlot
