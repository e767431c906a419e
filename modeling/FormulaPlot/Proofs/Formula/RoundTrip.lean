import FormulaPlot.Expr.Display
import FormulaPlot.Proofs.Formula.Completeness
import FormulaPlot.Proofs.Formula.Keywords
import FormulaPlot.Proofs.Number.RoundTrip

/-!
# Proofs/Formula/RoundTrip — a tree reads back from its written form

A printable tree, written out and parsed, is the tree again, under every limit that its depth keeps
(`parse_display`).  Preparing a written form does nothing but mark its calls, so the text that is
read is the tree's spelling (`prepareChars_chars`).  Every operation stands in brackets of its own;
reading passes a spelling as a whole (`IsPrintable.consumes`), with blanks around the operators or,
inside brackets, without.
-/

namespace FormulaPlot

namespace Expr

/-! ## Printable trees -/

/-- The trees that a written form determines. -/
inductive IsPrintable : Expr → Prop
  | literal {value : Float} (finite : value.isFinite = true)
      (unsigned : Number.isNegative value = false) : IsPrintable (.literal value)
  | identifier {name : String} (isName : IsName name.toList) (plain : HasNoKeyword name.toList) :
      IsPrintable (.identifier name)
  | node {op : Operator} {left right : Expr} (arithmetic : op ≠ .apply)
      (left_printable : IsPrintable left) (right_printable : IsPrintable right) :
      IsPrintable (.node op left right)
  /-- A call is of a function, by its keyword in some ASCII case. -/
  | call {name : String} {f : Builtin} {argument : Expr} (function : Builtin.ofName? name = some f)
      (argument_printable : IsPrintable argument) :
      IsPrintable (.node .apply (.identifier name) argument)

/-! ## Spellings -/

/-- The written form of a tree with its calls marked, and with `gap` around its operators. -/
def spell (gap : List Char) : Expr → List Char
  | literal value => Number.chars value
  | identifier name => name.toList
  | node .apply left right => left.spell gap ++ callMark :: '(' :: (right.spell gap ++ [')'])
  | node op left right =>
    '(' :: (left.spell gap ++ gap ++ op.symbol :: (gap ++ right.spell gap) ++ [')'])

theorem spell_node {op : Operator} (h : op ≠ .apply) (gap : List Char) (left right : Expr) :
    (node op left right).spell gap
      = '(' :: (left.spell gap ++ gap ++ op.symbol :: (gap ++ right.spell gap) ++ [')']) := by
  cases op with
  | apply => exact absurd rfl h
  | _ => rfl

theorem write_node {op : Operator} (h : op ≠ .apply) (left right : Expr) (s : List Char) :
    (node op left right).write s
      = '(' :: left.write (' ' :: op.symbol :: ' ' :: right.write (')' :: s)) := by
  cases op with
  | apply => exact absurd rfl h
  | _ => rfl

end Expr

/-! ## The characters of a spelling -/

/-- The text of a number is a number's run, with no letter in it. -/
theorem isNumberRun_chars {x : Float} (hfinite : x.isFinite = true)
    (hsign : Number.isNegative x = false) :
    IsNumberRun (Number.chars x) ∧ ∀ c ∈ Number.chars x, c.isAlpha = false := by
  obtain ⟨⟨c, t, hcons, hc⟩, hall⟩ := Number.chars_chars hfinite hsign
  constructor
  · refine ⟨c, t, hcons, by rw [isNumeral, hc]; rfl, fun d hd => ?_⟩
    rcases hall d hd with hd | rfl
    · exact isOrdinary_of_isAlphanum (by rw [Char.isAlphanum, hd, Bool.or_true])
    · decide
  · intro d hd
    rcases hall d hd with hd | rfl
    · exact isAlpha_eq_false_of_isDigit hd
    · rfl

theorem withLeadingZero_of_head {s : List Char}
    (h : ∀ c ∈ s.head?, isOrdinary c = true ∨ c = '(') : withLeadingZero s = s := by
  cases s with
  | nil => rfl
  | cons c t => exact withLeadingZero_cons (h c rfl) t

/-! ## Operations in texts -/

section Operation

variable {limit room : Nat} {s t : List Char} {op : Operator}

/-- Two operands and an operator between them are joined by it. -/
theorem readWithin_join {left right : Node} (hop : op ≠ .apply)
    (hs : Consumes limit (readWithin limit room) s left)
    (ht : Consumes limit (readWithin limit room) t right)
    (hzero : withLeadingZero (s ++ op.symbol :: t) = s ++ op.symbol :: t) :
    readWithin limit (room + 1) none (s ++ op.symbol :: t) = Node.join limit op left right := by
  obtain ⟨o, ho, hrun⟩ := hs
  obtain ⟨o', ho', hrun'⟩ := ht
  rw [readWithin, hzero, Reading.start, hrun, Reading.run_operator hop ho]
  have hend := hrun' (some ⟨left, op⟩) (0 + Text.byteSize s + op.symbol.utf8Size) []
  rw [List.append_nil] at hend
  exact hend.trans (Reading.finish_of_node? ho')

/-- They are read as the operation, under a limit that its depth keeps. -/
theorem readWithin_operation {left right : Expr} (hop : op ≠ .apply)
    (hs : Consumes limit (readWithin limit room) s (.of left))
    (ht : Consumes limit (readWithin limit room) t (.of right))
    (hzero : withLeadingZero (s ++ op.symbol :: t) = s ++ op.symbol :: t)
    (hlimit : (Expr.node op left right).depth ≤ limit) :
    readWithin limit (room + 1) none (s ++ op.symbol :: t) = .ok (.of (.node op left right)) :=
  (readWithin_join hop hs ht hzero).trans (Node.join_of hlimit)

end Operation

/-- An operand is read as its tree. -/
theorem readWithin_operand {limit room : Nat} {s : List Char} {e : Expr}
    (hs : Consumes limit (readWithin limit room) s (.of e)) (hzero : withLeadingZero s = s) :
    readWithin limit (room + 1) none s = .ok (.of e) := by
  obtain ⟨o, ho, hrun⟩ := hs
  have hend := hrun none 0 []
  rw [List.append_nil] at hend
  rw [readWithin, hzero]
  exact hend.trans (Reading.finish_of_node? ho)

namespace Expr

/-! ## Spellings as formulas -/

/-- **A spelling without gaps is an operand** with the tree that it spells. -/
theorem IsPrintable.isOperand_spell {e : Expr} (h : e.IsPrintable) :
    IsOperand true (e.spell []) e := by
  induction h with
  | literal finite unsigned =>
    exact .number (isNumberRun_chars finite unsigned).1 (Number.readFront?_chars finite unsigned)
  | @identifier name isName plain =>
    have hoperand : IsOperand true name.toList _ := .name isName
    rwa [String.ofList_toList] at hoperand
  | @node op left right arithmetic _ _ ihl ihr =>
    have hbody := IsBody.plain ihl (.cons arithmetic ihr .nil)
    rw [List.append_nil, assemble_singleton] at hbody
    rw [spell_node arithmetic, List.append_nil, List.nil_append]
    exact .group hbody
  | @call name f argument function _ ih =>
    have hbody := IsBody.plain ih .nil
    rw [List.append_nil, assemble_nil] at hbody
    have hoperand := IsOperand.call (isName_of_ofName? function).2 hbody
    rwa [String.ofList_toList] at hoperand

theorem withoutBlanks_operation {gap : List Char} (hgap : Text.withoutBlanks gap = [])
    (op : Operator) (s t : List Char) :
    Text.withoutBlanks (s ++ gap ++ op.symbol :: (gap ++ t))
      = Text.withoutBlanks s ++ op.symbol :: Text.withoutBlanks t := by
  rw [Text.withoutBlanks_append, Text.withoutBlanks_append,
    Text.withoutBlanks_cons_of_not_blank (isBlank_symbol op), Text.withoutBlanks_append, hgap,
    List.append_nil, List.nil_append]

/-- Less its blanks, a spelling is one without gaps. -/
theorem IsPrintable.withoutBlanks_spell {e : Expr} (h : e.IsPrintable) {gap : List Char}
    (hgap : Text.withoutBlanks gap = []) :
    Text.withoutBlanks (e.spell gap) = e.spell [] := by
  induction h with
  | literal finite unsigned =>
    exact (IsPrintable.literal finite unsigned).isOperand_spell.isSolid.1
  | identifier isName plain =>
    exact (IsPrintable.identifier isName plain).isOperand_spell.isSolid.1
  | @node op left right arithmetic _ _ ihl ihr =>
    have hbracket : Text.isBlank '(' = false := by decide
    have hclose : Text.withoutBlanks [')'] = [')'] := by decide
    rw [spell_node arithmetic, spell_node arithmetic,
      Text.withoutBlanks_cons_of_not_blank hbracket, Text.withoutBlanks_append,
      withoutBlanks_operation hgap, ihl, ihr, hclose, List.append_nil]
    rfl
  | @call name f argument function _ ih =>
    have hname := (isSolid_of_forall (isName_of_ofName? function).2.forall).1
    have hmark : Text.isBlank callMark = false := by decide
    have hbracket : Text.isBlank '(' = false := by decide
    have hclose : Text.withoutBlanks [')'] = [')'] := by decide
    simp only [spell, Text.withoutBlanks_append, Text.withoutBlanks_cons_of_not_blank hmark,
      Text.withoutBlanks_cons_of_not_blank hbracket, hname, ih, hclose]

theorem IsPrintable.isBalanced_spell {e : Expr} (h : e.IsPrintable) {gap : List Char}
    (hgap : Text.withoutBlanks gap = []) : Text.IsBalanced (e.spell gap) := by
  rw [← Text.isBalanced_withoutBlanks, h.withoutBlanks_spell hgap]
  exact h.isOperand_spell.isSolid.2

/-! ## Preparing -/

/-- **Marking a written form** marks its calls. -/
theorem IsPrintable.markFrom_write {e : Expr} (h : e.IsPrintable) {s : List Char}
    (hs : ∀ c ∈ s.head?, c.isAlpha = false) :
    markFrom 0 (e.write s) = e.spell [' '] ++ markFrom 0 s := by
  induction h generalizing s with
  | literal finite unsigned =>
    exact markFrom_plain (hasNoKeyword_of_forall (isNumberRun_chars finite unsigned).2) hs
  | identifier isName plain => exact markFrom_plain plain hs
  | @node op left right arithmetic _ _ ihl ihr =>
    have hsymbol : op.symbol.isAlpha = false := by cases op <;> rfl
    have hright := ihr (head_not_isAlpha (c := ')') rfl s)
    have hleft := ihl (head_not_isAlpha (c := ' ') rfl
      (op.symbol :: ' ' :: right.write (')' :: s)))
    rw [write_node arithmetic, spell_node arithmetic, markFrom_cons rfl, hleft, markFrom_cons rfl,
      markFrom_cons hsymbol, markFrom_cons rfl, hright, markFrom_cons rfl]
    simp only [List.cons_append, List.append_assoc, List.nil_append]
  | @call name f argument function _ ih =>
    have hargument := ih (head_not_isAlpha (c := ')') rfl s)
    have hbracket : ('(' :: argument.write (')' :: s)).head? ≠ some callMark := by
      rw [List.head?_cons]
      decide
    have hname := markFrom_keyword (isName_of_ofName? function).1 (head_not_isAlpha rfl _) hbracket
    rw [write, write, hname, markFrom_cons rfl, hargument, markFrom_cons rfl]
    simp only [spell, List.cons_append, List.append_assoc, List.nil_append]

theorem IsPrintable.markKeywords_chars {e : Expr} (h : e.IsPrintable) :
    markKeywords e.chars = e.spell [' '] := by
  have hmark := h.markFrom_write (s := []) (by simp)
  rw [markKeywords, chars, hmark]
  exact List.append_nil _

/-- A written form starts with an ordinary character or a bracket. -/
theorem IsPrintable.head_chars {e : Expr} (h : e.IsPrintable) :
    ∀ c ∈ e.chars.head?, isOrdinary c = true ∨ c = '(' := by
  intro c hc
  cases h with
  | literal finite unsigned =>
    rw [chars, write, List.append_nil] at hc
    exact .inl ((isNumberRun_chars finite unsigned).1.forall c (List.mem_of_mem_head? hc))
  | identifier isName plain =>
    rw [chars, write, List.append_nil] at hc
    exact .inl (isName.forall c (List.mem_of_mem_head? hc))
  | node arithmetic hleft hright =>
    rw [chars, write_node arithmetic] at hc
    exact .inr (Option.some.inj hc).symm
  | call function hargument =>
    have hname := (isName_of_ofName? function).2
    rw [chars, write, write, List.head?_append_of_ne_nil _ hname.1] at hc
    exact .inl (hname.forall c (List.mem_of_mem_head? hc))

/-- It ends with one too. -/
theorem IsPrintable.getLast_chars {e : Expr} (h : e.IsPrintable) :
    ∀ c ∈ e.chars.getLast?, isOrdinary c = true ∨ c = ')' := by
  intro c hc
  have hclose {s t : List Char} (hs : s = t ++ [')']) (hc : c ∈ s.getLast?) : c = ')' := by
    rw [hs, List.getLast?_concat] at hc
    exact (Option.some.inj hc).symm
  cases h with
  | literal finite unsigned =>
    rw [chars, write, List.append_nil] at hc
    exact .inl ((isNumberRun_chars finite unsigned).1.forall c (List.mem_of_mem_getLast? hc))
  | identifier isName plain =>
    rw [chars, write, List.append_nil] at hc
    exact .inl (isName.forall c (List.mem_of_mem_getLast? hc))
  | @node op left right arithmetic hleft hright =>
    refine .inr (hclose (t := '(' :: left.write (' ' :: op.symbol :: ' ' :: right.chars)) ?_ hc)
    rw [chars, write_node arithmetic, write_eq_append right, write_eq_append left,
      write_eq_append left]
    simp only [List.cons_append, List.append_assoc]
  | @call name f argument function hargument =>
    refine .inr (hclose (t := name.toList ++ '(' :: argument.chars) ?_ hc)
    rw [chars, write, write, write_eq_append argument]
    simp only [List.cons_append, List.append_assoc]

/-- **A prepared written form** is the spelling of the tree. -/
theorem IsPrintable.prepareChars_chars {e : Expr} (h : e.IsPrintable) :
    prepareChars e.chars = e.spell [' '] := by
  have htrim : Text.trim e.chars = e.chars := by
    refine Text.trim_of_ends (fun c hc => ?_) fun c hc => ?_
    · rcases h.head_chars c hc with hc | rfl
      · exact isBlank_eq_false_of_isOrdinary hc
      · decide
    · rcases h.getLast_chars c hc with hc | rfl
      · exact isBlank_eq_false_of_isOrdinary hc
      · decide
  rw [prepareChars, htrim, withLeadingZero_of_head h.head_chars, h.markKeywords_chars]

/-- It has no sign in front. -/
theorem IsPrintable.withLeadingZero_spell {e : Expr} (h : e.IsPrintable) :
    withLeadingZero (e.spell [' ']) = e.spell [' '] := by
  refine withLeadingZero_of_head ?_
  rw [← h.markKeywords_chars, markKeywords, head?_markFrom]
  exact h.head_chars

/-! ## Reading -/

/-- An operation is passed as a whole if its two sides are. -/
theorem IsPrintable.consumes_node {limit room : Nat} {op : Operator} {left right : Expr}
    (hop : op ≠ .apply) (hleft : left.IsPrintable) (hright : right.IsPrintable)
    (hl : Consumes limit (readWithin limit room) (left.spell []) (.of left))
    (hr : Consumes limit (readWithin limit room) (right.spell []) (.of right))
    (hlimit : (Expr.node op left right).depth ≤ limit) {gap : List Char}
    (hgap : Text.withoutBlanks gap = []) :
    Consumes limit (readWithin limit (room + 1)) ((Expr.node op left right).spell gap)
      (.of (.node op left right)) := by
  have hcontent : Text.withoutBlanks (left.spell gap ++ gap ++ op.symbol ::
      (gap ++ right.spell gap)) = left.spell [] ++ op.symbol :: right.spell [] := by
    rw [withoutBlanks_operation hgap, hleft.withoutBlanks_spell hgap,
      hright.withoutBlanks_spell hgap]
  have hread := readWithin_operation hop hl hr
    (hleft.isOperand_spell.withLeadingZero_append _) hlimit
  have hsolid := hleft.isOperand_spell.isSolid.append
    (hright.isOperand_spell.isSolid.symbol_cons op)
  rw [spell_node hop]
  refine consumes_group ?_ ?_ ?_
  · rw [← Text.isBalanced_withoutBlanks, hcontent]
    exact hsolid.2
  · rw [hcontent]
    exact List.append_ne_nil_of_right_ne_nil _ (List.cons_ne_nil _ _)
  · rw [hcontent]
    exact hread

/-- A call is passed as a whole if its argument is. -/
theorem IsPrintable.consumes_call {limit room : Nat} {name : String} {argument : Expr}
    (hname : IsName name.toList) (hargument : argument.IsPrintable)
    (ha : Consumes limit (readWithin limit room) (argument.spell []) (.of argument))
    (hlimit : (Expr.node .apply (.identifier name) argument).depth ≤ limit) {gap : List Char}
    (hgap : Text.withoutBlanks gap = []) :
    Consumes limit (readWithin limit (room + 1))
      ((Expr.node .apply (.identifier name) argument).spell gap)
      (.of (.node .apply (.identifier name) argument)) := by
  have hzero : withLeadingZero (argument.spell []) = argument.spell [] := by
    have happend := hargument.isOperand_spell.withLeadingZero_append []
    rwa [List.append_nil] at happend
  have hread := readWithin_operand ha hzero
  rw [← hargument.withoutBlanks_spell hgap] at hread
  have hcall (hdepth : (Expr.node .apply (.identifier (String.ofList name.toList)) argument).depth
      ≤ limit) : Consumes limit (readWithin limit (room + 1)) _ _ :=
    FormulaPlot.consumes_call hname (hargument.isBalanced_spell hgap) hread hdepth
  rw [String.ofList_toList] at hcall
  exact hcall hlimit

/-- **A spelling is passed as a whole** within a room that the depth of the tree gives. -/
theorem IsPrintable.consumes {e : Expr} (h : e.IsPrintable) {limit room : Nat}
    (hroom : e.depth ≤ room + 1) (hlimit : e.depth ≤ limit) {gap : List Char}
    (hgap : Text.withoutBlanks gap = []) :
    Consumes limit (readWithin limit room) (e.spell gap) (.of e) := by
  induction h generalizing room gap with
  | literal finite unsigned =>
    exact consumes_number (isNumberRun_chars finite unsigned).1
      (Number.readFront?_chars finite unsigned)
  | @identifier name isName plain =>
    have hname : Consumes limit (readWithin limit room) name.toList _ := consumes_name isName
    rwa [String.ofList_toList] at hname
  | @node op left right arithmetic hleft hright ihl ihr =>
    have hlt := depth_left_lt op left right
    have hlt' := depth_right_lt op left right
    have hpos := left.depth_pos
    obtain ⟨room, rfl⟩ : ∃ n, room = n + 1 := Nat.exists_eq_add_one.2 (by omega)
    have hl : Consumes limit (readWithin limit room) (left.spell []) (.of left) :=
      ihl (by omega) (by omega) rfl
    have hr : Consumes limit (readWithin limit room) (right.spell []) (.of right) :=
      ihr (by omega) (by omega) rfl
    exact hleft.consumes_node arithmetic hright hl hr hlimit hgap
  | @call name f argument function hargument ih =>
    have hlt := depth_right_lt .apply (.identifier name) argument
    have hpos := argument.depth_pos
    obtain ⟨room, rfl⟩ : ∃ n, room = n + 1 := Nat.exists_eq_add_one.2 (by omega)
    have ha : Consumes limit (readWithin limit room) (argument.spell []) (.of argument) :=
      ih (by omega) (by omega) rfl
    exact hargument.consumes_call (isName_of_ofName? function).2 ha hlimit hgap

end Expr

/-- **The round trip**: a printable tree, written out and parsed, is the tree again, under every
limit that its depth keeps. -/
theorem parse_display {e : Expr} (h : e.IsPrintable) {limit : Nat} (hlimit : e.depth ≤ limit) :
    parse limit e.display = .ok e := by
  have hprepared : (prepare e.display).toList = e.spell [' '] := by
    rw [prepare, String.toList_ofList, Expr.display, String.toList_ofList, h.prepareChars_chars]
  have hspelling : Consumes limit (readWithin limit limit) (e.spell [' ']) (.of e) :=
    h.consumes (Nat.le_succ_of_le hlimit) hlimit rfl
  rw [parse, parsePrepared, parseChars, hprepared,
    readWithin_operand hspelling h.withLeadingZero_spell]
  rfl

/-- A sum with a call in it, at its own depth. -/
theorem parse_display_sum_call :
    (Expr.node .add (.literal 0.5) (.node .apply (.identifier "Sin") (.identifier "x"))).IsPrintable
      ∧ parse 3 (Expr.node .add (.literal 0.5)
          (.node .apply (.identifier "Sin") (.identifier "x"))).display
        = .ok (.node .add (.literal 0.5) (.node .apply (.identifier "Sin") (.identifier "x"))) := by
  have hx : (Expr.identifier "x").IsPrintable := by
    have hletter : isOrdinary 'x' = true ∧ ¬ isNumeral 'x' = true := by decide
    refine .identifier ⟨by decide, List.forall_mem_singleton.2 hletter⟩ fun f => ?_
    cases f <;> decide
  have hcall : (Expr.node .apply (.identifier "Sin") (.identifier "x")).IsPrintable :=
    .call (show Builtin.ofName? "Sin" = some .sin by decide) hx
  have hhalf : (Expr.literal 0.5).IsPrintable := .literal rfl rfl
  have hsum : (Expr.node .add (.literal 0.5)
      (.node .apply (.identifier "Sin") (.identifier "x"))).IsPrintable :=
    .node (by decide) hhalf hcall
  exact ⟨hsum, parse_display hsum (by decide)⟩

end FormulaPlot
