import FormulaPlot.Proofs.Formula.Completeness
import FormulaPlot.Proofs.Formula.Soundness

/-!
# Proofs/Formula/Names — the identifiers of a tree are the names of its text

A name of a text is a longest run of ordinary characters that does not start as a number does; the
call mark behind it tells whether it is called (`mentions`).  The identifiers of a tree are the
names of the text that it is read from, in the same order, and those with the mark are its callees:

* `freeNames_of_parse`, `callees_of_parse` — the identifiers, name by name;
* `exists_of_mem_mentionsFrom` — where a name stands in the text;
* `IsBody.marksOpen` — behind every mark of a formula a bracket opens.
-/

namespace FormulaPlot

/-! ## Identifiers of a tree -/

namespace Expr

/-- The identifiers that are not called, from left to right. -/
def freeNames : Expr → List String
  | literal _ => []
  | identifier name => [name]
  | node .apply (identifier _) right => right.freeNames
  | node _ left right => left.freeNames ++ right.freeNames

/-- The left operands of all calls, from left to right. -/
def callees : Expr → List Expr
  | literal _ => []
  | identifier _ => []
  | node .apply left right => left :: (left.callees ++ right.callees)
  | node _ left right => left.callees ++ right.callees

theorem freeNames_node {op : Operator} (h : op ≠ .apply) (left right : Expr) :
    (node op left right).freeNames = left.freeNames ++ right.freeNames := by
  cases op with
  | apply => exact absurd rfl h
  | _ => rfl

theorem callees_node {op : Operator} (h : op ≠ .apply) (left right : Expr) :
    (node op left right).callees = left.callees ++ right.callees := by
  cases op with
  | apply => exact absurd rfl h
  | _ => rfl

end Expr

/-! ## Names of a text -/

/-- The name that a run of ordinary characters is, if it is one, and whether the call mark is behind
it; the last character of the run comes first. -/
def mention (run : List Char) (marked : Bool) : List (String × Bool) :=
  if IsName run.reverse then [(String.ofList run.reverse, marked)] else []

/-- The names of a text behind a run of ordinary characters, each with whether the call mark is
behind it. -/
def mentionsFrom : List Char → List Char → List (String × Bool)
  | run, [] => mention run false
  | run, c :: s =>
    if isOrdinary c then mentionsFrom (c :: run) s
    else mention run (c = callMark) ++ mentionsFrom [] s

/-- The names of a text, each with whether the call mark is behind it. -/
def mentions (s : List Char) : List (String × Bool) := mentionsFrom [] s

example : mentions "asin_(x)+2y*pi".toList = [("asin", true), ("x", false), ("pi", false)] := rfl

/-- The names without the call mark. -/
def unmarkedNames (s : List Char) : List String :=
  (mentions s).flatMap fun m => if m.2 then [] else [m.1]

/-- The names with the call mark. -/
def markedNames (s : List Char) : List String :=
  (mentions s).flatMap fun m => if m.2 then [m.1] else []

theorem mem_unmarkedNames {name : String} {s : List Char} :
    name ∈ unmarkedNames s ↔ (name, false) ∈ mentions s := by
  simp [unmarkedNames]

theorem mem_markedNames {name : String} {s : List Char} :
    name ∈ markedNames s ↔ (name, true) ∈ mentions s := by
  simp [markedNames]

/-! ## Where a name stands -/

/-- The text `s` has the name `name` between `before` and `after`, as a whole. -/
structure StandsIn (name : List Char) (before after s : List Char) : Prop where
  split : s = before ++ (name ++ after)
  name : IsName name
  before : ∀ c ∈ before.getLast?, isOrdinary c = false
  after : ∀ c ∈ after.head?, isOrdinary c = false

theorem mem_mention {m : String × Bool} {run : List Char} {marked : Bool} :
    m ∈ mention run marked ↔ IsName run.reverse ∧ m = (String.ofList run.reverse, marked) := by
  unfold mention
  split <;> simp_all

/-- A name stands in a longer text as well, if no ordinary character comes before it. -/
theorem StandsIn.append_left {name before after s : List Char} (h : StandsIn name before after s)
    {t : List Char} (ht : ∀ c ∈ t.getLast?, isOrdinary c = false) :
    StandsIn name (t ++ before) after (t ++ s) := by
  refine ⟨by rw [h.split, List.append_assoc], h.name, ?_, h.after⟩
  intro c hc
  rw [List.getLast?_append, Option.mem_def, Option.or_eq_some_iff] at hc
  rcases hc with hc | ⟨-, hc⟩
  · exact h.before c hc
  · exact ht c hc

/-- **Every name stands somewhere in the text**, and its mark behind it. -/
theorem exists_of_mem_mentionsFrom {run s : List Char} {m : String × Bool}
    (h : m ∈ mentionsFrom run s) :
    ∃ before after, StandsIn m.1.toList before after (run.reverse ++ s)
      ∧ (m.2 = true ↔ after.head? = some callMark) := by
  induction s generalizing run with
  | nil =>
    obtain ⟨hname, rfl⟩ := mem_mention.1 h
    rw [← String.toList_ofList (l := run.reverse)] at hname
    exact ⟨[], [], ⟨by simp, hname, by simp, by simp⟩, by simp⟩
  | cons c s ih =>
    rw [mentionsFrom] at h
    split at h
    · obtain ⟨before, after, hstands, hmark⟩ := ih h
      rw [List.reverse_cons, List.append_assoc] at hstands
      exact ⟨before, after, hstands, hmark⟩
    · next hc =>
      have hc : isOrdinary c = false := Bool.eq_false_iff.2 hc
      rcases List.mem_append.1 h with h | h
      · obtain ⟨hname, rfl⟩ := mem_mention.1 h
        rw [← String.toList_ofList (l := run.reverse)] at hname
        refine ⟨[], c :: s, ⟨by simp, hname, by simp, ?_⟩, by simp⟩
        exact fun d hd => Option.some.inj hd ▸ hc
      · obtain ⟨before, after, hstands, hmark⟩ := ih h
        have hlast : ∀ d ∈ (run.reverse ++ [c]).getLast?, isOrdinary d = false := by
          rw [List.getLast?_concat]
          exact fun d hd => Option.some.inj hd ▸ hc
        have hwhole := hstands.append_left hlast
        rw [List.reverse_nil, List.nil_append, List.append_assoc _ _ s] at hwhole
        exact ⟨_, after, hwhole, hmark⟩

/-! ## Stretches of text -/

/-- A run of ordinary characters goes on. -/
theorem mentionsFrom_append {s : List Char} (hs : ∀ c ∈ s, isOrdinary c = true)
    (run t : List Char) : mentionsFrom run (s ++ t) = mentionsFrom (s.reverse ++ run) t := by
  induction s generalizing run with
  | nil => rfl
  | cons c s ih =>
    obtain ⟨hc, hs⟩ := List.forall_mem_cons.1 hs
    rw [List.cons_append, mentionsFrom, if_pos hc, ih hs, List.reverse_cons, List.append_assoc]
    rfl

theorem mention_nil (marked : Bool) : mention [] marked = [] := if_neg fun h => h.1 rfl

/-- Another character stands for nothing by itself. -/
theorem mentions_cons {c : Char} (hc : isOrdinary c = false) (s : List Char) :
    mentions (c :: s) = mentions s := by
  rw [mentions, mentionsFrom, if_neg (Bool.eq_false_iff.1 hc), mention_nil]
  rfl

theorem mentions_symbol_cons (op : Operator) (s : List Char) :
    mentions (op.symbol :: s) = mentions s := mentions_cons (not_isOrdinary_symbol op) s

/-- No ordinary character comes next, and no call mark. -/
def EndsOperand (s : List Char) : Prop := ∀ c ∈ s.head?, isOrdinary c = false ∧ c ≠ callMark

theorem endsOperand_nil : EndsOperand [] := by rintro c ⟨⟩

theorem endsOperand_close (s : List Char) : EndsOperand (')' :: s) := by
  rintro c ⟨⟩
  decide

theorem endsOperand_symbol {op : Operator} (h : op ≠ .apply) (s : List Char) :
    EndsOperand (op.symbol :: s) := by
  rintro c ⟨⟩
  exact ⟨not_isOrdinary_symbol op, symbol_ne_callMark h⟩

/-- Where an operand ends, its run does. -/
theorem mentionsFrom_of_ends {t : List Char} (ht : EndsOperand t) (run : List Char) :
    mentionsFrom run t = mention run false ++ mentions t := by
  cases t with
  | nil =>
    rw [mentions, mentionsFrom, mentionsFrom, mention_nil, List.append_nil]
  | cons c t =>
    obtain ⟨hc, hmark⟩ := ht c rfl
    rw [mentions_cons hc, mentionsFrom, if_neg (Bool.eq_false_iff.1 hc), decide_eq_false hmark]
    rfl

theorem mentions_name {s t : List Char} (hs : IsName s) (ht : EndsOperand t) :
    mentions (s ++ t) = (String.ofList s, false) :: mentions t := by
  rw [mentions, mentionsFrom_append hs.forall, List.append_nil, mentionsFrom_of_ends ht, mention,
    List.reverse_reverse, if_pos hs]
  rfl

theorem mentions_call {s : List Char} (hs : IsName s) (t : List Char) :
    mentions (s ++ callMark :: t) = (String.ofList s, true) :: mentions t := by
  rw [mentions, mentionsFrom_append hs.forall, List.append_nil, mentionsFrom,
    if_neg (by decide), mention, List.reverse_reverse, if_pos hs]
  rfl

theorem not_isName_of_isNumberRun {s : List Char} (hs : IsNumberRun s) : ¬ IsName s := by
  obtain ⟨c, t, rfl, hnum, -⟩ := hs
  exact fun h => (h.2 c List.mem_cons_self).2 hnum

theorem mentions_number {s t : List Char} (hs : IsNumberRun s) (ht : EndsOperand t) :
    mentions (s ++ t) = mentions t := by
  rw [mentions, mentionsFrom_append hs.forall, List.append_nil, mentionsFrom_of_ends ht, mention,
    List.reverse_reverse, if_neg (not_isName_of_isNumberRun hs)]
  rfl

/-! ## Surveys of trees -/

variable {α : Type}

/-- A list that is read off a tree from left to right, `pick` giving what each identifier adds, by
itself or called. -/
structure IsSurvey (survey : Expr → List α) (pick : String × Bool → List α) : Prop where
  literal (v : Float) : survey (.literal v) = []
  identifier (name : String) : survey (.identifier name) = pick (name, false)
  call (name : String) (e : Expr) :
    survey (.node .apply (.identifier name) e) = pick (name, true) ++ survey e
  node {op : Operator} (h : op ≠ .apply) (left right : Expr) :
    survey (.node op left right) = survey left ++ survey right

theorem isSurvey_freeNames :
    IsSurvey Expr.freeNames fun m => if m.2 then [] else [m.1] where
  literal _ := rfl
  identifier _ := rfl
  call _ _ := rfl
  node h := Expr.freeNames_node h

theorem isSurvey_callees :
    IsSurvey Expr.callees fun m => if m.2 then [.identifier m.1] else [] where
  literal _ := rfl
  identifier _ := rfl
  call _ _ := rfl
  node h := Expr.callees_node h

section Survey

variable {survey : Expr → List α} {pick : String × Bool → List α} (hsurvey : IsSurvey survey pick)
include hsurvey

/-- A chain is surveyed operand by operand. -/
theorem IsSurvey.assemble (left : Expr) {items : List (Operator × Expr)}
    (hitems : ∀ item ∈ items, item.1 ≠ .apply) :
    survey (assemble left items) = survey left ++ items.flatMap fun item => survey item.2 := by
  induction items generalizing left with
  | nil => rw [assemble_nil, List.flatMap_nil, List.append_nil]
  | cons item items ih =>
    obtain ⟨op, e⟩ := item
    obtain ⟨hop, hitems⟩ := List.forall_mem_cons.1 hitems
    rw [FormulaPlot.assemble, List.flatMap_cons]
    split
    · rw [hsurvey.node hop, ih e hitems]
    · rw [ih _ hitems, hsurvey.node hop, List.append_assoc]

end Survey

/-- The operators of a tail are arithmetic. -/
theorem IsTail.forall_ne_apply {lenient : Bool} {previous : Option Operator} {t : List Char}
    {items : List (Operator × Expr)} : IsTail lenient previous t items →
      ∀ item ∈ items, item.1 ≠ .apply
  | .nil => List.forall_mem_nil _
  | .cons arithmetic _ tail => List.forall_mem_cons.2 ⟨arithmetic, tail.forall_ne_apply⟩
  | .last arithmetic _ => List.forall_mem_singleton.2 arithmetic
  | .gap _ arithmetic _ _ tail => List.forall_mem_cons.2 ⟨arithmetic, tail.forall_ne_apply⟩

/-- A tail starts with an operator, if at all. -/
theorem IsTail.endsOperand_append {lenient : Bool} {previous : Option Operator} {t u : List Char}
    {items : List (Operator × Expr)} (h : IsTail lenient previous t items) (hu : EndsOperand u) :
    EndsOperand (t ++ u) := by
  cases h with
  | nil => exact hu
  | cons arithmetic => exact endsOperand_symbol arithmetic _
  | last arithmetic => exact endsOperand_symbol arithmetic _
  | gap _ arithmetic => exact endsOperand_symbol arithmetic _

section Survey

variable {survey : Expr → List α} {pick : String × Bool → List α} {lenient : Bool}

mutual

/-- **The names of an operand** are its identifiers. -/
theorem IsOperand.survey_eq (hsurvey : IsSurvey survey pick) {s u : List Char} {e : Expr} :
    IsOperand lenient s e → EndsOperand u →
      (mentions (s ++ u)).flatMap pick = survey e ++ (mentions u).flatMap pick
  | .number run _, hu => by rw [mentions_number run hu, hsurvey.literal, List.nil_append]
  | .name name, hu => by rw [mentions_name name hu, List.flatMap_cons, hsurvey.identifier]
  | .group body, hu => by
    rw [List.cons_append, mentions_cons (by decide), List.append_assoc, List.singleton_append,
      body.survey_eq hsurvey (endsOperand_close u), mentions_cons (by decide)]
  | .call name body, hu => by
    rw [List.append_assoc, List.cons_append, List.cons_append, List.append_assoc,
      List.singleton_append, show ('_' : Char) = callMark from rfl, mentions_call name,
      List.flatMap_cons, mentions_cons (by decide), body.survey_eq hsurvey (endsOperand_close u),
      mentions_cons (by decide), hsurvey.call, List.append_assoc]

/-- **The names of a tail** are those of its operands. -/
theorem IsTail.survey_eq (hsurvey : IsSurvey survey pick) {previous : Option Operator}
    {t u : List Char} {items : List (Operator × Expr)} :
    IsTail lenient previous t items → EndsOperand u →
      (mentions (t ++ u)).flatMap pick
        = (items.flatMap fun item => survey item.2) ++ (mentions u).flatMap pick
  | .nil, _ => rfl
  | .cons _ operand tail, hu => by
    rw [List.cons_append, mentions_symbol_cons, List.append_assoc,
      operand.survey_eq hsurvey (tail.endsOperand_append hu), tail.survey_eq hsurvey hu,
      List.flatMap_cons, List.append_assoc]
  | .last _ missing, hu => by
    rw [List.cons_append, mentions_symbol_cons, List.flatMap_singleton, hsurvey.literal]
    rcases missing with rfl | ⟨run, -⟩
    · rfl
    · rw [mentions_number run hu, List.nil_append]
  | .gap _ _ _ _ tail, hu => by
    rw [List.cons_append, mentions_symbol_cons, tail.survey_eq hsurvey hu]
    show _ = survey (.literal 0) ++ _ ++ _
    rw [hsurvey.literal]
    rfl

/-- **The names of a body** are its identifiers. -/
theorem IsBody.survey_eq (hsurvey : IsSurvey survey pick) {s u : List Char} {e : Expr} :
    IsBody lenient s e → EndsOperand u →
      (mentions (s ++ u)).flatMap pick = survey e ++ (mentions u).flatMap pick
  | .plain operand tail, hu => by
    rw [List.append_assoc, operand.survey_eq hsurvey (tail.endsOperand_append hu),
      tail.survey_eq hsurvey hu, hsurvey.assemble _ tail.forall_ne_apply, List.append_assoc]
  | .signed _ tail, hu => by
    rw [tail.survey_eq hsurvey hu, hsurvey.assemble _ tail.forall_ne_apply, hsurvey.literal,
      List.nil_append]

end

end Survey

/-! ## Marks -/

/-- Behind every call mark of the text a bracket opens. -/
def MarksOpen : List Char → Prop
  | [] => True
  | c :: s => (c = callMark → s.head? = some '(') ∧ MarksOpen s

theorem MarksOpen.append {s t : List Char} (hs : MarksOpen s) (ht : MarksOpen t) :
    MarksOpen (s ++ t) := by
  induction s with
  | nil => exact ht
  | cons c s ih =>
    refine ⟨fun hc => ?_, ih hs.2⟩
    show (s ++ t).head? = some '('
    rw [List.head?_append, hs.1 hc]
    rfl

theorem marksOpen_cons {c : Char} (hc : c ≠ callMark) {s : List Char} (hs : MarksOpen s) :
    MarksOpen (c :: s) := ⟨fun h => absurd h hc, hs⟩

theorem marksOpen_of_forall {s : List Char} (h : ∀ c ∈ s, isOrdinary c = true) : MarksOpen s := by
  induction s with
  | nil => trivial
  | cons c s ih =>
    obtain ⟨hc, hs⟩ := List.forall_mem_cons.1 h
    exact marksOpen_cons (ne_callMark_of_ofChar?_eq_none (isOrdinary_iff.1 hc).2.2.2) (ih hs)

theorem MarksOpen.bracket {s : List Char} (hs : MarksOpen s) : MarksOpen ('(' :: (s ++ [')'])) :=
  marksOpen_cons (by decide) (hs.append (marksOpen_cons (by decide) trivial))

/-- The text behind a mark. -/
theorem MarksOpen.head?_eq {s t : List Char} (h : MarksOpen (s ++ callMark :: t)) :
    t.head? = some '(' := by
  induction s with
  | nil => exact h.1 rfl
  | cons c s ih => exact ih h.2

mutual

/-- **Behind every mark of an operand** a bracket opens. -/
theorem IsOperand.marksOpen {lenient : Bool} {s : List Char} {e : Expr} :
    IsOperand lenient s e → MarksOpen s
  | .number run _ => marksOpen_of_forall run.forall
  | .name name => marksOpen_of_forall name.forall
  | .group body => body.marksOpen.bracket
  | .call name body =>
    (marksOpen_of_forall name.forall).append ⟨fun _ => rfl, body.marksOpen.bracket⟩

theorem IsTail.marksOpen {lenient : Bool} {previous : Option Operator} {t : List Char}
    {items : List (Operator × Expr)} : IsTail lenient previous t items → MarksOpen t
  | .nil => trivial
  | .cons arithmetic operand tail =>
    marksOpen_cons (symbol_ne_callMark arithmetic) (operand.marksOpen.append tail.marksOpen)
  | .last arithmetic (.inl hs) => hs ▸ marksOpen_cons (symbol_ne_callMark arithmetic) trivial
  | .last arithmetic (.inr hs) =>
    marksOpen_cons (symbol_ne_callMark arithmetic) (marksOpen_of_forall hs.1.forall)
  | .gap _ arithmetic _ _ tail =>
    marksOpen_cons (symbol_ne_callMark arithmetic) tail.marksOpen

/-- **Behind every mark of a formula** a bracket opens. -/
theorem IsBody.marksOpen {lenient : Bool} {s : List Char} {e : Expr} :
    IsBody lenient s e → MarksOpen s
  | .plain operand tail => operand.marksOpen.append tail.marksOpen
  | .signed _ tail => tail.marksOpen

end

/-! ## Parsed formulas -/

/-- The text of a formula as it is read: prepared, and without blanks. -/
def readText (s : String) : List Char := Text.withoutBlanks (prepareChars s.toList)

section Parsed

variable {limit : Nat} {s : String} {t : Expr} (h : parse limit s = .ok t)
include h

/-- A formula that is read is a body. -/
theorem isBody_of_parse : IsBody true (readText s) t := by
  have hbody := isBody_of_parseChars h
  rwa [prepare, String.toList_ofList] at hbody

/-- A list read off the tree of a formula. -/
theorem survey_of_parse {α : Type} {survey : Expr → List α} {pick : String × Bool → List α}
    (hsurvey : IsSurvey survey pick) : survey t = (mentions (readText s)).flatMap pick := by
  have heq := (isBody_of_parse h).survey_eq hsurvey endsOperand_nil
  rw [List.append_nil] at heq
  exact (heq.trans (List.append_nil _)).symm

/-- **The identifiers of a formula that are not called** are the names without the mark. -/
theorem freeNames_of_parse : t.freeNames = unmarkedNames (readText s) :=
  survey_of_parse h isSurvey_freeNames

/-- **Its callees** are the names with the mark. -/
theorem callees_of_parse : t.callees = (markedNames (readText s)).map .identifier := by
  rw [survey_of_parse h isSurvey_callees, markedNames, List.map_flatMap]
  refine congrArg (List.flatMap · _) (funext fun m => ?_)
  split <;> rfl

end Parsed

end FormulaPlot
