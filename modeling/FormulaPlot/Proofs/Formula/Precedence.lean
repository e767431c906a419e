import FormulaPlot.Proofs.Formula.Acceptance
import FormulaPlot.Proofs.Formula.Prepared

/-!
# Proofs/Formula/Precedence — when reading is ordinary precedence

By ordinary precedence a chain is a sum of products: multiplicative operators join operands into
products first, and additive ones join the products then, both from the left (`conventional`).
Reading joins operands as they come, and only an operator that nests to the right keeps its left
operand from the operator before it, together with all that follows.  So an additive operator in
front of a product is right about the product, and wrong about a sum behind it.

* `assemble_eq_conventional_iff` — the two trees of a chain are one exactly if its additive
  operators stand together;
* `parse_conventional_iff` — the same of a text, which may have blanks anywhere: they change what is
  read only in front of a sign, and no operand starts with one (`spacesSignFrom_links`).
-/

namespace FormulaPlot

/-! ## Ordinary precedence -/

/-- Operands joined from the left, behind a tree that they are joined to. -/
def joinLeft (left : Expr) (items : List (Operator × Expr)) : Expr :=
  items.foldl (fun tree item => .node item.1 tree item.2) left

/-- The products of a chain: the first one, and each other one with the additive operator in front
of it. -/
def products (left : Expr) : List (Operator × Expr) → Expr × List (Operator × Expr)
  | [] => (left, [])
  | (op, e) :: items =>
    if op.isAdditive then (left, (op, (products e items).1) :: (products e items).2)
    else products (.node op left e) items

/-- **The tree of a chain by ordinary precedence**: its products, joined from the left. -/
def conventional (left : Expr) (items : List (Operator × Expr)) : Expr :=
  joinLeft (products left items).1 (products left items).2

example (a b c d : Expr) : conventional a [(.add, b), (.mul, c), (.sub, d)]
    = .node .sub (.node .add a (.node .mul b c)) d := rfl

/-- The additive operators stand together: multiplicative ones are before them and behind them. -/
def AdditiveTogether (ops : List Operator) : Prop :=
  ∃ before sums behind, ops = before ++ (sums ++ behind)
    ∧ (∀ op ∈ before, op.isAdditive = false) ∧ (∀ op ∈ sums, op.isAdditive = true)
    ∧ ∀ op ∈ behind, op.isAdditive = false

/-! ## Operators that stand together -/

/-- Whether the first of the operators behind `op` nests to the right of it. -/
def nestsFirst (op : Operator) (ops : List Operator) : Bool := ops.head?.any (nestsRight op)

/-- The operators behind the first additive ones. -/
def behindSums (ops : List Operator) : List Operator :=
  (ops.dropWhile fun op => !op.isAdditive).dropWhile Operator.isAdditive

section AdditiveTogether

variable {op : Operator} {ops : List Operator}

theorem nestsFirst_cons (h : op.isAdditive = true) (op' : Operator) (ops : List Operator) :
    nestsFirst op (op' :: ops) = !op'.isAdditive := by
  rw [nestsFirst, List.head?_cons, Option.any_some, nestsRight, h, Bool.true_and]

theorem isAdditive_of_nestsFirst (h : nestsFirst op ops = true) : op.isAdditive = true := by
  obtain ⟨op', -, hnests⟩ := (Option.any_eq_true _ _).1 h
  exact (Bool.and_eq_true_iff.1 hnests).1

theorem behindSums_cons_of_not_additive (h : op.isAdditive = false) (ops : List Operator) :
    behindSums (op :: ops) = behindSums ops := by
  rw [behindSums, List.dropWhile_cons_of_pos (by rw [h]; rfl), behindSums]

theorem behindSums_cons_of_additive (h : op.isAdditive = true) (ops : List Operator) :
    behindSums (op :: ops) = ops.dropWhile Operator.isAdditive := by
  rw [behindSums, List.dropWhile_cons_of_neg (by rw [h]; decide), List.dropWhile_cons_of_pos h]

/-- **Additive operators stand together** if none is behind the first of them. -/
theorem additiveTogether_iff :
    AdditiveTogether ops ↔ ∀ op ∈ behindSums ops, op.isAdditive = false := by
  constructor
  · rintro ⟨before, sums, behind, rfl, hbefore, hsums, hbehind⟩
    have hskip : behindSums (before ++ (sums ++ behind)) = behindSums (sums ++ behind) := by
      rw [behindSums, List.dropWhile_append_of_pos fun op hop => by rw [hbefore op hop]; rfl,
        behindSums]
    rw [hskip]
    cases sums with
    | nil =>
      rw [List.nil_append, behindSums]
      exact fun op hop =>
        hbehind op ((List.dropWhile_sublist _).subset ((List.dropWhile_sublist _).subset hop))
    | cons sum sums =>
      obtain ⟨hsum, hsums⟩ := List.forall_mem_cons.1 hsums
      rw [List.cons_append, behindSums_cons_of_additive hsum, List.dropWhile_append_of_pos hsums]
      exact fun op hop => hbehind op ((List.dropWhile_sublist _).subset hop)
  · intro h
    refine ⟨ops.takeWhile fun op => !op.isAdditive,
      (ops.dropWhile fun op => !op.isAdditive).takeWhile Operator.isAdditive, behindSums ops, ?_,
      fun op hop => ?_, fun op hop => List.mem_takeWhile_imp hop, h⟩
    · rw [behindSums, List.takeWhile_append_dropWhile, List.takeWhile_append_dropWhile]
    · have hop := List.mem_takeWhile_imp hop
      rwa [Bool.not_eq_true'] at hop

instance (ops : List Operator) : Decidable (AdditiveTogether ops) :=
  decidable_of_iff _ additiveTogether_iff.symm

example : AdditiveTogether [.mul, .add, .sub, .pow] ∧ ¬ AdditiveTogether [.add, .mul, .sub] := by
  decide

theorem additiveTogether_of_forall (h : ∀ op ∈ ops, op.isAdditive = false) :
    AdditiveTogether ops :=
  ⟨ops, [], [], (List.append_nil ops).symm, h, nofun, nofun⟩

/-- An operator that does not have another nest behind it may be in front or not. -/
theorem additiveTogether_cons_of_not_nests (h : nestsFirst op ops = false) :
    AdditiveTogether (op :: ops) ↔ AdditiveTogether ops := by
  rw [additiveTogether_iff, additiveTogether_iff]
  cases hop : op.isAdditive with
  | false => rw [behindSums_cons_of_not_additive hop]
  | true =>
    cases ops with
    | nil =>
      rw [behindSums_cons_of_additive hop]
      rfl
    | cons op' ops =>
      have hop' : op'.isAdditive = true := by
        rwa [nestsFirst_cons hop, Bool.not_eq_false'] at h
      rw [behindSums_cons_of_additive hop, behindSums_cons_of_additive hop',
        List.dropWhile_cons_of_pos hop']

/-- Behind one that nests there is no other place for additive operators. -/
theorem additiveTogether_cons_of_nests (h : nestsFirst op ops = true) :
    AdditiveTogether (op :: ops) ↔ ∀ o ∈ ops, o.isAdditive = false := by
  have hop := isAdditive_of_nestsFirst h
  cases ops with
  | nil => cases h
  | cons op' ops =>
    rw [nestsFirst_cons hop, Bool.not_eq_true'] at h
    rw [additiveTogether_iff, behindSums_cons_of_additive hop,
      List.dropWhile_cons_of_neg (Bool.eq_false_iff.1 h)]

end AdditiveTogether

/-! ## Products and sums -/

section Conventional

variable {op op' : Operator} {left e e' : Expr} {items : List (Operator × Expr)}

theorem products_of_additive (h : op.isAdditive = true) :
    products left ((op, e) :: items)
      = (left, (op, (products e items).1) :: (products e items).2) := if_pos h

theorem products_of_not_additive (h : op.isAdditive = false) :
    products left ((op, e) :: items) = products (.node op left e) items :=
  if_neg (Bool.eq_false_iff.1 h)

/-- **There is a single product** if no operator is additive. -/
theorem products_snd_eq_nil_iff :
    (products left items).2 = [] ↔ ∀ op ∈ items.map Prod.fst, op.isAdditive = false := by
  induction items generalizing left with
  | nil => exact iff_of_true rfl nofun
  | cons item items ih =>
    obtain ⟨op, e⟩ := item
    rw [List.map_cons, List.forall_mem_cons]
    cases h : op.isAdditive with
    | true => exact iff_of_false (by rw [products_of_additive h]; nofun) nofun
    | false => rw [products_of_not_additive h, ih, and_iff_right rfl]

/-- An operator in front of the first product takes it as a whole. -/
theorem conventional_of_additive (h : op.isAdditive = true) :
    conventional left ((op, e) :: items)
      = joinLeft (.node op left (products e items).1) (products e items).2 := by
  rw [conventional, products_of_additive h]
  rfl

/-- **An operator joins its two operands** unless another one nests to the right of it. -/
theorem conventional_of_not_nests (h : nestsFirst op (items.map Prod.fst) = false) :
    conventional left ((op, e) :: items) = conventional (.node op left e) items := by
  cases hop : op.isAdditive with
  | false => rw [conventional, products_of_not_additive hop, conventional]
  | true =>
    cases items with
    | nil => rw [conventional_of_additive hop]; rfl
    | cons item items =>
      obtain ⟨op', e'⟩ := item
      have hop' : op'.isAdditive = true := by
        rwa [List.map_cons, nestsFirst_cons hop, Bool.not_eq_false'] at h
      rw [conventional_of_additive hop, conventional_of_additive hop', products_of_additive hop']
      rfl

/-- Where operands are joined to a tree, that tree is on the left, alone or within another. -/
theorem depth_le_of_joinLeft_eq {l r : Expr} (hne : items ≠ [])
    (h : joinLeft left items = .node op l r) : left.depth ≤ l.depth := by
  induction items generalizing left with
  | nil => exact absurd rfl hne
  | cons item items ih =>
    by_cases hnil : items = []
    · subst hnil
      obtain ⟨-, rfl, -⟩ := Expr.node.inj h
      exact Nat.le_refl _
    · exact (Expr.depth_left_lt _ left _).le.trans (ih hnil h)

/-- **An additive operator in front of all the rest** is right if the rest is a single product. -/
theorem node_eq_conventional_iff (h : op.isAdditive = true) (x : Expr) :
    .node op left x = conventional left ((op, e) :: items)
      ↔ (∀ op ∈ items.map Prod.fst, op.isAdditive = false) ∧ x = conventional e items := by
  rw [conventional_of_additive h, ← products_snd_eq_nil_iff]
  by_cases hnil : (products e items).2 = []
  · rw [and_iff_right hnil, conventional, hnil]
    exact ⟨fun heq => (Expr.node.inj heq).2.2, fun heq => congrArg (Expr.node op left) heq⟩
  · -- A sum has `left` within the tree on its left, so that tree is not `left`.
    refine iff_of_false (fun heq => ?_) fun h => hnil h.1
    exact absurd (depth_le_of_joinLeft_eq hnil heq.symm)
      (Nat.not_le.2 (Expr.depth_left_lt op left _))

end Conventional

/-- **Reading is ordinary precedence** exactly if the additive operators stand together. -/
theorem assemble_eq_conventional_iff (left : Expr) (items : List (Operator × Expr)) :
    assemble left items = conventional left items ↔ AdditiveTogether (items.map Prod.fst) := by
  induction items generalizing left with
  | nil => exact iff_of_true rfl (additiveTogether_of_forall nofun)
  | cons item items ih =>
    obtain ⟨op, e⟩ := item
    have hnests : (items.head?.any fun item => nestsRight op item.1)
        = nestsFirst op (items.map Prod.fst) := by cases items <;> rfl
    rw [assemble, hnests, List.map_cons]
    cases h : nestsFirst op (items.map Prod.fst) with
    | true =>
      rw [if_pos rfl, node_eq_conventional_iff (isAdditive_of_nestsFirst h), ih,
        additiveTogether_cons_of_nests h]
      exact and_iff_left_of_imp additiveTogether_of_forall
    | false =>
      rw [if_neg Bool.false_ne_true, conventional_of_not_nests h, ih,
        additiveTogether_cons_of_not_nests h]

/-! ## Chains of operands -/

/-- A single operand, as its text and its tree: a number, a name, a group or a call. -/
structure Atom where
  chars : List Char
  tree : Expr
  isOperand : IsOperand true chars tree

/-- An arithmetic operator and the operand behind it. -/
structure Link extends Atom where
  operator : Operator
  arithmetic : operator ≠ .apply

namespace Link

/-- The text of an operator and the operand behind it. -/
def text (link : Link) : List Char := link.operator.symbol :: link.chars

/-- The operator and the tree of the operand behind it. -/
def item (link : Link) : Operator × Expr := (link.operator, link.tree)

end Link

theorem isTail_links (previous : Option Operator) (links : List Link) :
    IsTail true previous (links.flatMap Link.text) (links.map Link.item) := by
  induction links generalizing previous with
  | nil => exact .nil
  | cons link links ih => exact .cons link.arithmetic link.isOperand (ih _)

/-- **A chain of operands is a formula**, with the tree of the chain. -/
theorem isBody_links (first : Atom) (links : List Link) :
    IsBody true (first.chars ++ links.flatMap Link.text)
      (assemble first.tree (links.map Link.item)) :=
  .plain first.isOperand (isTail_links none links)

/-! ## Chains with blanks in them

No sign stands behind an operator of a chain, so blanks hide none. -/

section Blanks

variable {previous : Option Operator} {s : List Char} {e : Expr}

theorem arithmetic?_eq_none {c : Char} (h : isOrdinary c = true) : arithmetic? c = none := by
  rw [arithmetic?, (isOrdinary_iff.1 h).2.2.2]
  rfl

/-- Ordinary characters and blanks are passed over. -/
theorem spacesSignFrom_of_ordinary (h : ∀ c ∈ Text.withoutBlanks s, isOrdinary c = true)
    (u : List Char) : spacesSignFrom 0 previous (s ++ u) = spacesSignFrom 0 previous u := by
  induction s with
  | nil => rfl
  | cons c s ih =>
    rw [List.cons_append]
    by_cases hblank : Text.isBlank c = true
    · rw [Text.withoutBlanks_cons_of_blank hblank] at h
      rw [spacesSignFrom_blank hblank, ih h]
    · rw [Text.withoutBlanks_cons_of_not_blank (Bool.eq_false_iff.2 hblank)] at h
      obtain ⟨hc, hs⟩ := List.forall_mem_cons.1 h
      obtain ⟨-, hopen, hclose, -⟩ := isOrdinary_iff.1 hc
      rw [spacesSignFrom_cons hopen hclose fun _ => arithmetic?_eq_none hc, ih hs]

/-- Inside brackets all characters are. -/
theorem spacesSignFrom_inside {n m : Nat} (h : Text.bracketsOpen n s = some m) (u : List Char) :
    spacesSignFrom (n + 1) previous (s ++ u) = spacesSignFrom (m + 1) previous u := by
  induction s generalizing n with
  | nil => rw [Option.some.inj h, List.nil_append]
  | cons c s ih =>
    rw [Text.bracketsOpen_cons, Option.bind_eq_some_iff] at h
    obtain ⟨n', hstep, hrest⟩ := h
    rw [List.cons_append, ← ih hrest]
    by_cases hopen : c = '('
    · subst hopen
      obtain rfl := Option.some.inj hstep
      exact spacesSignFrom_open
    · by_cases hclose : c = ')'
      · subst hclose
        cases n with
        | zero => cases hstep
        | succ n =>
          obtain rfl := Option.some.inj hstep
          exact spacesSignFrom_close
      · rw [Text.bracketStep_of_ne ⟨hopen, hclose⟩] at hstep
        obtain rfl := Option.some.inj hstep
        exact spacesSignFrom_cons hopen hclose nofun

theorem spacesSignFrom_of_blank (h : Text.withoutBlanks s = []) (u : List Char) :
    spacesSignFrom 0 previous (s ++ u) = spacesSignFrom 0 previous u :=
  spacesSignFrom_of_ordinary (by rw [h]; nofun) u

/-- Brackets are passed over with what is in them. -/
theorem spacesSignFrom_of_group {w : List Char} (hw : Text.IsBalanced w)
    (h : Text.withoutBlanks s = '(' :: (w ++ [')'])) (u : List Char) :
    spacesSignFrom 0 previous (s ++ u) = spacesSignFrom 0 previous u := by
  obtain ⟨before, s, rfl, hbefore, h⟩ := Text.exists_of_withoutBlanks_eq_cons h
  obtain ⟨inner, s, rfl, hinner, h⟩ := Text.exists_of_withoutBlanks_eq_append h
  obtain ⟨gap, behind, rfl, hgap, hbehind⟩ := Text.exists_of_withoutBlanks_eq_cons h
  have hbalanced : Text.IsBalanced (inner ++ gap) := by
    rwa [← Text.isBalanced_withoutBlanks, Text.withoutBlanks_append, hinner, hgap, List.append_nil]
  have hshape : before ++ '(' :: (inner ++ (gap ++ ')' :: behind)) ++ u
      = before ++ '(' :: ((inner ++ gap) ++ ')' :: (behind ++ u)) := by simp
  rw [hshape, spacesSignFrom_of_blank hbefore, spacesSignFrom_open,
    spacesSignFrom_inside hbalanced, spacesSignFrom_close, spacesSignFrom_of_blank hbehind]

/-- **Outside its brackets an operand has no operator** for a sign to stand behind. -/
theorem spacesSignFrom_of_operand (h : IsOperand true (Text.withoutBlanks s) e) (u : List Char) :
    spacesSignFrom 0 previous (s ++ u) = spacesSignFrom 0 previous u := by
  generalize hs : Text.withoutBlanks s = w at h
  cases h with
  | number run => exact spacesSignFrom_of_ordinary (hs ▸ run.forall) u
  | name name => exact spacesSignFrom_of_ordinary (hs ▸ name.forall) u
  | group body => exact spacesSignFrom_of_group body.isSolid.2 hs u
  | call name body =>
    obtain ⟨f, s, rfl, hf, hs⟩ := Text.exists_of_withoutBlanks_eq_append hs
    obtain ⟨gap, group, rfl, hgap, hgroup⟩ := Text.exists_of_withoutBlanks_eq_cons hs
    have hshape : f ++ (gap ++ '_' :: group) ++ u = f ++ (gap ++ '_' :: (group ++ u)) := by simp
    rw [hshape, spacesSignFrom_of_ordinary (hf ▸ name.forall), spacesSignFrom_of_blank hgap,
      spacesSignFrom_cons (by decide) (by decide) fun _ => rfl,
      spacesSignFrom_of_group body.isSolid.2 hgroup]

/-- An operand starts with no sign, however spaced. -/
theorem startsSpacedSign_of_operand {w u : List Char} (h : IsOperand true w e)
    (hs : Text.withoutBlanks s = w ++ u) : startsSpacedSign s = false := by
  refine Bool.eq_false_iff.2 fun hspaced => ?_
  obtain ⟨-, c, hc, hhead⟩ := startsSpacedSign_iff.1 hspaced
  rw [hs] at hhead
  have hnot := h.not_isOperatorChar_head u c hhead
  rcases hc with rfl | rfl <;> cases hnot

/-- **No sign of a chain is spaced** behind an operator that nests. -/
theorem spacesSignFrom_links (first : Atom) (links : List Link)
    (hs : Text.withoutBlanks s = first.chars ++ links.flatMap Link.text) :
    spacesSignFrom 0 previous s = false := by
  induction links generalizing first previous s with
  | nil =>
    rw [List.flatMap_nil, List.append_nil] at hs
    rw [← List.append_nil s, spacesSignFrom_of_operand (hs ▸ first.isOperand), spacesSignFrom]
  | cons link links ih =>
    obtain ⟨w, s, rfl, hw, hs⟩ := Text.exists_of_withoutBlanks_eq_append hs
    obtain ⟨gap, rest, rfl, hgap, hrest⟩ := Text.exists_of_withoutBlanks_eq_cons hs
    have hop : arithmetic? link.operator.symbol = some link.operator := by
      rw [arithmetic?, Operator.ofChar?_eq_some_iff.2 rfl]
      exact Option.filter_some_pos (by simpa using link.arithmetic)
    rw [spacesSignFrom_of_operand (hw ▸ first.isOperand), spacesSignFrom_of_blank hgap,
      spacesSignFrom_operator hop, startsSpacedSign_of_operand link.isOperand hrest,
      ih link.toAtom hrest, Bool.and_false, Bool.false_or]

end Blanks

/-! ## Reading -/

section Reading

variable {s : String} (first : Atom) (links : List Link)
  (hs : Text.withoutBlanks (prepare s).toList = first.chars ++ links.flatMap Link.text)
include hs

/-- **A chain is read**, with blanks or without, under any limit above its size. -/
theorem parse_links {limit : Nat} (hlimit : (prepare s).utf8ByteSize < limit) :
    parse limit s = .ok (assemble first.tree (links.map Link.item)) := by
  have hbody := isBody_links first links
  have hdepth := hbody.depth_le
  rw [← hs] at hbody hdepth
  have hlength : (Text.withoutBlanks (prepare s).toList).length < limit := by
    refine Nat.lt_of_le_of_lt (List.length_filter_le _ _) ?_
    refine Nat.lt_of_le_of_lt (Text.length_le_byteSize _) ?_
    rwa [Text.byteSize_toList]
  have hread : readWithin limit (limit + 1) none (Text.withoutBlanks (prepare s).toList)
      = .ok (.of (assemble first.tree (links.map Link.item))) :=
    hbody.readWithin (by omega) (by omega)
  have hparts := parts_readWithin limit (limit + 1) none (prepare s).toList
  rw [startsSpacedSign_of_operand first.isOperand hs, Option.map_none,
    spacesSignFrom_links first links hs] at hparts
  rcases hparts with ⟨hsame, -⟩ | ⟨hspaced, -⟩
  · have hp : prepareChars s.toList = (prepare s).toList := by rw [prepare, String.toList_ofList]
    exact parse_of_readWithin hp (hsame.eq_ok_iff.2 hread)
  · cases hspaced

theorem eq_of_parse_links {limit : Nat} {t : Expr} (h : parse limit s = .ok t) :
    t = assemble first.tree (links.map Link.item) := by
  rw [parse, parsePrepared] at h
  have hbody := isBody_of_parseChars h
  rw [hs] at hbody
  exact hbody.unique (isBody_links first links)

end Reading

/-- **When reading is ordinary precedence.**  A chain of single operands has one tree, whatever
blanks it has in it: every limit above its size gives that tree, and no limit gives another.  It is
the tree of ordinary precedence exactly if no multiplicative operator stands between two additive
ones. -/
theorem parse_conventional_iff {s : String} (first : Atom) (links : List Link)
    (hs : Text.withoutBlanks (prepare s).toList = first.chars ++ links.flatMap Link.text) :
    ∃ t, (∀ limit, (prepare s).utf8ByteSize < limit → parse limit s = .ok t)
      ∧ (∀ limit t', parse limit s = .ok t' → t' = t)
      ∧ (t = conventional first.tree (links.map Link.item)
        ↔ AdditiveTogether (links.map Link.operator)) := by
  refine ⟨assemble first.tree (links.map Link.item), fun limit => parse_links first links hs,
    fun limit t' => eq_of_parse_links first links hs, ?_⟩
  rw [assemble_eq_conventional_iff, List.map_map]
  rfl

/-- Two chains of the same operands: in the first the product comes behind the sum, in the second
it stands within it. -/
theorem parse_conventional_behind_and_within :
    (prepare "1 - x + 2*sin((x))").utf8ByteSize < 30
      ∧ parse 30 "1 - x + 2*sin((x))" = .ok (conventional (.literal 1)
          [(.sub, .identifier "x"), (.add, .literal 2),
            (.mul, .node .apply (.identifier "sin") (.identifier "x"))])
      ∧ (prepare "1 - 2*sin((x)) + x").utf8ByteSize < 30
      ∧ ∃ t, parse 30 "1 - 2*sin((x)) + x" = .ok t ∧ t ≠ conventional (.literal 1)
          [(.sub, .literal 2), (.mul, .node .apply (.identifier "sin") (.identifier "x")),
            (.add, .identifier "x")] := by
  have hx : IsOperand true ['x'] (.identifier "x") := .name (by decide)
  have hgroup : IsBody true "(x)".toList (.identifier "x") :=
    .plain (t := []) (.group (.plain (t := []) hx .nil)) .nil
  have hsin : IsOperand true "sin_((x))".toList
      (.node .apply (.identifier "sin") (.identifier "x")) :=
    .call (f := "sin".toList) (by decide) hgroup
  let one : Atom :=
    ⟨['1'], .literal 1, .number ⟨'1', [], rfl, rfl, List.forall_mem_singleton.2 rfl⟩ rfl⟩
  let two : Atom :=
    ⟨['2'], .literal 2, .number ⟨'2', [], rfl, rfl, List.forall_mem_singleton.2 rfl⟩ rfl⟩
  let x : Atom := ⟨['x'], .identifier "x", hx⟩
  let sin : Atom := ⟨"sin_((x))".toList, _, hsin⟩
  have htext : Text.withoutBlanks (prepare "1 - x + 2*sin((x))").toList
      = "1-x+2*sin_((x))".toList := by decide
  have htext' : Text.withoutBlanks (prepare "1 - 2*sin((x)) + x").toList
      = "1-2*sin_((x))+x".toList := by decide
  have hsize : (prepare "1 - x + 2*sin((x))").utf8ByteSize < 30 := by decide
  have hsize' : (prepare "1 - 2*sin((x)) + x").utf8ByteSize < 30 := by decide
  have htogether : AdditiveTogether [.sub, .add, .mul] := by decide
  have hapart : ¬ AdditiveTogether [.sub, .mul, .add] := by decide
  obtain ⟨t, hread, -, hiff⟩ := parse_conventional_iff one
    [⟨x, .sub, nofun⟩, ⟨two, .add, nofun⟩, ⟨sin, .mul, nofun⟩] htext
  obtain ⟨t', hread', -, hiff'⟩ := parse_conventional_iff one
    [⟨two, .sub, nofun⟩, ⟨sin, .mul, nofun⟩, ⟨x, .add, nofun⟩] htext'
  refine ⟨hsize, ?_, hsize', t', hread' 30 hsize', ?_⟩
  · exact (hread 30 hsize).trans (congrArg Except.ok (hiff.2 htogether))
  · exact fun heq => hapart (hiff'.1 heq)

end FormulaPlot
