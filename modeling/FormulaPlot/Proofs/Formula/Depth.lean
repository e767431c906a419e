import FormulaPlot.Expr.Eval
import FormulaPlot.Proofs.Formula.Nesting

/-!
# Proofs/Formula/Depth — how deep the accepted formulas are

A text that some limit accepts is refused by exactly the limits below its nesting, and by those
below the depth of its tree unless that is a leaf (`parsePrepared_exact`).  Evaluating a tree calls
itself as deep as the tree is (`Expr.reduceWithin_eq`), so the limit bounds that too.  A sum grows
to the left, one deeper with each operand, and nests nothing (`exists_readWithin_sum`).
-/

namespace FormulaPlot

/-! ## Evaluation within a depth -/

namespace Expr

/-- Whether a tree is a literal or an identifier. -/
def isLeaf : Expr → Bool
  | node _ _ _ => false
  | _ => true

/-- A leaf has the least depth there is. -/
theorem isLeaf_or_depth_le {e : Expr} {limit : Nat} :
    (e.isLeaf ∨ e.depth ≤ limit) ↔ e.depth ≤ max 1 limit := by
  cases e with
  | node op left right =>
    have hleft := left.depth_pos
    simp only [isLeaf, depth, Bool.false_eq_true, false_or]
    omega
  | _ => exact iff_of_true (.inl rfl) (Nat.le_max_left 1 limit)

/-- What a tree comes to at `x`, if the evaluation of a tree calls itself less than `n` deep. -/
def reduceWithin (ar : Arithmetic) (x : Float) : Nat → Expr → Option Value
  | 0, _ => none
  | _ + 1, literal value => some (.number value)
  | _ + 1, identifier name => some (resolve name x)
  | n + 1, node op left right => do
    let a ← reduceWithin ar x n left
    let b ← reduceWithin ar x n right
    return .number (ar.combine op a b)

/-- **Evaluating a tree** calls itself as deep as the tree is. -/
theorem reduceWithin_eq (ar : Arithmetic) (x : Float) (n : Nat) (e : Expr) :
    e.reduceWithin ar x n = if e.depth ≤ n then some (e.reduce ar x) else none := by
  induction e generalizing n with
  | literal value => cases n <;> rfl
  | identifier name => cases n <;> rfl
  | node op left right ihl ihr =>
    cases n with
    | zero => rfl
    | succ n =>
      simp only [reduceWithin, ihl, ihr, depth, reduce, Nat.add_le_add_iff_right, Nat.max_le]
      by_cases hl : left.depth ≤ n <;> by_cases hr : right.depth ≤ n <;> simp [hl, hr]

end Expr

/-! ## Trees of texts -/

/-- Trees carry their own depth. -/
theorem keeps_depth_eq (limit room : Nat) :
    (readWithin limit room).Keeps fun n => n.depth = n.expr.depth :=
  keeps_readWithin (fun _ he => he.symm) (fun _ _ _ _ => Node.depth_of_join) room

/-- **What one limit accepts** is accepted when no limit can be reached. -/
theorem exists_readWithin_of_parsePrepared {free : Nat} {t : String} {T : Expr}
    (h : parsePrepared free t = .ok T) :
    ∃ n, readWithin (t.toList.length + 1) (t.toList.length + 2) none t.toList = .ok n
      ∧ n.expr = T ∧ n.depth = T.depth := by
  obtain ⟨n, hn, rfl⟩ := exists_of_map_eq_ok h
  have hdepth : n.depth = n.expr.depth := keeps_depth_eq _ _ _ _ _ (by rintro ch ⟨⟩) hn
  refine ⟨n, ?_, rfl, hdepth⟩
  rcases Nat.le_total free (t.toList.length + 1) with hle | hle
  · have hagrees := @agrees_readWithin _ _ hle (free + 1) (t.toList.length + 2) none t.toList
      (.inl (Nat.succ_le_succ hle))
    rw [hn] at hagrees
    rcases hagrees with h | h
    · cases h
    · exact h.symm
  · have hagrees := @agrees_readWithin _ _ hle (t.toList.length + 2) (free + 1) none t.toList
      (.inl (Nat.succ_le_succ hle))
    have hshallow := @isShallow_readWithin (t.toList.length + 1) (t.toList.length + 2) none
      t.toList (by rintro ch ⟨⟩) (by omega) (by rw [chainWeight_none]; omega)
    rw [hn] at hagrees
    rcases hagrees with h | h
    · rw [h] at hshallow
      exact absurd rfl (hshallow _)
    · exact h

/-- A reading that succeeds has nested less than it had room for. -/
theorem nestingWithin_lt {limit room : Nat} {t : List Char} {n : Node}
    (h : readWithin limit room none t = .ok n) : nestingWithin limit room none t < room := by
  have hverdict := @readWithin_eq_verdict limit limit room room none t n (by rintro ch ⟨⟩) h
  refine Decidable.byContradiction fun hnot => ?_
  rw [h, verdict_of_not fun hfits => hnot hfits.1] at hverdict
  cases hverdict

/-! ## Sums of names -/

theorem Node.join_leaf {limit : Nat} {op : Operator} {left : Node} {e : Expr}
    (hleft : 1 ≤ left.depth) (hlimit : left.depth + 1 ≤ limit) :
    Node.join limit op left (.leaf e) = .ok ⟨.node op left.expr e, left.depth + 1⟩ := by
  have hdepth : max left.depth (Node.leaf e).depth = left.depth := Nat.max_eq_left hleft
  have hjoin := @join_of_le limit op left (.leaf e) (by rwa [hdepth])
  rwa [hdepth] at hjoin

/-- The operand and the tree of a name. -/
theorem node?_wholeName (name : List Char) :
    (Operand.name name.reverse).node? = some (.leaf (.identifier (String.ofList name))) := by
  rw [Operand.node?, List.reverse_reverse]

section Sum

variable {limit : Nat} {sub : SubReading} {name : List Char} {names : List (List Char)}

/-- A name that nothing follows. -/
theorem run_lastName (hname : IsName name) (chain : Option Chain) (i : Nat) :
    (Reading.start chain).run limit sub i name
      = Reading.finish limit ⟨chain, .operand (.name name.reverse)⟩ := by
  have hrun := @run_wholeName limit sub name hname chain i []
  rwa [List.append_nil] at hrun

/-- A name that a plus sign follows. -/
theorem run_addName (hname : IsName name) (chain : Option Chain) (i : Nat) (rest : List Char) :
    (Reading.start chain).run limit sub i (name ++ '+' :: rest)
      = Reading.follow limit sub (i + Text.byteSize name + '+'.utf8Size) rest
          (pushOperator limit sub .add rest chain (.leaf (.identifier (String.ofList name)))) := by
  have hop : Operator.add ≠ .apply := by decide
  rw [Reading.start, run_wholeName hname]
  exact Reading.run_operator hop (node?_wholeName name) _ rest

/-- A sum of names behind a plus sign makes the chain one deeper with each of them. -/
theorem exists_run_sum (hname : IsName name) (hnames : ∀ s ∈ names, IsName s) {left : Node}
    (hleft : 1 ≤ left.depth) (hlimit : left.depth + (names.length + 1) ≤ limit) (i : Nat) :
    ∃ n, (Reading.start (some ⟨left, .add⟩)).run limit sub i
        (['+'].intercalate (name :: names)) = .ok n
      ∧ n.depth = left.depth + (names.length + 1) := by
  induction names generalizing name left i with
  | nil =>
    rw [List.intercalate_singleton, run_lastName hname,
      Reading.finish_of_node? (node?_wholeName name)]
    exact ⟨_, Node.join_leaf hleft hlimit, rfl⟩
  | cons next names ih =>
    obtain ⟨hnext, hnames⟩ := List.forall_mem_cons.1 hnames
    rw [List.length_cons] at hlimit ⊢
    rw [List.intercalate_cons_cons, List.append_assoc, List.singleton_append, run_addName hname,
      pushOperator_of_not_nests rfl, Node.join_leaf hleft (by omega)]
    obtain ⟨n, hn, hdepth⟩ := @ih next hnext hnames
      ⟨.node .add left.expr (.identifier (String.ofList name)), left.depth + 1⟩
      (Nat.le_add_left 1 _) (by dsimp only; omega) _
    exact ⟨n, hn, hdepth.trans (by dsimp only; omega)⟩

/-- **A sum of names** nests nothing and is as deep as it has operands. -/
theorem exists_readWithin_sum (hname : IsName name) (hnames : ∀ s ∈ names, IsName s) :
    ∃ n, readWithin (names.length + 1) 1 none (['+'].intercalate (name :: names)) = .ok n
      ∧ n.depth = names.length + 1 := by
  have hzero (rest : List Char) : withLeadingZero (name ++ rest) = name ++ rest :=
    (IsOperand.name hname : IsOperand true _ _).withLeadingZero_append rest
  cases names with
  | nil =>
    have hname' := hzero []
    rw [List.append_nil] at hname'
    rw [List.intercalate_singleton, readWithin, hname', run_lastName hname,
      Reading.finish_of_node? (node?_wholeName name)]
    exact ⟨_, rfl, rfl⟩
  | cons next names =>
    obtain ⟨hnext, hnames⟩ := List.forall_mem_cons.1 hnames
    rw [List.intercalate_cons_cons, List.append_assoc, List.singleton_append, readWithin, hzero,
      run_addName hname]
    obtain ⟨n, hn, hdepth⟩ := @exists_run_sum ((next :: names).length + 1) (readWithin _ 0) next
      names hnext hnames (.leaf (.identifier (String.ofList name))) (Nat.le_refl 1)
      (Nat.le_of_eq (Nat.add_comm 1 _)) _
    exact ⟨n, hn, hdepth.trans (Nat.add_comm 1 _)⟩

end Sum

/-! ## The exact limit -/

/-- The verdict on a text that some limit accepts. -/
theorem parsePrepared_eq_verdict {free limit : Nat} {t : String} {T : Expr}
    (h : parsePrepared free t = .ok T) :
    parsePrepared limit t
      = verdict limit (nesting t.toList ≤ limit ∧ (T.isLeaf ∨ T.depth ≤ limit)) T := by
  obtain ⟨n, hn, rfl, hdepth⟩ := exists_readWithin_of_parsePrepared h
  rw [parsePrepared, parseChars, readWithin_eq_verdict (by rintro ch ⟨⟩) hn, verdict_map]
  refine verdict_congr ?_
  rw [hdepth, Expr.isLeaf_or_depth_le, nesting, Nat.lt_succ_iff]

/-- The verdict on a sum of names. -/
theorem exists_parsePrepared_sum_iff {names : List String} {limit : Nat} (hne : names ≠ [])
    (hnames : ∀ s ∈ names, IsName s.toList) (hlimit : 1 ≤ limit) :
    (∃ T, parsePrepared limit ("+".intercalate names) = .ok T) ↔ names.length ≤ limit := by
  obtain ⟨name, names, rfl⟩ := List.exists_cons_of_ne_nil hne
  obtain ⟨hname, hnames⟩ := List.forall_mem_cons.1 hnames
  obtain ⟨n, hn, hdepth⟩ := @exists_readWithin_sum name.toList (names.map String.toList) hname
    (List.forall_mem_map.2 hnames)
  rw [List.length_map] at hn hdepth
  have htext : ("+".intercalate (name :: names)).toList
      = ['+'].intercalate (name.toList :: names.map String.toList) := String.toList_intercalate
  have hnesting := nestingWithin_lt hn
  have hfits : (nestingWithin (names.length + 1) 1 none
      (['+'].intercalate (name.toList :: names.map String.toList)) < limit + 1
        ∧ n.depth ≤ max 1 limit) ↔ (name :: names).length ≤ limit := by
    rw [hdepth, List.length_cons]
    omega
  rw [parsePrepared, parseChars, htext, readWithin_eq_verdict (by rintro ch ⟨⟩) hn, verdict_map,
    verdict_congr hfits]
  by_cases hle : (name :: names).length ≤ limit
  · exact iff_of_true ⟨_, verdict_of hle⟩ hle
  · refine iff_of_false ?_ hle
    rw [verdict_of_not hle]
    rintro ⟨T, ⟨⟩⟩

/-- **The limit is exact**: a text that some limit accepts is refused by exactly the limits below
its nesting, and by those below the depth of its tree unless that is a leaf.  So no tree is deeper
than its limit, or one, and its evaluation calls itself no deeper; and a sum of names is accepted
by exactly the limits that are not below the number of its operands. -/
theorem parsePrepared_exact :
    (∀ (t : String) (free : Nat) (T : Expr), parsePrepared free t = .ok T → ∀ limit : Nat,
        parsePrepared limit t
          = if nesting t.toList ≤ limit ∧ (T.isLeaf ∨ T.depth ≤ limit) then .ok T
            else .error ⟨.tooDeep limit, none⟩)
      ∧ (∀ (t : String) (limit : Nat) (T : Expr), parsePrepared limit t = .ok T →
        T.depth ≤ max 1 limit
          ∧ ∀ ar x, T.reduceWithin ar x (max 1 limit) = some (T.reduce ar x))
      ∧ ∀ (names : List String) (limit : Nat), names ≠ [] → (∀ s ∈ names, IsName s.toList) →
        1 ≤ limit →
        ((∃ T, parsePrepared limit ("+".intercalate names) = .ok T) ↔ names.length ≤ limit) := by
  refine ⟨fun t free T h limit => parsePrepared_eq_verdict h, fun t limit T h => ?_,
    fun names limit hne hnames hlimit => exists_parsePrepared_sum_iff hne hnames hlimit⟩
  have hfits : nesting t.toList ≤ limit ∧ (T.isLeaf ∨ T.depth ≤ limit) := by
    refine Decidable.byContradiction fun hnot => ?_
    have hverdict := @parsePrepared_eq_verdict limit limit t T h
    rw [h, verdict_of_not hnot] at hverdict
    cases hverdict
  have hdepth := Expr.isLeaf_or_depth_le.1 hfits.2
  exact ⟨hdepth, fun ar x => by rw [Expr.reduceWithin_eq, if_pos hdepth]⟩

/-- A call in a nested rest: its nesting is two, and its tree is deeper than the limit three.  A
sum of three names: three is the least limit that accepts it. -/
theorem parsePrepared_exact_nested_call :
    parsePrepared 10 "1+2*sin_(x)"
        = .ok (.node .add (.literal 1) (.node .mul (.literal 2)
            (.node .apply (.identifier "sin") (.identifier "x"))))
      ∧ nesting "1+2*sin_(x)".toList = 2
      ∧ parsePrepared 3 "1+2*sin_(x)" = .error ⟨.tooDeep 3, none⟩
      ∧ (Expr.node .add (.literal 1) (.node .mul (.literal 2)
          (.node .apply (.identifier "sin") (.identifier "x")))).depth ≤ max 1 10
      ∧ (∀ s ∈ ["a", "b", "c"], IsName s.toList) ∧ "+".intercalate ["a", "b", "c"] = "a+b+c"
      ∧ (∃ T, parsePrepared 3 "a+b+c" = .ok T) ∧ ¬ ∃ T, parsePrepared 2 "a+b+c" = .ok T := by
  have hread : parsePrepared 10 "1+2*sin_(x)"
      = .ok (.node .add (.literal 1) (.node .mul (.literal 2)
          (.node .apply (.identifier "sin") (.identifier "x")))) := rfl
  have hnames : ∀ s ∈ ["a", "b", "c"], IsName s.toList := by
    simp only [List.forall_mem_cons]
    decide
  obtain ⟨hexact, hdepth, hsum⟩ := parsePrepared_exact
  refine ⟨hread, rfl, (hexact _ 10 _ hread 3).trans (if_neg (by decide)), (hdepth _ 10 _ hread).1,
    hnames, rfl, (hsum ["a", "b", "c"] 3 (by decide) hnames (by decide)).2 (by decide),
    fun h => ?_⟩
  exact absurd ((hsum ["a", "b", "c"] 2 (by decide) hnames (by decide)).1 h) (by decide)

end FormulaPlot
