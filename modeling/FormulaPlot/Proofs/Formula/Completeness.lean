import FormulaPlot.Proofs.Formula.Reading

/-!
# Proofs/Formula/Completeness — a formula is read, given room

A lenient body of `n` characters is read within a room above `n`, and under a limit that its tree
keeps, and it is read as its tree (`IsBody.readWithin`).  An operand is passed as a whole
(`Consumes`), a tail operator by operator (`TailReads`); the induction is on the derivation, with
one clause for each of the three relations.
-/

namespace FormulaPlot

/-! ## Trees as nodes -/

/-- A tree with its own depth. -/
def Node.of (e : Expr) : Node := ⟨e, e.depth⟩

theorem Node.join_of {limit : Nat} {op : Operator} {left right : Expr}
    (h : (Expr.node op left right).depth ≤ limit) :
    Node.join limit op (.of left) (.of right) = .ok (.of (.node op left right)) :=
  if_neg (Nat.not_lt.2 h)

namespace Expr

theorem depth_pos (e : Expr) : 0 < e.depth := by
  cases e <;> simp [depth]

theorem depth_left_lt (op : Operator) (left right : Expr) :
    left.depth < (node op left right).depth :=
  Nat.lt_succ_of_le (Nat.le_max_left _ _)

theorem depth_right_lt (op : Operator) (left right : Expr) :
    right.depth < (node op left right).depth :=
  Nat.lt_succ_of_le (Nat.le_max_right _ _)

end Expr

/-- **The left end of a chain is a subtree.** -/
theorem depth_le_depth_assemble (left : Expr) (items : List (Operator × Expr)) :
    left.depth ≤ (assemble left items).depth := by
  induction items generalizing left with
  | nil => exact Nat.le_refl _
  | cons item items ih =>
    obtain ⟨op, e⟩ := item
    rw [assemble]
    split
    · exact Nat.le_of_lt (Expr.depth_left_lt op left _)
    · exact Nat.le_trans (Nat.le_of_lt (Expr.depth_left_lt op left e)) (ih _)

/-- The operand behind it is a subtree too. -/
theorem depth_operand_le (left : Expr) (op : Operator) (e : Expr)
    (items : List (Operator × Expr)) :
    e.depth ≤ (assemble left ((op, e) :: items)).depth := by
  rw [assemble]
  split
  · exact Nat.le_trans (depth_le_depth_assemble e items)
      (Nat.le_of_lt (Expr.depth_right_lt op left _))
  · exact Nat.le_trans (Nat.le_of_lt (Expr.depth_right_lt op left e))
      (depth_le_depth_assemble _ items)

/-! ## Operands passed as a whole -/

section Consumes

variable {limit : Nat} {sub : SubReading}

/-- The text `s` at the start of an operand is passed, and leaves the tree `n` behind. -/
def Consumes (limit : Nat) (sub : SubReading) (s : List Char) (n : Node) : Prop :=
  ∃ o : Operand, o.node? = some n ∧ ∀ (chain : Option Chain) (i : Nat) (rest : List Char),
    Reading.run limit sub ⟨chain, .operand .empty⟩ i (s ++ rest)
      = Reading.run limit sub ⟨chain, .operand o⟩ (i + Text.byteSize s) rest

theorem consumes_number {s : List Char} {v : Float} (hs : IsNumberRun s)
    (hv : Number.readFront? s = some v) : Consumes limit sub s (.of (.literal v)) := by
  obtain ⟨c, t, rfl, hnum, hall⟩ := hs
  refine ⟨.number (t.reverse ++ [c]), ?_, fun chain i rest => ?_⟩
  · rw [Operand.node?, List.reverse_append, List.reverse_reverse]
    exact Option.map_eq_some_iff.2 ⟨v, hv, rfl⟩
  · obtain ⟨hc, ht⟩ := List.forall_mem_cons.1 hall
    rw [List.cons_append, Reading.run_ordinary hc, Operand.push, if_pos hnum, Text.byteSize_cons,
      ← Nat.add_assoc]
    exact Reading.run_number ht [c] _ rest

/-- A name is passed as a whole. -/
theorem run_wholeName {s : List Char} (hs : IsName s) (chain : Option Chain) (i : Nat)
    (rest : List Char) :
    Reading.run limit sub ⟨chain, .operand .empty⟩ i (s ++ rest)
      = Reading.run limit sub ⟨chain, .operand (.name s.reverse)⟩ (i + Text.byteSize s) rest := by
  obtain ⟨hne, hall⟩ := hs
  cases s with
  | nil => exact absurd rfl hne
  | cons c t =>
    obtain ⟨⟨hc, hnum⟩, ht⟩ := List.forall_mem_cons.1 hall
    rw [List.cons_append, Reading.run_ordinary hc, Operand.push, if_neg hnum, Text.byteSize_cons,
      ← Nat.add_assoc, List.reverse_cons]
    exact Reading.run_name ht [c] _ rest

theorem consumes_name {s : List Char} (hs : IsName s) :
    Consumes limit sub s (.of (.identifier (String.ofList s))) := by
  refine ⟨.name s.reverse, ?_, run_wholeName hs⟩
  rw [Operand.node?, List.reverse_reverse]
  rfl

/-- A bracket opens where an operand may start. -/
theorem run_open (chain : Option Chain) (i : Nat) (rest : List Char) :
    Reading.run limit sub ⟨chain, .operand .empty⟩ i ('(' :: rest)
      = Reading.run limit sub ⟨chain, .bracket none 0 []⟩ (i + '('.utf8Size) rest :=
  Reading.run_cons (by decide) _ i rest

theorem consumes_group {s : List Char} (hs : Text.IsBalanced s) {n : Node}
    (hne : Text.withoutBlanks s ≠ []) (hn : sub none (Text.withoutBlanks s) = .ok n) :
    Consumes limit sub ('(' :: (s ++ [')'])) n := by
  refine ⟨.finished n, rfl, fun chain i rest => ?_⟩
  have hclose (i : Nat) : closeBracket limit sub i none (Text.withoutBlanks s) = .ok n := by
    rw [closeBracket, if_neg hne, hn]
  rw [List.cons_append, List.append_assoc, run_open, List.singleton_append,
    Reading.run_brackets hs _ rest hclose, Text.byteSize_cons, Text.byteSize_append,
    Text.byteSize_cons, Text.byteSize_nil]
  congr 1
  omega

/-- The call mark behind a name and the bracket behind it open a call. -/
theorem run_openCall {f : List Char} (hf : IsName f) (chain : Option Chain) (i : Nat)
    (rest : List Char) :
    Reading.run limit sub ⟨chain, .operand .empty⟩ i (f ++ '_' :: '(' :: rest)
      = Reading.run limit sub ⟨chain, .bracket (some (String.ofList f)) 0 []⟩
          (i + Text.byteSize f + '_'.utf8Size + '('.utf8Size) rest := by
  rw [run_wholeName hf, Reading.run_cons (by decide)]
  simp only [Reading.step, stepOutside, Operand.markCall, List.reverse_reverse]
  exact Reading.run_cons (by decide) _ _ rest

theorem consumes_call {f s : List Char} (hf : IsName f) (hs : Text.IsBalanced s) {e : Expr}
    (hn : sub none (Text.withoutBlanks s) = .ok (.of e))
    (hdepth : (Expr.node .apply (.identifier (String.ofList f)) e).depth ≤ limit) :
    Consumes limit sub (f ++ '_' :: '(' :: (s ++ [')']))
      (.of (.node .apply (.identifier (String.ofList f)) e)) := by
  refine ⟨.finished _, rfl, fun chain i rest => ?_⟩
  have hclose (i : Nat) :
      closeBracket limit sub i (some (String.ofList f)) (Text.withoutBlanks s)
        = .ok (.of (.node .apply (.identifier (String.ofList f)) e)) := by
    simp only [closeBracket, hn]
    exact Node.join_of hdepth
  rw [List.append_assoc, List.cons_append, List.cons_append, List.append_assoc, run_openCall hf,
    List.singleton_append, Reading.run_brackets hs _ rest hclose]
  simp only [Text.byteSize_append, Text.byteSize_cons, Text.byteSize_nil]
  congr 1
  omega

/-- Where the last operand is missing, `0` takes its place. -/
theorem run_missing {s : List Char}
    (hs : s = [] ∨ IsNumberRun s ∧ Number.readFront? s = none) (left : Node) (op : Operator)
    (i : Nat) :
    (Reading.start (some ⟨left, op⟩)).run limit sub i s
      = Node.join limit op left (.of (.literal 0)) := by
  rcases hs with rfl | ⟨⟨c, t, rfl, hnum, hall⟩, hv⟩
  · exact Reading.finish_of_missing rfl (by simp)
  · obtain ⟨hc, ht⟩ := List.forall_mem_cons.1 hall
    have hnode : (Operand.number (t.reverse ++ [c])).node? = none := by
      rw [Operand.node?, List.reverse_append, List.reverse_reverse]
      exact Option.map_eq_none_iff.2 hv
    have hrun : Reading.run limit sub ⟨some ⟨left, op⟩, .operand (.number [c])⟩ (i + c.utf8Size)
        (t ++ []) = _ := Reading.run_number ht [c] _ []
    rw [List.append_nil] at hrun
    rw [Reading.start, Reading.run_ordinary hc, Operand.push, if_pos hnum]
    exact hrun.trans (Reading.finish_of_missing hnode (by simp))

end Consumes

/-! ## The characters of a formula -/

/-- A text without blanks whose brackets are balanced. -/
def IsSolid (s : List Char) : Prop := Text.withoutBlanks s = s ∧ Text.IsBalanced s

theorem isSolid_of_forall {s : List Char} (h : ∀ c ∈ s, isOrdinary c = true) : IsSolid s :=
  ⟨Text.withoutBlanks_of_forall fun c hc => isBlank_eq_false_of_isOrdinary (h c hc),
    Text.isBalanced_of_forall fun c hc =>
      ⟨(isOrdinary_iff.1 (h c hc)).2.1, (isOrdinary_iff.1 (h c hc)).2.2.1⟩⟩

theorem IsNumberRun.forall {s : List Char} (h : IsNumberRun s) : ∀ c ∈ s, isOrdinary c = true := by
  obtain ⟨c, t, -, -, hall⟩ := h
  exact hall

theorem IsName.forall {s : List Char} (h : IsName s) : ∀ c ∈ s, isOrdinary c = true :=
  fun c hc => (h.2 c hc).1

theorem IsSolid.append {s t : List Char} (hs : IsSolid s) (ht : IsSolid t) : IsSolid (s ++ t) :=
  ⟨by rw [Text.withoutBlanks_append, hs.1, ht.1], hs.2.append ht.2⟩

theorem IsSolid.bracket {s : List Char} (hs : IsSolid s) : IsSolid ('(' :: (s ++ [')'])) := by
  refine ⟨?_, hs.2.bracket⟩
  rw [Text.withoutBlanks_cons_of_not_blank (by decide), Text.withoutBlanks_append, hs.1]
  rfl

theorem IsSolid.symbol_cons {s : List Char} (op : Operator) (hs : IsSolid s) :
    IsSolid (op.symbol :: s) := by
  have hop : IsSolid [op.symbol] := by cases op <;> exact ⟨rfl, rfl⟩
  exact hop.append hs

mutual

theorem IsOperand.isSolid {lenient : Bool} {s : List Char} {e : Expr} :
    IsOperand lenient s e → IsSolid s
  | .number run _ => isSolid_of_forall run.forall
  | .name name => isSolid_of_forall name.forall
  | .group body => body.isSolid.bracket
  | .call name body =>
    IsSolid.append (isSolid_of_forall name.forall) (body.isSolid.bracket.symbol_cons .apply)

theorem IsTail.isSolid {lenient : Bool} {previous : Option Operator} {t : List Char}
    {items : List (Operator × Expr)} : IsTail lenient previous t items → IsSolid t
  | .nil => ⟨rfl, rfl⟩
  | .cons _ operand tail => (operand.isSolid.append tail.isSolid).symbol_cons _
  | .last _ (.inl hs) => hs ▸ IsSolid.symbol_cons _ ⟨rfl, rfl⟩
  | .last _ (.inr hs) => (isSolid_of_forall hs.1.forall).symbol_cons _
  | .gap _ _ _ _ tail => tail.isSolid.symbol_cons _

theorem IsBody.isSolid {lenient : Bool} {s : List Char} {e : Expr} :
    IsBody lenient s e → IsSolid s
  | .plain operand tail => operand.isSolid.append tail.isSolid
  | .signed _ tail => tail.isSolid

end

/-- An operand starts with an ordinary character or a bracket. -/
theorem IsOperand.exists_cons {lenient : Bool} {s : List Char} {e : Expr}
    (h : IsOperand lenient s e) :
    ∃ c t, s = c :: t ∧ (isOrdinary c = true ∨ c = '(') := by
  cases h with
  | number run =>
    obtain ⟨c, t, rfl, -, hall⟩ := run
    exact ⟨c, t, rfl, .inl (hall c List.mem_cons_self)⟩
  | name name =>
    obtain ⟨c, t, rfl⟩ := List.exists_cons_of_ne_nil name.1
    exact ⟨c, t, rfl, .inl (name.2 c List.mem_cons_self).1⟩
  | group body => exact ⟨_, _, rfl, .inr rfl⟩
  | call name body =>
    obtain ⟨c, t, rfl⟩ := List.exists_cons_of_ne_nil name.1
    exact ⟨c, _, rfl, .inl (name.2 c List.mem_cons_self).1⟩

theorem withLeadingZero_cons {c : Char} (h : isOrdinary c = true ∨ c = '(') (t : List Char) :
    withLeadingZero (c :: t) = c :: t := by
  rcases withLeadingZero_cases (c :: t) with hs | ⟨sign, u, hsign, hs, -⟩
  · exact hs
  · obtain rfl : c = sign.symbol := (List.cons.inj hs).1
    rcases h with h | h
    · rw [not_isOrdinary_symbol] at h
      cases h
    · cases sign <;> cases hsign <;> cases h

theorem IsTail.ne_nil {lenient : Bool} {previous : Option Operator} {t : List Char}
    {item : Operator × Expr} {items : List (Operator × Expr)}
    (h : IsTail lenient previous t (item :: items)) : t ≠ [] := by
  cases h <;> exact List.cons_ne_nil _ _

theorem IsBody.ne_nil {lenient : Bool} {s : List Char} {e : Expr} (h : IsBody lenient s e) :
    s ≠ [] := by
  cases h with
  | plain operand tail =>
    obtain ⟨c, u, rfl, -⟩ := operand.exists_cons
    exact List.cons_ne_nil _ _
  | signed additive tail => exact tail.ne_nil

/-- **An operand has no sign in front.** -/
theorem IsOperand.withLeadingZero_append {lenient : Bool} {s : List Char} {e : Expr}
    (h : IsOperand lenient s e) (t : List Char) : withLeadingZero (s ++ t) = s ++ t := by
  obtain ⟨c, u, rfl, hc⟩ := h.exists_cons
  exact withLeadingZero_cons hc (u ++ t)

/-- Neither has a missing one. -/
theorem withLeadingZero_missing {s : List Char}
    (hs : s = [] ∨ IsNumberRun s ∧ Number.readFront? s = none) : withLeadingZero s = s := by
  rcases hs with rfl | ⟨⟨c, t, rfl, -, hall⟩, -⟩
  · rfl
  · exact withLeadingZero_cons (.inl (hall c List.mem_cons_self)) t

/-! ## The induction -/

/-- What is read behind an operand: nothing, or an operator and a text `u` that, read behind that
operator, leads to the tree of the chain.  Where the operator does not nest, `u` has no sign in
front, so it makes no difference whether it is read on its own. -/
def TailReads (limit : Nat) (previous : Option Operator) (t : List Char) :
    List (Operator × Expr) → Prop
  | [] => t = []
  | (op, x) :: items => ∃ u, t = op.symbol :: u ∧ op ≠ .apply
      ∧ (previous.any (nestsRight · op) = false → withLeadingZero u = u)
      ∧ ∀ (room : Nat) (left : Expr) (i : Nat), u.length ≤ room →
        (assemble left ((op, x) :: items)).depth ≤ limit →
        (Reading.start (some ⟨.of left, op⟩)).run limit (readWithin limit room) i
          (withLeadingZero u) = .ok (.of (assemble left ((op, x) :: items)))

section TailReads

variable {limit room : Nat} {t : List Char} {items : List (Operator × Expr)} {o : Operand}
  {e : Expr}

/-- A tail behind the first operand of a text. -/
theorem TailReads.run_first (h : TailReads limit none t items) (ho : o.node? = some (.of e))
    (hroom : t.length ≤ room) (hdepth : (assemble e items).depth ≤ limit) (i : Nat) :
    Reading.run limit (readWithin limit room) ⟨none, .operand o⟩ i t
      = .ok (.of (assemble e items)) := by
  cases items with
  | nil =>
    obtain rfl : t = [] := h
    exact Reading.finish_of_node? ho
  | cons item items =>
    obtain ⟨op, x⟩ := item
    obtain ⟨u, rfl, hop, hzero, hread⟩ := h
    rw [Reading.run_operator hop ho]
    have hu := hread room e (i + op.symbol.utf8Size) (Nat.le_of_succ_le hroom) hdepth
    rwa [hzero rfl] at hu

/-- A tail behind an operand that an operator stands before. -/
theorem TailReads.run_next {previous : Operator} {left : Expr}
    (h : TailReads limit (some previous) t items) (ho : o.node? = some (.of e))
    (hroom : t.length ≤ room)
    (hdepth : (assemble left ((previous, e) :: items)).depth ≤ limit) (i : Nat) :
    Reading.run limit (readWithin limit room) ⟨some ⟨.of left, previous⟩, .operand o⟩ i t
      = .ok (.of (assemble left ((previous, e) :: items))) := by
  cases items with
  | nil =>
    obtain rfl : t = [] := h
    exact (Reading.finish_of_node? ho).trans (Node.join_of hdepth)
  | cons item items =>
    obtain ⟨op, x⟩ := item
    obtain ⟨u, rfl, hop, hzero, hread⟩ := h
    rw [Reading.run_operator hop ho]
    cases hnests : nestsRight previous op with
    | true =>
      rw [assemble_of_nests hnests] at hdepth ⊢
      rw [pushOperator_of_nests hnests]
      cases room with
      | zero => cases hroom
      | succ room =>
        have hlt := Expr.depth_right_lt previous left (assemble e ((op, x) :: items))
        rw [readWithin, hread room e 0 (Nat.le_of_succ_le_succ hroom) (by omega), Except.bind,
          Node.join_of hdepth]
        rfl
    | false =>
      rw [assemble_of_not_nests hnests] at hdepth ⊢
      have hle := depth_le_depth_assemble (.node previous left e) ((op, x) :: items)
      rw [pushOperator_of_not_nests hnests, Node.join_of (by omega)]
      have hu := hread room (.node previous left e) (i + op.symbol.utf8Size)
        (Nat.le_of_succ_le hroom) hdepth
      rwa [hzero hnests] at hu

end TailReads

section Reads

variable {limit : Nat} {previous : Option Operator} {op : Operator} {s t : List Char} {e : Expr}
  {items : List (Operator × Expr)}

/-- An operator, an operand and a tail. -/
theorem tailReads_cons (hop : op ≠ .apply)
    (hs : ∀ room, s.length ≤ room → e.depth ≤ limit →
      Consumes limit (readWithin limit room) s (.of e))
    (hzero : withLeadingZero (s ++ t) = s ++ t) (ht : TailReads limit (some op) t items) :
    TailReads limit previous (op.symbol :: (s ++ t)) ((op, e) :: items) := by
  refine ⟨s ++ t, rfl, hop, fun _ => hzero, fun room left i hroom hdepth => ?_⟩
  rw [List.length_append] at hroom
  have he := depth_operand_le left op e items
  obtain ⟨o, ho, hrun⟩ := hs room (by omega) (by omega)
  rw [hzero, Reading.start, hrun]
  exact ht.run_next ho (by omega) hdepth _

/-- An operator without an operand, at the end. -/
theorem tailReads_last (hop : op ≠ .apply)
    (hs : s = [] ∨ IsNumberRun s ∧ Number.readFront? s = none) :
    TailReads limit previous (op.symbol :: s) [(op, .literal 0)] := by
  refine ⟨s, rfl, hop, fun _ => withLeadingZero_missing hs, fun room left i _ hdepth => ?_⟩
  rw [withLeadingZero_missing hs, run_missing hs]
  exact Node.join_of hdepth

/-- An operator that nests to the right, with a sign behind it. -/
theorem tailReads_gap {before sign : Operator} (hop : op ≠ .apply)
    (hnests : nestsRight before op = true) (hsign : sign.isAdditive = true)
    (ht : TailReads limit (some op) t ((sign, e) :: items)) :
    TailReads limit (some before) (op.symbol :: t) ((op, .literal 0) :: (sign, e) :: items) := by
  refine ⟨t, rfl, hop, fun h => ?_, fun room left i hroom hdepth => ?_⟩
  · rw [Option.any_some, hnests] at h
    cases h
  · have hzero : withLeadingZero t = '0' :: t := by
      obtain ⟨u, rfl, -⟩ := ht
      cases sign <;> cases hsign <;> rfl
    have ho : (Operand.number ['0']).node? = some (.of (.literal 0)) := rfl
    rw [hzero, Reading.start, Reading.run_ordinary (by decide)]
    exact ht.run_next ho hroom hdepth _

/-- An operand and a tail. -/
theorem readWithin_plain {room : Nat}
    (hs : ∀ room, s.length ≤ room → e.depth ≤ limit →
      Consumes limit (readWithin limit room) s (.of e))
    (hzero : withLeadingZero (s ++ t) = s ++ t) (ht : TailReads limit none t items)
    (hroom : (s ++ t).length < room) (hdepth : (assemble e items).depth ≤ limit) :
    readWithin limit room none (s ++ t) = .ok (.of (assemble e items)) := by
  rw [List.length_append] at hroom
  cases room with
  | zero => cases hroom
  | succ room =>
    have he := depth_le_depth_assemble e items
    obtain ⟨o, ho, hrun⟩ := hs room (by omega) (by omega)
    rw [readWithin, hzero, Reading.start, hrun]
    exact ht.run_first ho (by omega) hdepth _

/-- A sign, with the `0` in front of it, and a tail. -/
theorem readWithin_signed {room : Nat} {sign : Operator} (hsign : sign.isAdditive = true)
    (ht : TailReads limit none t ((sign, e) :: items)) (hroom : t.length < room)
    (hdepth : (assemble (.literal 0) ((sign, e) :: items)).depth ≤ limit) :
    readWithin limit room none t = .ok (.of (assemble (.literal 0) ((sign, e) :: items))) := by
  have hzero : withLeadingZero t = '0' :: t := by
    obtain ⟨u, rfl, -⟩ := ht
    cases sign <;> cases hsign <;> rfl
  have ho : (Operand.number ['0']).node? = some (.of (.literal 0)) := rfl
  cases room with
  | zero => cases hroom
  | succ room =>
    rw [readWithin, hzero, Reading.start, Reading.run_ordinary (by decide)]
    exact ht.run_first ho (Nat.le_of_lt_succ hroom) hdepth _

end Reads

mutual

/-- **An operand is passed as a whole.** -/
theorem IsOperand.consumes {limit room : Nat} {s : List Char} {e : Expr} :
    IsOperand true s e → s.length ≤ room → e.depth ≤ limit →
      Consumes limit (readWithin limit room) s (.of e)
  | .number run value, _, _ => consumes_number run value
  | .name name, _, _ => consumes_name name
  | @IsOperand.group _ s e body, hroom, hdepth => by
    -- The content is shorter by its brackets, so what room is left is enough for it.
    rw [List.length_cons, List.length_append] at hroom
    have hread : readWithin limit room none s = .ok (.of e) :=
      body.readWithin (by omega) hdepth
    obtain ⟨hsolid, hbalanced⟩ := body.isSolid
    refine consumes_group hbalanced ?_ ?_ <;> rw [hsolid]
    · exact body.ne_nil
    · exact hread
  | @IsOperand.call _ f s e name body, hroom, hdepth => by
    have hlt := Expr.depth_right_lt .apply (.identifier (String.ofList f)) e
    rw [List.length_append, List.length_cons, List.length_cons, List.length_append] at hroom
    have hread : readWithin limit room none s = .ok (.of e) :=
      body.readWithin (by omega) (by omega)
    obtain ⟨hsolid, hbalanced⟩ := body.isSolid
    refine consumes_call name hbalanced ?_ hdepth
    rw [hsolid]
    exact hread

/-- **A tail is read** behind whatever it stands behind. -/
theorem IsTail.reads {limit : Nat} {previous : Option Operator} {t : List Char}
    {items : List (Operator × Expr)} : IsTail true previous t items →
      TailReads limit previous t items
  | .nil => rfl
  | .cons arithmetic operand tail =>
    tailReads_cons arithmetic (fun _ => operand.consumes) (operand.withLeadingZero_append _)
      tail.reads
  | .last arithmetic missing => tailReads_last arithmetic missing
  | .gap _ arithmetic nests additive tail => tailReads_gap arithmetic nests additive tail.reads

/-- **A body is read** as its tree. -/
theorem IsBody.readWithin {limit room : Nat} {s : List Char} {e : Expr} :
    IsBody true s e → s.length < room → e.depth ≤ limit →
      readWithin limit room none s = .ok (.of e)
  | .plain operand tail, hroom, hdepth =>
    readWithin_plain (fun _ => operand.consumes) (operand.withLeadingZero_append _) tail.reads
      hroom hdepth
  | .signed additive tail, hroom, hdepth => readWithin_signed additive tail.reads hroom hdepth

end

end FormulaPlot
