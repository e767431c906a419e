import FormulaPlot.Proofs.Formula.Completeness
import FormulaPlot.Proofs.Formula.Limit

/-!
# Proofs/Formula/Nesting — the limit is exact

Two things count against the limit: how many texts are read on their own inside one another, which
`nesting` counts along the scan, and how deep the tree is, of which every tree made on the way is a
part.  A text that some limit lets pass is refused by exactly the limits below one of the two; a
leaf alone is never refused (`readWithin_eq_verdict`).
-/

namespace FormulaPlot

/-! ## Texts read inside one another -/

/-- How many texts a move reads inside one another, if `depth` says so of each. -/
def Move.inner (depth : Option Chain → List Char → Nat) : Move → Nat
  | close _ content => depth none content + 1
  | nest _ value op rest => depth (some ⟨value, op⟩) rest + 1
  | _ => 0

/-- How many texts are read inside one another in a run, if `depth` says so of each text read on
its own. -/
def Reading.nesting (limit : Nat) (sub : SubReading) (depth : Option Chain → List Char → Nat)
    (r : Reading) (i : Nat) : List Char → Nat
  | [] => 0
  | c :: rest =>
    if Text.isBlank c then nesting limit sub depth r (i + c.utf8Size) rest
    else
      let move := r.move i c rest
      match move.perform limit sub r.chain with
      | .ok (.more r) =>
        max (move.inner depth) (nesting limit sub depth r (i + c.utf8Size) rest)
      | _ => move.inner depth

/-- How many texts are read inside one another while a text is read within some room. -/
def nestingWithin (limit : Nat) : Nat → Option Chain → List Char → Nat
  | 0, _, _ => 0
  | room + 1, chain, text =>
    (Reading.start chain).nesting limit (readWithin limit room) (nestingWithin limit room) 0
      (withLeadingZero text)

/-- **The nesting of a text**: the greatest number of texts read on their own inside one another
while it is read, without a limit that it could reach. -/
def nesting (text : List Char) : Nat :=
  nestingWithin (text.length + 1) (text.length + 2) none text

example : nesting "((x)) + (y)".toList = 2 := rfl

example : nesting "1+2*3+4*sin_(x)".toList = 3 := rfl

example : nesting "1*2*3+4".toList = 0 := rfl

section NestingRun

variable {limit : Nat} {sub : SubReading} {depth : Option Chain → List Char → Nat} {r : Reading}
  {i : Nat} {c : Char} {rest : List Char}

theorem Reading.nesting_blank (hc : Text.isBlank c = true) :
    r.nesting limit sub depth i (c :: rest)
      = r.nesting limit sub depth (i + c.utf8Size) rest := by rw [nesting, if_pos hc]

theorem Reading.nesting_done (hc : Text.isBlank c = false) {n : Node}
    (h : (r.move i c rest).perform limit sub r.chain = .ok (.done n)) :
    r.nesting limit sub depth i (c :: rest) = (r.move i c rest).inner depth := by
  rw [nesting, if_neg (Bool.eq_false_iff.1 hc)]
  simp only [h]

theorem Reading.nesting_more (hc : Text.isBlank c = false) {r' : Reading}
    (h : (r.move i c rest).perform limit sub r.chain = .ok (.more r')) :
    r.nesting limit sub depth i (c :: rest)
      = max ((r.move i c rest).inner depth)
          (r'.nesting limit sub depth (i + c.utf8Size) rest) := by
  rw [nesting, if_neg (Bool.eq_false_iff.1 hc)]
  simp only [h]

end NestingRun

/-! ## Trees only grow -/

theorem Node.depth_join {limit : Nat} {op : Operator} {left right n : Node}
    (h : Node.join limit op left right = .ok n) :
    n.depth = max left.depth right.depth + 1 :=
  congrArg Node.depth (Node.join_eq_ok_iff.1 h).1

theorem depth_le_of_wrapCall {limit : Nat} {callee : Option String} {n n' : Node}
    (h : wrapCall limit callee n = .ok n') : n.depth ≤ n'.depth := by
  cases callee with
  | none => exact Nat.le_of_eq (congrArg Node.depth (Except.ok.inj h))
  | some name =>
    rw [Node.depth_join h]
    exact Nat.le_succ_of_le (Nat.le_max_right _ _)

/-- A tree that a reading outside all brackets holds is on the left of its chain, or its operand's
tree. -/
theorem Reading.mem_chain_or_focus {r : Reading} {o : Operand} {n : Node} (h : n ∈ r.trees)
    (focus : r.focus = .operand o) :
    (∃ ch, r.chain = some ch ∧ ch.left = n) ∨ o.node? = some n := by
  rw [trees, List.mem_append, focus, Option.mem_toList, Option.mem_toList,
    Option.map_eq_some_iff] at h
  refine h.imp_right fun hn => ?_
  cases o with
  | finished m => exact hn
  | _ => cases hn

/-- Without a chain it is the operand's. -/
theorem Reading.eq_of_mem_trees {r : Reading} {o : Operand} {n value : Node} (h : n ∈ r.trees)
    (chain : r.chain = none) (focus : r.focus = .operand o) (node : o.node? = some value) :
    n = value := by
  rcases mem_chain_or_focus h focus with ⟨ch, hch, -⟩ | hn
  · rw [chain] at hch
    cases hch
  · exact Option.some.inj (hn.symm.trans node)

/-- With a chain it is one of the two, and joining them makes a deeper one. -/
theorem Reading.depth_le_of_mem_trees {r : Reading} {o : Operand} {ch : Chain} {n right : Node}
    (h : n ∈ r.trees) (chain : r.chain = some ch) (focus : r.focus = .operand o)
    (hright : ∀ m, o.node? = some m → m.depth ≤ right.depth) {limit : Nat} {op : Operator}
    {joined : Node} (hjoin : Node.join limit op ch.left right = .ok joined) :
    n.depth ≤ joined.depth := by
  rw [Node.depth_join hjoin]
  rcases mem_chain_or_focus h focus with ⟨ch', hch, rfl⟩ | hn
  · obtain rfl := Option.some.inj (chain.symm.trans hch)
    omega
  · have hle := hright n hn
    omega

/-- The trees that a reading holds whose focus holds none. -/
theorem Reading.mem_trees_of_bare {r : Reading} {n : Node} (h : n ∈ r.trees)
    (hbare : r.focus.tree? = none) (focus : Focus) : n ∈ trees ⟨r.chain, focus⟩ := by
  rw [trees, hbare] at h
  exact List.mem_append_left _ (by simpa using h)

section Grow

variable {limit depth : Nat} {sub : SubReading}
  (hsub : ∀ ch t n, sub (some ch) t = .ok n → ch.left.depth ≤ n.depth)
include hsub

/-- **A move makes no tree smaller.** -/
theorem Reading.Allows.exists_tree {r : Reading} {rest : List Char} {move : Move}
    (hmove : r.Allows rest move) {outcome : Outcome}
    (h : move.perform limit sub r.chain = .ok outcome) (hr : ∃ n ∈ r.trees, depth ≤ n.depth) :
    ∃ n ∈ outcome.trees, depth ≤ n.depth := by
  obtain ⟨n, hn, hdepth⟩ := hr
  cases hmove with
  | fault => cases h
  | collect bare bare' size =>
    cases h
    exact ⟨n, Reading.mem_trees_of_bare hn bare _, hdepth⟩
  | @begin o value op chain focus node =>
    cases h
    exact ⟨value, List.mem_cons_self, Reading.eq_of_mem_trees hn chain focus node ▸ hdepth⟩
  | close focus =>
    obtain ⟨m, -, h⟩ := exists_of_bind_eq_ok h
    obtain ⟨m', -, rfl⟩ := exists_of_map_eq_ok h
    exact ⟨n, Reading.mem_trees_of_bare hn (by rw [focus]; rfl) _, hdepth⟩
  | extend chain focus node =>
    obtain ⟨m, hjoin, rfl⟩ := exists_of_map_eq_ok h
    have hle : n.depth ≤ m.depth := Reading.depth_le_of_mem_trees hn chain focus
      (fun k hk => Nat.le_of_eq (by rw [Option.some.inj (hk.symm.trans node)])) hjoin
    exact ⟨m, List.mem_cons_self, Nat.le_trans hdepth hle⟩
  | nest chain focus node =>
    obtain ⟨nested, hnested, h⟩ := exists_of_bind_eq_ok h
    obtain ⟨m, hjoin, rfl⟩ := exists_of_map_eq_ok h
    have hle : n.depth ≤ m.depth := Reading.depth_le_of_mem_trees hn chain focus
      (fun k hk => Option.some.inj (hk.symm.trans node) ▸ hsub _ _ _ hnested) hjoin
    exact ⟨m, List.mem_cons_self, Nat.le_trans hdepth hle⟩

/-- **A run makes no tree smaller.** -/
theorem Reading.depth_le_of_run {r : Reading} {i : Nat} {rest : List Char} {n m : Node}
    (hn : n ∈ r.trees) (h : r.run limit sub i rest = .ok m) : n.depth ≤ m.depth := by
  refine Reading.run_induction (fun r _ => ∃ k ∈ r.trees, n.depth ≤ k.depth)
    (fun x => ∀ m, x = .ok m → n.depth ≤ m.depth) ?finish (fun _ _ _ hr => hr) ?step
    ⟨n, hn, Nat.le_refl _⟩ m h
  case finish =>
    rintro r ⟨k, hk, hle⟩ m hm
    rcases r.finish_cases with ⟨e, -, he⟩ | ⟨o, value, chain, focus, node, hvalue⟩ |
      ⟨ch, o, right, chain, focus, node, hjoin⟩
    · rw [he] at hm
      cases hm
    · obtain rfl := Except.ok.inj ((hvalue limit).symm.trans hm)
      exact Reading.eq_of_mem_trees hk chain focus node ▸ hle
    · have hright : ∀ k, o.node? = some k → k.depth ≤ right.depth := by
        rintro k hk
        rcases node with node | ⟨node, -⟩
        · exact Nat.le_of_eq (by rw [Option.some.inj (hk.symm.trans node)])
        · rw [node] at hk
          cases hk
      exact Nat.le_trans hle
        (Reading.depth_le_of_mem_trees hk chain focus hright ((hjoin limit).symm.trans hm))
  case step =>
    intro r c rest move hr hmove
    cases hperform : move.perform limit sub r.chain with
    | error e => rintro m ⟨⟩
    | ok outcome =>
      have hgrow := hmove.exists_tree hsub hperform hr
      cases outcome with
      | done n =>
        obtain ⟨k, hk, hle⟩ := hgrow
        obtain rfl := List.mem_singleton.1 hk
        exact fun m hm => Except.ok.inj hm ▸ hle
      | more r' => exact hgrow

end Grow

/-! ## The verdict -/

/-- The tree `a` if it fits, and else the verdict of the limit. -/
def verdict {α : Type} (limit : Nat) (fits : Prop) [Decidable fits] (a : α) :
    Except ParseError α :=
  if fits then .ok a else .error ⟨.tooDeep limit, none⟩

section Verdict

variable {α β : Type} {limit : Nat} {p q : Prop} [Decidable p] [Decidable q] {a : α}

theorem verdict_congr (h : p ↔ q) : verdict limit p a = verdict limit q a := by
  unfold verdict
  simp only [h]

theorem verdict_of (h : p) : verdict limit p a = .ok a := if_pos h

theorem verdict_of_not (h : ¬ p) : verdict limit p a = .error ⟨.tooDeep limit, none⟩ := if_neg h

theorem verdict_bind {f : α → Except ParseError β} {b : β} (h : p → f a = verdict limit q b) :
    (verdict limit p a).bind f = verdict limit (p ∧ q) b := by
  by_cases hp : p
  · rw [verdict_of hp]
    exact (h hp).trans (verdict_congr (and_iff_right hp).symm)
  · rw [verdict_of_not hp, verdict_of_not fun h => hp h.1]
    rfl

theorem verdict_map (f : α → β) : (verdict limit p a).map f = verdict limit p (f a) := by
  unfold verdict
  split <;> rfl

end Verdict

/-! ## The verdict of a reading -/

/-- **A reading within some room makes no tree smaller** than the left end of its chain. -/
theorem depth_le_of_readWithin {limit room : Nat} {ch : Chain} {t : List Char} {n : Node}
    (h : readWithin limit room (some ch) t = .ok n) : ch.left.depth ≤ n.depth := by
  induction room generalizing ch t n with
  | zero => cases h
  | succ room ih => exact Reading.depth_le_of_run (fun _ _ _ => ih) List.mem_cons_self h

/-- A tree of a positive depth that the limit lets pass. -/
def Fits (limit : Nat) (n : Node) : Prop := 1 ≤ n.depth ∧ n.depth ≤ max 1 limit

theorem fits_leaf (limit : Nat) (e : Expr) : Fits limit (.leaf e) :=
  ⟨Nat.le_refl 1, Nat.le_max_left 1 limit⟩

section Exact

variable {free limit : Nat}

/-- **Joining** is refused by exactly the limits below the depth it comes to. -/
theorem join_eq_verdict {op : Operator} {left right n : Node} (hleft : 1 ≤ left.depth)
    (h : Node.join free op left right = .ok n) :
    Node.join limit op left right = verdict limit (n.depth ≤ max 1 limit) n := by
  have hdepth := Node.depth_join h
  have hn := (Node.join_eq_ok_iff.1 h).1
  by_cases hle : n.depth ≤ max 1 limit
  · rw [verdict_of hle, Node.join_of_le (by omega), hn]
  · rw [verdict_of_not hle]
    exact if_pos (by omega)

theorem wrapCall_eq_verdict {callee : Option String} {n n' : Node}
    (hfits : n.depth ≤ max 1 limit) (h : wrapCall free callee n = .ok n') :
    wrapCall limit callee n = verdict limit (n'.depth ≤ max 1 limit) n' := by
  cases callee with
  | none =>
    obtain rfl := Except.ok.inj h
    exact (verdict_of hfits).symm
  | some name => exact join_eq_verdict (Nat.le_refl 1) h

theorem Reading.finish_eq_verdict {r : Reading} {n : Node} (hr : ∀ n ∈ r.trees, Fits limit n)
    (h : r.finish free = .ok n) :
    r.finish limit = verdict limit (n.depth ≤ max 1 limit) n := by
  rcases r.finish_cases with ⟨e, -, he⟩ | ⟨o, value, -, focus, node, hvalue⟩ |
    ⟨ch, o, right, chain, -, -, hjoin⟩
  · rw [he] at h
    cases h
  · obtain rfl := Except.ok.inj ((hvalue free).symm.trans h)
    have hfits : Fits limit value := Reading.of_node? hr (fun e _ => fits_leaf limit e) focus node
    rw [hvalue, verdict_of hfits.2]
  · rw [hjoin] at h ⊢
    exact join_eq_verdict ((Reading.forall_trees.1 hr).1 ch chain).1 h

variable {room : Nat} {sub sub' : SubReading} {depth : Option Chain → List Char → Nat}
  (hsub : ∀ chain t n, (∀ ch ∈ chain, Fits limit ch.left) → sub chain t = .ok n →
    sub' chain t = verdict limit (depth chain t < room ∧ n.depth ≤ max 1 limit) n)
include hsub

/-- **A move** is refused by exactly the limits below the nesting of what it reads or the depth of
what it makes. -/
theorem Reading.Allows.perform_eq_verdict {r : Reading} {rest : List Char} {move : Move}
    (hmove : r.Allows rest move) (hr : ∀ n ∈ r.trees, Fits limit n) {outcome : Outcome}
    (h : move.perform free sub r.chain = .ok outcome) :
    move.perform limit sub' r.chain
      = verdict limit (move.inner depth ≤ room ∧ ∀ n ∈ outcome.trees, n.depth ≤ max 1 limit)
          outcome := by
  have hchain := (Reading.forall_trees.1 hr).1
  cases hmove with
  | fault => cases h
  | @collect focus bare bare' size =>
    cases h
    have htrees : ∀ n ∈ trees ⟨r.chain, focus⟩, n.depth ≤ max 1 limit :=
      Reading.forall_trees.2 ⟨fun ch hch => (hchain ch hch).2, by simp [bare']⟩
    exact (verdict_of ⟨Nat.zero_le _, htrees⟩).symm
  | @begin o value op chain focus node =>
    cases h
    have hvalue : Fits limit value := of_node? hr (fun e _ => fits_leaf limit e) focus node
    exact (verdict_of ⟨Nat.zero_le _, List.forall_mem_singleton.2 hvalue.2⟩).symm
  | @close callee content focus =>
    obtain ⟨n, hn, h⟩ := exists_of_bind_eq_ok h
    obtain ⟨n', hwrap, rfl⟩ := exists_of_map_eq_ok h
    have hle := depth_le_of_wrapCall hwrap
    rw [Move.perform, hsub _ _ _ (by rintro ch ⟨⟩) hn, verdict_bind fun hfits => by
      rw [wrapCall_eq_verdict hfits.2 hwrap, verdict_map]]
    refine verdict_congr ?_
    have htrees : (∀ m ∈ trees ⟨r.chain, .operand (.finished n')⟩, m.depth ≤ max 1 limit)
        ↔ n'.depth ≤ max 1 limit := by
      rw [Reading.forall_trees]
      exact ⟨fun h => h.2 n' rfl,
        fun h => ⟨fun ch hch => (hchain ch hch).2, fun m hm => Option.some.inj hm ▸ h⟩⟩
    simp only [Outcome.trees, htrees, Move.inner]
    omega
  | @extend ch o value op chain focus node =>
    obtain ⟨n, hjoin, rfl⟩ := exists_of_map_eq_ok h
    rw [Move.perform, join_eq_verdict (hchain ch chain).1 hjoin, verdict_map]
    refine verdict_congr ?_
    simp only [Outcome.trees, trees_start, List.forall_mem_singleton, Move.inner]
    exact (and_iff_right (Nat.zero_le _)).symm
  | @nest ch o value op chain focus node =>
    obtain ⟨nested, hnested, h⟩ := exists_of_bind_eq_ok h
    obtain ⟨n, hjoin, rfl⟩ := exists_of_map_eq_ok h
    have hvalue : Fits limit value := of_node? hr (fun e _ => fits_leaf limit e) focus node
    have hle : nested.depth ≤ n.depth := by
      rw [Node.depth_join hjoin]
      omega
    rw [Move.perform, hsub _ _ _ (fun ch hch => Option.some.inj hch ▸ hvalue) hnested,
      verdict_bind fun _ => by rw [join_eq_verdict (hchain ch chain).1 hjoin, verdict_map]]
    refine verdict_congr ?_
    simp only [Outcome.trees, List.forall_mem_singleton, Move.inner]
    omega

omit hsub in
theorem Reading.follow_verdict_done {p : Prop} [Decidable p] (i : Nat) (rest : List Char)
    (n : Node) :
    follow limit sub i rest (verdict limit p (.done n)) = verdict limit p n := by
  unfold verdict
  split <;> rfl

/-- **A run** is refused by exactly the limits below its nesting or the depth of its tree. -/
theorem Reading.run_eq_verdict
    (hgrow : ∀ ch t n, sub (some ch) t = .ok n → ch.left.depth ≤ n.depth)
    (hpos : sub.Keeps fun n => 1 ≤ n.depth) {r : Reading} (hr : ∀ n ∈ r.trees, Fits limit n)
    {i : Nat} {rest : List Char} {n : Node} (h : r.run free sub i rest = .ok n) :
    r.run limit sub' i rest
      = verdict limit (r.nesting free sub depth i rest ≤ room ∧ n.depth ≤ max 1 limit) n := by
  induction rest generalizing r i with
  | nil =>
    exact (r.finish_eq_verdict hr h).trans (verdict_congr (and_iff_right (Nat.zero_le _)).symm)
  | cons c rest ih =>
    by_cases hblank : Text.isBlank c = true
    · rw [run_blank hblank] at h ⊢
      rw [nesting_blank hblank]
      exact ih hr h
    · have hc := Bool.eq_false_iff.2 hblank
      have hallows := r.allows_move i c rest
      rw [run_move hc] at h ⊢
      cases hfree : (r.move i c rest).perform free sub r.chain with
      | error e =>
        rw [hfree] at h
        cases h
      | ok outcome =>
        have hpositive := hallows.forall_trees (fun _ _ => Nat.le_refl 1) (depth_pos_of_join free)
          hpos (fun n hn => (hr n hn).1) hfree
        rw [hfree] at h
        rw [hallows.perform_eq_verdict hsub hr hfree]
        cases outcome with
        | done m =>
          obtain rfl : m = n := Except.ok.inj h
          rw [nesting_done hc hfree, follow_verdict_done]
          exact verdict_congr (and_congr_right fun _ => List.forall_mem_singleton)
        | more r' =>
          rw [nesting_more hc hfree]
          by_cases hgo : (r.move i c rest).inner depth ≤ room
              ∧ ∀ k ∈ (Outcome.more r').trees, k.depth ≤ max 1 limit
          · rw [verdict_of hgo]
            refine (ih (fun k hk => ⟨hpositive k hk, hgo.2 k hk⟩) h).trans (verdict_congr ?_)
            exact and_congr_left fun _ => (Nat.max_le.trans (and_iff_right hgo.1)).symm
          · -- A tree that is too deep here is part of the last one.
            rw [verdict_of_not hgo]
            refine (verdict_of_not fun hfits => hgo ⟨(Nat.max_le.1 hfits.1).1, ?_⟩).symm
            exact fun k hk => Nat.le_trans (depth_le_of_run hgrow hk h) hfits.2

end Exact

/-- **The limit is exact**: a reading that succeeds under one limit is refused, by any limit and
within any room, exactly if it nests more texts than there is room for or makes too deep a tree. -/
theorem readWithin_eq_verdict {free limit : Nat} {room room' : Nat} {chain : Option Chain}
    {t : List Char} {n : Node} (hchain : ∀ ch ∈ chain, Fits limit ch.left)
    (h : readWithin free room' chain t = .ok n) :
    readWithin limit room chain t
      = verdict limit (nestingWithin free room' chain t < room ∧ n.depth ≤ max 1 limit) n := by
  induction room' generalizing chain t n room with
  | zero => cases h
  | succ room' ih =>
    cases room with
    | zero => exact (verdict_of_not fun hfits => Nat.not_lt_zero _ hfits.1).symm
    | succ room =>
      have hstart : ∀ k ∈ (Reading.start chain).trees, Fits limit k :=
        Reading.forall_trees.2 ⟨hchain, by simp [Reading.start, Focus.tree?]⟩
      refine (Reading.run_eq_verdict (fun _ _ _ hchain h => ih hchain h)
        (fun _ _ _ => depth_le_of_readWithin) (keeps_depth_pos free room') hstart h).trans ?_
      exact verdict_congr (and_congr_left fun _ => Nat.lt_succ_iff.symm)

end FormulaPlot
