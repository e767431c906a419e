import FormulaPlot.Proofs.Formula.Moves

/-!
# Proofs/Formula/Limit — the limit has one verdict, and none on a short text

Two readings of a text under different limits go side by side until the stricter one gives up
(`agrees_readWithin`).  A reading that has a text of `n` characters before it can make no tree
deeper than `n + 1` and no more than `n` readings inside one another, so a limit above the size of
a text is never reached (`isShallow_readWithin`), and reading ends for every text and every limit.
-/

namespace FormulaPlot

/-! ## Results up to the limit -/

section Agrees

variable {α β : Type} {limit : Nat}

/-- The result `x` is that the limit refuses, or it is the result `y`. -/
def Agrees (limit : Nat) (x y : Except ParseError α) : Prop :=
  x = .error ⟨.tooDeep limit, none⟩ ∨ x = y

theorem Agrees.refl (x : Except ParseError α) : Agrees limit x x := .inr rfl

theorem Agrees.bind {x y : Except ParseError α} {f g : α → Except ParseError β}
    (h : Agrees limit x y) (hfg : ∀ a, Agrees limit (f a) (g a)) :
    Agrees limit (x.bind f) (y.bind g) := by
  rcases h with rfl | rfl
  · exact .inl rfl
  · cases x with
    | error e => exact .refl _
    | ok a => exact hfg a

theorem Agrees.map {x y : Except ParseError α} (h : Agrees limit x y) (f : α → β) :
    Agrees limit (x.map f) (y.map f) := by
  rcases h with rfl | rfl
  · exact .inl rfl
  · exact .refl _

/-- Two results that refuse under one limit and else are each other are the same. -/
theorem Agrees.antisymm {x y : Except ParseError α} (h : Agrees limit x y)
    (h' : Agrees limit y x) : x = y := by
  rcases h with rfl | rfl
  · rcases h' with rfl | rfl <;> rfl
  · rfl

end Agrees

/-! ## Side by side -/

section Lockstep

variable {limit limit' : Nat} (h : limit ≤ limit')
include h

theorem agrees_join (op : Operator) (left right : Node) :
    Agrees limit (Node.join limit op left right) (Node.join limit' op left right) := by
  unfold Node.join
  dsimp only
  split
  · exact .inl rfl
  · next hdepth => exact .inr (if_neg fun hdeep => hdepth (Nat.lt_of_le_of_lt h hdeep)).symm

theorem agrees_wrapCall (callee : Option String) (n : Node) :
    Agrees limit (wrapCall limit callee n) (wrapCall limit' callee n) := by
  cases callee with
  | none => exact .refl _
  | some name => exact agrees_join h ..

theorem Reading.agrees_finish (r : Reading) :
    Agrees limit (r.finish limit) (r.finish limit') := by
  rcases r.finish_cases with ⟨e, -, he⟩ | ⟨o, n, -, -, -, hn⟩ | ⟨ch, o, right, -, -, -, hjoin⟩
  · exact .inr ((he limit).trans (he limit').symm)
  · exact .inr ((hn limit).trans (hn limit').symm)
  · rw [hjoin limit, hjoin limit']
    exact agrees_join h ..

variable {size : Nat} {sub sub' : SubReading}
  (hsub : ∀ chain t, t.length < size → Agrees limit (sub chain t) (sub' chain t))
include hsub

/-- **A move side by side**: only texts shorter than the one being read are asked for. -/
theorem Reading.Allows.agrees_perform {r : Reading} {rest : List Char} {move : Move}
    (hmove : r.Allows rest move) (hsize : r.focus.size + rest.length ≤ size) :
    Agrees limit (move.perform limit sub r.chain) (move.perform limit' sub' r.chain) := by
  cases hmove with
  | fault => exact .refl _
  | collect => exact .refl _
  | begin => exact .refl _
  | @close callee content focus =>
    rw [focus, Focus.size] at hsize
    have hcontent : content.reverse.length < size := by
      rw [List.length_reverse]
      omega
    exact (hsub none _ hcontent).bind fun n => (agrees_wrapCall h callee n).map _
  | extend => exact (agrees_join h ..).map _
  | nest chain focus node =>
    rw [focus, Operand.size_of_node? node] at hsize
    exact (hsub _ rest (by omega)).bind fun n => (agrees_join h ..).map _

omit h hsub in
/-- A move makes the focus longer by its character at most. -/
theorem Reading.Allows.size_le {r r' : Reading} {rest : List Char} {move : Move}
    (hmove : r.Allows rest move) (h : move.perform limit sub r.chain = .ok (.more r')) :
    r'.focus.size ≤ r.focus.size + 1 := by
  cases hmove with
  | fault => cases h
  | collect bare bare' size =>
    cases h
    exact size
  | begin =>
    cases h
    exact Nat.zero_le _
  | close =>
    obtain ⟨n, -, h⟩ := exists_of_bind_eq_ok h
    obtain ⟨n, -, h⟩ := exists_of_map_eq_ok h
    cases h
    exact Nat.le_add_left 1 _
  | extend =>
    obtain ⟨n, -, h⟩ := exists_of_map_eq_ok h
    cases h
    exact Nat.zero_le _
  | nest =>
    obtain ⟨n, -, h⟩ := exists_of_bind_eq_ok h
    obtain ⟨n, -, h⟩ := exists_of_map_eq_ok h
    cases h

/-- **A run side by side.** -/
theorem Reading.agrees_run {r : Reading} {i : Nat} {rest : List Char}
    (hsize : r.focus.size + rest.length ≤ size + 1) :
    Agrees limit (r.run limit sub i rest) (r.run limit' sub' i rest) := by
  induction rest generalizing r i with
  | nil => exact r.agrees_finish h
  | cons c rest ih =>
    rw [List.length_cons] at hsize
    by_cases hblank : Text.isBlank c = true
    · rw [run_blank hblank, run_blank hblank]
      exact ih (by omega)
    · have hc := Bool.eq_false_iff.2 hblank
      have hallows := r.allows_move i c rest
      rw [run_move hc, run_move hc]
      rcases hallows.agrees_perform h hsub (by omega) with hdeep | hsame
      · exact .inl (by rw [hdeep]; rfl)
      · rw [← hsame]
        cases houtcome : (r.move i c rest).perform limit sub r.chain with
        | error e => exact .refl _
        | ok outcome =>
          cases outcome with
          | done n => exact .refl _
          | more r' =>
            have hle := hallows.size_le houtcome
            exact ih (by omega)

end Lockstep

theorem length_withLeadingZero_le (t : List Char) :
    (withLeadingZero t).length ≤ t.length + 1 := by
  rcases withLeadingZero_cases t with h | ⟨sign, u, -, rfl, h⟩
  · rw [h]
    exact Nat.le_succ _
  · rw [h]
    exact Nat.le_refl _

/-- **Two readings go side by side** until the stricter one gives up, if the other one has no less
room, or more than the text can take up. -/
theorem agrees_readWithin {limit limit' : Nat} (h : limit ≤ limit') {room room' : Nat}
    {chain : Option Chain} {t : List Char} (hroom : room ≤ room' ∨ t.length < room') :
    Agrees limit (readWithin limit room chain t) (readWithin limit' room' chain t) := by
  induction room generalizing room' chain t with
  | zero => exact .inl rfl
  | succ room ih =>
    cases room' with
    | zero => omega
    | succ room' =>
      have hshorter : ∀ chain' t', t'.length < t.length →
          Agrees limit (readWithin limit room chain' t') (readWithin limit' room' chain' t') :=
        fun chain' t' ht => ih (by omega)
      refine Reading.agrees_run h hshorter ?_
      have hlength := length_withLeadingZero_le t
      rw [Reading.start, Focus.size]
      omega

/-! ## What a reading can come to -/

/-- How deep the tree on the left of a chain makes every tree of the chain at least. -/
def chainWeight (chain : Option Chain) : Nat :=
  chain.elim 0 fun ch => ch.left.depth + 1

@[simp] theorem chainWeight_none : chainWeight none = 0 := rfl

@[simp] theorem chainWeight_some (ch : Chain) : chainWeight (some ch) = ch.left.depth + 1 := rfl

/-- How deep the focus can make a tree: a held tree as deep as it is, characters as deep as they
are many. -/
def Focus.weight (focus : Focus) : Nat := focus.tree?.elim focus.size Node.depth

/-- How deep a reading can make a tree before it goes on. -/
def Reading.weight (r : Reading) : Nat := chainWeight r.chain + r.focus.weight

theorem Focus.weight_of_bare {focus : Focus} (h : focus.tree? = none) :
    focus.weight = focus.size := by
  rw [weight, h]
  rfl

theorem Operand.weight_of_node? {o : Operand} {n : Node} (h : o.node? = some n) :
    (Focus.operand o).weight = n.depth := by
  cases o with
  | empty => cases h
  | number text =>
    obtain ⟨v, -, rfl⟩ := Option.map_eq_some_iff.1 h
    rfl
  | name text => exact congrArg Node.depth (Option.some.inj h)
  | finished n => exact congrArg Node.depth (Option.some.inj h)
  | callee f => cases h

/-- A tree of a positive depth up to `bound`, or a fault other than one of depth. -/
def IsShallow (bound : Nat) : Except ParseError Node → Prop
  | .ok n => 1 ≤ n.depth ∧ n.depth ≤ bound
  | .error e => e.IsPlain

theorem depth_pos_of_join (limit : Nat) (op : Operator) (left right n : Node)
    (_ : 1 ≤ left.depth) (_ : 1 ≤ right.depth) (h : Node.join limit op left right = .ok n) :
    1 ≤ n.depth := by
  obtain ⟨rfl, -⟩ := Node.join_eq_ok_iff.1 h
  exact Nat.le_add_left 1 _

/-- Trees have a positive depth. -/
theorem keeps_depth_pos (limit room : Nat) :
    (readWithin limit room).Keeps fun n => 1 ≤ n.depth :=
  keeps_readWithin (fun _ _ => Nat.le_refl 1) (depth_pos_of_join limit) room

theorem Node.join_of_le {limit : Nat} {op : Operator} {left right : Node}
    (h : max left.depth right.depth + 1 ≤ limit) :
    Node.join limit op left right
      = .ok ⟨.node op left.expr right.expr, max left.depth right.depth + 1⟩ :=
  if_neg (Nat.not_lt.2 h)

/-- A call is one deeper than its argument. -/
theorem exists_wrapCall {limit : Nat} {n : Node} (hpos : 1 ≤ n.depth)
    (hlimit : n.depth + 1 ≤ limit) (callee : Option String) :
    ∃ n', wrapCall limit callee n = .ok n' ∧ n'.depth ≤ n.depth + 1 := by
  cases callee with
  | none => exact ⟨n, rfl, Nat.le_succ _⟩
  | some name =>
    have hmax : max (Node.leaf (.identifier name)).depth n.depth = n.depth := Nat.max_eq_right hpos
    exact ⟨_, Node.join_of_le (by rwa [hmax]), Nat.le_of_eq (congrArg (· + 1) hmax)⟩

/-- **The end is shallow** if the reading is light. -/
theorem Reading.isShallow_finish {limit bound : Nat} (hbound : bound ≤ limit) {r : Reading}
    (hpos : ∀ n ∈ r.trees, 1 ≤ n.depth) (hweight : r.weight ≤ bound) :
    IsShallow bound (r.finish limit) := by
  rcases r.finish_cases with ⟨e, plain, he⟩ | ⟨o, n, chain, focus, node, hn⟩ |
    ⟨ch, o, right, chain, focus, node, hjoin⟩
  · rw [he]
    exact plain
  · rw [Reading.weight, focus, Operand.weight_of_node? node] at hweight
    rw [hn]
    exact ⟨Reading.of_node? hpos (fun _ _ => Nat.le_refl 1) focus node, by omega⟩
  · have hleft : 1 ≤ ch.left.depth := (Reading.forall_trees.1 hpos).1 ch chain
    rw [Reading.weight, chain, chainWeight_some] at hweight
    have hright : max ch.left.depth right.depth + 1 ≤ bound := by
      rcases node with node | ⟨-, rfl⟩
      · have hvalue : 1 ≤ right.depth :=
          Reading.of_node? hpos (fun _ _ => Nat.le_refl 1) focus node
        rw [focus, Operand.weight_of_node? node] at hweight
        omega
      · rw [show (Node.leaf (.literal 0)).depth = 1 from rfl, Nat.max_eq_left hleft]
        omega
    rw [hjoin, Node.join_of_le (Nat.le_trans hright hbound)]
    exact ⟨Nat.le_add_left 1 _, hright⟩

/-- What is asked of the result of a move with `rest` behind it: it is no fault of depth, and no
tree that it can come to is deeper than `bound`. -/
def IsLight (bound : Nat) (rest : List Char) : Except ParseError Outcome → Prop
  | .error e => e.IsPlain
  | .ok (.done n) => n.depth ≤ bound
  | .ok (.more r) => r.weight + rest.length ≤ bound

section Light

variable {limit size bound : Nat} {sub : SubReading}
  (hsub : ∀ chain t, (∀ ch ∈ chain, 1 ≤ ch.left.depth) → t.length < size →
    chainWeight chain + t.length + 1 ≤ limit →
    IsShallow (chainWeight chain + t.length + 1) (sub chain t))
  (hbound : bound ≤ limit) {r : Reading} {rest : List Char}
  (hsize : r.focus.size + rest.length ≤ size) (hweight : r.weight + rest.length + 1 ≤ bound)
include hsub hbound hsize hweight

/-- **A bracket that closes** makes its content a tree no deeper than it is long. -/
theorem isLight_close {callee : Option String} {content : List Char}
    (hfocus : r.focus = .bracket callee 0 content) :
    IsLight bound rest ((Move.close callee content.reverse).perform limit sub r.chain) := by
  have hlength : content.reverse.length = content.length := List.length_reverse
  have hfocusWeight : r.focus.weight = content.length + 1 := by rw [hfocus]; rfl
  rw [hfocus, Focus.size] at hsize
  rw [Reading.weight, hfocusWeight] at hweight
  have hread : IsShallow (content.length + 1) (sub none content.reverse) := by
    have hnone := hsub none content.reverse (by rintro ch ⟨⟩) (by omega)
      (by rw [chainWeight_none]; omega)
    rwa [chainWeight_none, hlength, Nat.zero_add] at hnone
  cases hn : sub none content.reverse with
  | error e =>
    rw [hn] at hread
    simp only [Move.perform, hn]
    exact hread
  | ok n =>
    rw [hn] at hread
    obtain ⟨hpos, hle⟩ := hread
    obtain ⟨n', hwrap, hle'⟩ := exists_wrapCall hpos (by omega : n.depth + 1 ≤ limit) callee
    simp only [Move.perform, hn, Except.bind, hwrap, Except.map]
    show chainWeight r.chain + n'.depth + rest.length ≤ bound
    omega

omit hsub hsize in
/-- **An operator that joins** makes the chain one deeper. -/
theorem isLight_extend (hpos : ∀ n ∈ r.trees, 1 ≤ n.depth) {ch : Chain} {o : Operand}
    {value : Node} {op : Operator} (hchain : r.chain = some ch) (hfocus : r.focus = .operand o)
    (hvalue : o.node? = some value) :
    IsLight bound rest ((Move.extend ch value op).perform limit sub r.chain) := by
  have hleft : 1 ≤ ch.left.depth := (Reading.forall_trees.1 hpos).1 ch hchain
  have hright : 1 ≤ value.depth := Reading.of_node? hpos (fun _ _ => Nat.le_refl 1) hfocus hvalue
  rw [Reading.weight, hchain, chainWeight_some, hfocus, Operand.weight_of_node? hvalue] at hweight
  have hjoin : max ch.left.depth value.depth + 1 ≤ limit := by omega
  simp only [Move.perform, Node.join_of_le hjoin, Except.map]
  show max ch.left.depth value.depth + 1 + 1 + 0 + rest.length ≤ bound
  omega

/-- **An operator that nests** makes no tree deeper than the rest is long. -/
theorem isLight_nest (hpos : ∀ n ∈ r.trees, 1 ≤ n.depth) {ch : Chain} {o : Operand}
    {value : Node} {op : Operator} (hchain : r.chain = some ch) (hfocus : r.focus = .operand o)
    (hvalue : o.node? = some value) :
    IsLight bound rest ((Move.nest ch value op rest).perform limit sub r.chain) := by
  have hleft : 1 ≤ ch.left.depth := (Reading.forall_trees.1 hpos).1 ch hchain
  have hright : 1 ≤ value.depth := Reading.of_node? hpos (fun _ _ => Nat.le_refl 1) hfocus hvalue
  rw [Reading.weight, hchain, chainWeight_some, hfocus, Operand.weight_of_node? hvalue] at hweight
  rw [hfocus, Operand.size_of_node? hvalue] at hsize
  have hread := hsub (some ⟨value, op⟩) rest (fun c hc => Option.some.inj hc ▸ hright) (by omega)
    (by show value.depth + 1 + rest.length + 1 ≤ limit; omega)
  rw [chainWeight_some] at hread
  cases hn : sub (some ⟨value, op⟩) rest with
  | error e =>
    rw [hn] at hread
    simp only [Move.perform, hn]
    exact hread
  | ok n =>
    rw [hn] at hread
    obtain ⟨-, hle⟩ := hread
    dsimp only at hle
    have hjoin : max ch.left.depth n.depth + 1 ≤ limit := by omega
    simp only [Move.perform, hn, Except.bind, Node.join_of_le hjoin, Except.map]
    show max ch.left.depth n.depth + 1 ≤ bound
    omega

/-- **A move is light** if the reading that makes it is. -/
theorem Reading.Allows.isLight {move : Move} (hmove : r.Allows rest move)
    (hpos : ∀ n ∈ r.trees, 1 ≤ n.depth) :
    IsLight bound rest (move.perform limit sub r.chain) := by
  cases hmove with
  | fault plain => exact plain
  | @collect focus bare bare' size =>
    show chainWeight r.chain + focus.weight + rest.length ≤ bound
    rw [Focus.weight_of_bare bare']
    rw [Reading.weight, Focus.weight_of_bare bare] at hweight
    omega
  | @begin o value op chain focus node =>
    show value.depth + 1 + 0 + rest.length ≤ bound
    rw [Reading.weight, focus, Operand.weight_of_node? node] at hweight
    omega
  | close focus => exact isLight_close hsub hbound hsize hweight focus
  | extend chain focus node => exact isLight_extend hbound hweight hpos chain focus node
  | nest chain focus node => exact isLight_nest hsub hbound hsize hweight hpos chain focus node

end Light

/-- **A reading is shallow** under a limit and within a room that its text cannot reach. -/
theorem isShallow_readWithin {limit room : Nat} {chain : Option Chain} {t : List Char}
    (hchain : ∀ ch ∈ chain, 1 ≤ ch.left.depth) (hroom : t.length < room)
    (hlimit : chainWeight chain + t.length + 1 ≤ limit) :
    IsShallow (chainWeight chain + t.length + 1) (readWithin limit room chain t) := by
  induction room generalizing chain t with
  | zero => cases hroom
  | succ room ih =>
    have hsub : ∀ chain' t', (∀ ch ∈ chain', 1 ≤ ch.left.depth) → t'.length < t.length →
        chainWeight chain' + t'.length + 1 ≤ limit →
        IsShallow (chainWeight chain' + t'.length + 1) (readWithin limit room chain' t') :=
      fun chain' t' hchain' ht => ih hchain' (by omega)
    refine Reading.run_induction
      (fun r rest => (∀ n ∈ r.trees, 1 ≤ n.depth) ∧ r.focus.size + rest.length ≤ t.length + 1
        ∧ r.weight + rest.length ≤ chainWeight chain + t.length + 1)
      (IsShallow (chainWeight chain + t.length + 1)) ?finish ?blank ?step ?start
    case finish =>
      rintro r ⟨hpos, -, hweight⟩
      exact r.isShallow_finish hlimit hpos hweight
    case blank =>
      rintro r c rest ⟨hpos, hsize, hweight⟩
      rw [List.length_cons] at hsize hweight
      exact ⟨hpos, by omega, by omega⟩
    case step =>
      rintro r c rest move ⟨hpos, hsize, hweight⟩ hmove
      rw [List.length_cons] at hsize hweight
      have hlight := hmove.isLight hsub hlimit (by omega) hweight hpos
      cases hperform : move.perform limit (readWithin limit room) r.chain with
      | error e =>
        rw [hperform] at hlight
        exact hlight
      | ok outcome =>
        rw [hperform] at hlight
        have htrees := hmove.forall_trees (fun _ _ => Nat.le_refl 1) (depth_pos_of_join limit)
          (keeps_depth_pos limit room) hpos hperform
        cases outcome with
        | done n => exact ⟨htrees n List.mem_cons_self, hlight⟩
        | more r' =>
          have hle := hmove.size_le hperform
          exact ⟨htrees, by omega, hlight⟩
    case start =>
      have hlength := length_withLeadingZero_le t
      refine ⟨Reading.forall_trees.2 ⟨hchain, by simp [Reading.start, Focus.tree?]⟩, ?_, ?_⟩
      · show 0 + _ ≤ _
        omega
      · show chainWeight chain + 0 + _ ≤ _
        omega

/-! ## Prepared texts -/

/-- Whether a text is refused for its depth. -/
def IsTooDeep (x : Except ParseError Expr) : Prop :=
  ∃ limit position, x = .error ⟨.tooDeep limit, position⟩

/-- **The limit changes nothing but its own verdict, and short texts never hear it**: what a limit
lets pass, be it a tree or another fault, every larger limit leaves as it is; no limit above the
size of a text refuses it; and the readings inside one another end by themselves, under every
limit, before they are as many as the text has characters. -/
theorem parsePrepared_limit (t : String) :
    (∀ limit limit', limit ≤ limit' → ¬ IsTooDeep (parsePrepared limit t) →
        parsePrepared limit' t = parsePrepared limit t)
      ∧ (∀ limit, t.utf8ByteSize < limit → ¬ IsTooDeep (parsePrepared limit t))
      ∧ ∀ limit room, t.toList.length < room →
        readWithin limit room none t.toList
          = readWithin limit (t.toList.length + 1) none t.toList := by
  refine ⟨fun limit limit' hle hpass => ?_, fun limit hlimit => ?_, fun limit room hroom => ?_⟩
  · have hagrees : Agrees limit (parsePrepared limit t) (parsePrepared limit' t) :=
      (agrees_readWithin hle (.inl (Nat.succ_le_succ hle))).map Node.expr
    rcases hagrees with hdeep | hsame
    · exact absurd ⟨limit, none, hdeep⟩ hpass
    · exact hsame.symm
  · have hlength := Text.length_le_byteSize t.toList
    rw [Text.byteSize_toList] at hlength
    have hshallow :
        IsShallow (t.toList.length + 1) (readWithin limit (limit + 1) none t.toList) := by
      have hnone := @isShallow_readWithin limit (limit + 1) none t.toList (by rintro ch ⟨⟩)
        (by omega) (by rw [chainWeight_none]; omega)
      rwa [chainWeight_none, Nat.zero_add] at hnone
    rintro ⟨limit', position, hdeep⟩
    rw [parsePrepared, parseChars] at hdeep
    cases hread : readWithin limit (limit + 1) none t.toList with
    | ok n =>
      rw [hread] at hdeep
      cases hdeep
    | error e =>
      rw [hread] at hshallow hdeep
      cases hdeep
      exact hshallow limit' rfl
  · have hroom' := Nat.lt_succ_self t.toList.length
    exact (agrees_readWithin (Nat.le_refl limit) (.inr hroom')).antisymm
      (agrees_readWithin (Nat.le_refl limit) (.inr hroom))

/-- A bracket inside a nested rest: the least limit that lets it pass, a large one, and the least
one above its size. -/
theorem parsePrepared_limit_nested_bracket :
    3 ≤ 300 ∧ ¬ IsTooDeep (parsePrepared 3 "1+2*(3)")
      ∧ parsePrepared 300 "1+2*(3)" = parsePrepared 3 "1+2*(3)"
      ∧ "1+2*(3)".utf8ByteSize < 8 ∧ ¬ IsTooDeep (parsePrepared 8 "1+2*(3)")
      ∧ "1+2*(3)".toList.length < 50
      ∧ readWithin 2 50 none "1+2*(3)".toList = readWithin 2 8 none "1+2*(3)".toList := by
  have hread : parsePrepared 3 "1+2*(3)"
      = .ok (.node .add (.literal 1) (.node .mul (.literal 2) (.literal 3))) := rfl
  have hpass : ¬ IsTooDeep (parsePrepared 3 "1+2*(3)") := by
    rintro ⟨limit, position, hdeep⟩
    rw [hread] at hdeep
    cases hdeep
  obtain ⟨hlarger, hshort, hends⟩ := parsePrepared_limit "1+2*(3)"
  exact ⟨by decide, hpass, hlarger 3 300 (by decide) hpass, by decide, hshort 8 (by decide),
    by decide, hends 2 50 (by decide)⟩

end FormulaPlot
