import FormulaPlot.Proofs.Formula.Moves

/-!
# Proofs/Formula/Blanks — what blanks change

A blank is skipped outside brackets and left out of their contents, so a text and the text without
its blanks are read side by side, move by move (`Reading.alike_move`).  They part in one place.  The
rest behind an operator that nests to the right gets a `0` in front when it starts with a sign, and
a blank keeps the sign from being seen: `1+2*-3` is read and `1+2* -3` is not.

`SpacesSign` says of a text that it has such a place.  Without one the two verdicts are the same;
with one, the text is refused there unless both are refused before (`parsePrepared_withoutBlanks`).
-/

namespace FormulaPlot

/-! ## Verdicts -/

section Verdicts

variable {α β : Type} {x y : Except ParseError α}

/-- Two results are the same, or are faults of the same kind. -/
def SameVerdict (x y : Except ParseError α) : Prop :=
  x.mapError ParseError.kind = y.mapError ParseError.kind

theorem SameVerdict.refl (x : Except ParseError α) : SameVerdict x x := rfl

theorem sameVerdict_error {e e' : ParseError} (h : e.kind = e'.kind) :
    SameVerdict (.error e : Except ParseError α) (.error e') := congrArg Except.error h

theorem SameVerdict.eq_ok_iff (h : SameVerdict x y) {a : α} : x = .ok a ↔ y = .ok a := by
  have hok (z : Except ParseError α) : z = .ok a ↔ z.mapError ParseError.kind = .ok a := by
    cases z with
    | error e => exact iff_of_false nofun nofun
    | ok b => exact ⟨congrArg _, fun h => congrArg _ (Except.ok.inj h)⟩
  rw [hok x, hok y, show x.mapError _ = y.mapError _ from h]

theorem SameVerdict.bind (h : SameVerdict x y) (f : α → Except ParseError β) :
    SameVerdict (x.bind f) (y.bind f) := by
  have hbind (z : Except ParseError α) : (z.bind f).mapError ParseError.kind
      = (z.mapError ParseError.kind).bind fun a => (f a).mapError ParseError.kind := by
    cases z <;> rfl
  rw [SameVerdict, hbind, hbind, show x.mapError _ = y.mapError _ from h]

theorem SameVerdict.map (h : SameVerdict x y) (f : α → β) : SameVerdict (x.map f) (y.map f) := by
  have hmap (z : Except ParseError α) : (z.map f).mapError ParseError.kind
      = (z.mapError ParseError.kind).map f := by
    cases z <;> rfl
  rw [SameVerdict, hmap, hmap, show x.mapError _ = y.mapError _ from h]

/-- What comes of a text, `x`, and of the text without its blanks, `y`, when `spaced` tells whether
they can part: the same, or the text misses an operand. -/
def Parts (spaced : Bool) (x y : Except ParseError α) : Prop :=
  (SameVerdict x y ∧ ∀ a, x = .ok a → spaced = false)
    ∨ spaced = true ∧ ∃ p, x = .error ⟨.operandExpected, p⟩

theorem Parts.of_error {e e' : ParseError} (h : e.kind = e'.kind) (spaced : Bool) :
    Parts spaced (.error e : Except ParseError α) (.error e') :=
  .inl ⟨sameVerdict_error h, nofun⟩

theorem Parts.bind_left {spaced : Bool} {f g : α → Except ParseError β}
    (h : ∀ a, Parts spaced (f a) (g a)) : Parts spaced (x.bind f) (x.bind g) := by
  cases x with
  | error e => exact .of_error rfl spaced
  | ok a => exact h a

theorem Parts.bind {spaced : Bool} (h : Parts spaced x y) (f : α → Except ParseError β) :
    Parts spaced (x.bind f) (y.bind f) := by
  rcases h with ⟨hsame, hok⟩ | ⟨hspaced, p, rfl⟩
  · refine .inl ⟨hsame.bind f, fun b hb => ?_⟩
    obtain ⟨a, ha, -⟩ := exists_of_bind_eq_ok hb
    exact hok a ha
  · exact .inr ⟨hspaced, p, rfl⟩

theorem Parts.map {spaced : Bool} (h : Parts spaced x y) (f : α → β) :
    Parts spaced (x.map f) (y.map f) := by
  rcases h with ⟨hsame, hok⟩ | ⟨hspaced, p, rfl⟩
  · refine .inl ⟨hsame.map f, fun b hb => ?_⟩
    obtain ⟨a, ha, -⟩ := exists_of_map_eq_ok hb
    exact hok a ha
  · exact .inr ⟨hspaced, p, rfl⟩

end Verdicts

/-! ## Signs behind blanks -/

/-- Whether a text starts with blanks and then a sign. -/
def startsSpacedSign (s : List Char) : Bool :=
  s.head?.any Text.isBlank && (Text.withoutBlanks s).head?.any fun c => c == '+' || c == '-'

/-- The arithmetic operator that a character writes. -/
def arithmetic? (c : Char) : Option Operator := (Operator.ofChar? c).filter (· ≠ .apply)

/-- Whether a text, with `level` brackets open before it and `previous` the last arithmetic
operator outside them, has outside all brackets an operator that nests to the right and stands
before blanks and then a sign. -/
def spacesSignFrom (level : Nat) (previous : Option Operator) : List Char → Bool
  | [] => false
  | c :: rest =>
    if c = '(' then spacesSignFrom (level + 1) previous rest
    else if c = ')' then spacesSignFrom (level - 1) previous rest
    else
      match if level = 0 then arithmetic? c else none with
      | none => spacesSignFrom level previous rest
      | some op =>
        (previous.any (nestsRight · op) && startsSpacedSign rest)
          || spacesSignFrom 0 (some op) rest

/-- Whether a text has outside its brackets a multiplicative operator, behind an additive one, with
blanks and then a sign behind it. -/
def SpacesSign (s : List Char) : Prop := spacesSignFrom 0 none s = true

instance (s : List Char) : Decidable (SpacesSign s) := inferInstanceAs (Decidable (_ = true))

example : SpacesSign "1+2* -3".toList ∧ ¬ SpacesSign "2* -3 + (1+2* -3)".toList := by decide

section SpacesSign

variable {level : Nat} {previous : Option Operator} {c : Char} {rest : List Char}

/-- A character that is neither a bracket nor an operator outside brackets is passed over. -/
theorem spacesSignFrom_cons (hopen : c ≠ '(') (hclose : c ≠ ')')
    (hoperator : level = 0 → arithmetic? c = none) :
    spacesSignFrom level previous (c :: rest) = spacesSignFrom level previous rest := by
  rw [spacesSignFrom, if_neg hopen, if_neg hclose]
  by_cases hlevel : level = 0
  · rw [if_pos hlevel, hoperator hlevel]
  · rw [if_neg hlevel]

theorem spacesSignFrom_open :
    spacesSignFrom level previous ('(' :: rest) = spacesSignFrom (level + 1) previous rest := by
  rw [spacesSignFrom, if_pos rfl]

theorem spacesSignFrom_close :
    spacesSignFrom (level + 1) previous (')' :: rest) = spacesSignFrom level previous rest := by
  rw [spacesSignFrom, if_neg (by decide), if_pos rfl]
  rfl

theorem spacesSignFrom_operator {op : Operator} (h : arithmetic? c = some op) :
    spacesSignFrom 0 previous (c :: rest)
      = ((previous.any (nestsRight · op) && startsSpacedSign rest)
          || spacesSignFrom 0 (some op) rest) := by
  have hbracket : c ≠ '(' ∧ c ≠ ')' := by
    constructor <;> rintro rfl <;> cases h
  rw [spacesSignFrom, if_neg hbracket.1, if_neg hbracket.2, if_pos rfl, h]

theorem spacesSignFrom_blank (h : Text.isBlank c = true) :
    spacesSignFrom level previous (c :: rest) = spacesSignFrom level previous rest := by
  refine spacesSignFrom_cons ?_ ?_ fun _ => ?_
  · rintro rfl
    exact absurd h (by decide)
  · rintro rfl
    exact absurd h (by decide)
  · cases hop : Operator.ofChar? c with
    | none => rw [arithmetic?, hop]; rfl
    | some op =>
      rw [Operator.ofChar?_eq_some_iff.1 hop, isBlank_symbol] at h
      cases h

end SpacesSign

/-! ## Moves side by side -/

/-- How many brackets are open. -/
def Focus.level : Focus → Nat
  | .operand _ => 0
  | .bracket _ inner _ => inner + 1

/-- The moves of a character with `rest` behind it and with `rest'` behind it, when `previous` is
the last operator before it; the flag is that of the character and `rest`. -/
inductive Move.Alike (previous : Option Operator) (rest rest' : List Char) :
    Bool → Move → Move → Prop
  | fault {spaced : Bool} {e e' : ParseError} (kind : e.kind = e'.kind) :
      Alike previous rest rest' spaced (.fault e) (.fault e')
  | collect {focus : Focus} :
      Alike previous rest rest' (spacesSignFrom focus.level previous rest) (.collect focus)
        (.collect focus)
  | begin {value : Node} {op : Operator} :
      Alike previous rest rest' (spacesSignFrom 0 (some op) rest) (.begin value op)
        (.begin value op)
  | close {callee : Option String} {content : List Char} :
      Alike previous rest rest' (spacesSignFrom 0 previous rest) (.close callee content)
        (.close callee content)
  | extend {ch : Chain} {value : Node} {op : Operator} :
      Alike previous rest rest' (spacesSignFrom 0 (some op) rest) (.extend ch value op)
        (.extend ch value op)
  | nest {ch : Chain} {value : Node} {op : Operator} :
      Alike previous rest rest' (startsSpacedSign rest || spacesSignFrom 0 (some op) rest)
        (.nest ch value op rest) (.nest ch value op rest')

section Alike

variable {chain : Option Chain} {previous : Option Operator} {rest rest' : List Char}

theorem alike_ofFocus (level : Nat) {x x' : Except ParseError Focus} {spaced : Bool}
    (hsame : SameVerdict x x') (hlevel : ∀ focus, x = .ok focus → focus.level = level)
    (hspaced : spaced = spacesSignFrom level previous rest) :
    Move.Alike previous rest rest' spaced (.ofFocus x) (.ofFocus x') := by
  cases x with
  | error e =>
    cases x' with
    | error e' => exact .fault (Except.error.inj hsame)
    | ok focus => cases hsame
  | ok focus =>
    rw [hsame.eq_ok_iff.1 rfl, hspaced, ← hlevel focus rfl]
    exact .collect

theorem alike_ofOperator (value : Node) {c : Char} {op : Operator} (hop : arithmetic? c = some op) :
    Move.Alike (chain.map Chain.operator) rest rest'
      (spacesSignFrom 0 (chain.map Chain.operator) (c :: rest))
      (.ofOperator chain value op rest) (.ofOperator chain value op rest') := by
  rw [spacesSignFrom_operator hop]
  cases chain with
  | none => exact .begin
  | some ch =>
    simp only [Move.ofOperator, Option.map_some, Option.any_some]
    cases nestsRight ch.operator op with
    | true => exact .nest
    | false => exact .extend

/-- Where an operand is wrong has no part in how. -/
theorem sameVerdict_openBracket (i j : Nat) (o : Operand) :
    SameVerdict (o.openBracket i) (o.openBracket j) := by cases o <;> rfl

theorem sameVerdict_markCall (i j : Nat) (o : Operand) :
    SameVerdict (o.markCall i) (o.markCall j) := by cases o <;> rfl

theorem sameVerdict_push (i j : Nat) (c : Char) (o : Operand) :
    SameVerdict (o.push i c) (o.push j c) := by
  cases o with
  | name text =>
    simp only [Operand.push]
    split <;> rfl
  | _ => rfl

theorem sameVerdict_close (i j : Nat) (o : Operand) : SameVerdict (o.close i) (o.close j) := by
  unfold Operand.close
  cases o.node? <;> cases o <;> rfl

theorem alike_outside (i j : Nat) {c : Char} (o : Operand) :
    Move.Alike (chain.map Chain.operator) rest rest'
      (spacesSignFrom 0 (chain.map Chain.operator) (c :: rest))
      (.outside i c rest chain o) (.outside j c rest' chain o) := by
  unfold Move.outside
  split
  · next hopen =>
    refine alike_ofFocus 1 (sameVerdict_openBracket i j o) ?_ ?_
    · cases o <;> rintro focus ⟨⟩ <;> rfl
    · rw [hopen, spacesSignFrom_open]
  · next hopen =>
    split
    · exact .fault rfl
    · next hclose =>
      -- What goes to the operand stays outside brackets.
      have hoperand {x x' : Except ParseError Operand} (hsame : SameVerdict x x')
          (hc : arithmetic? c = none) :
          Move.Alike (chain.map Chain.operator) rest rest'
            (spacesSignFrom 0 (chain.map Chain.operator) (c :: rest))
            (.ofFocus (x.map .operand)) (.ofFocus (x'.map .operand)) := by
        refine alike_ofFocus 0 (hsame.map _) (fun focus h => ?_)
          (spacesSignFrom_cons hopen hclose fun _ => hc)
        obtain ⟨o', -, rfl⟩ := exists_of_map_eq_ok h
        rfl
      split
      · next hmark => exact hoperand (sameVerdict_markCall i j o) (by rw [hmark]; rfl)
      · next hmark =>
        cases hop : Operator.ofChar? c with
        | none => exact hoperand (sameVerdict_push i j c o) (by rw [arithmetic?, hop]; rfl)
        | some op =>
          have hsame := sameVerdict_close i j o
          have harithmetic : arithmetic? c = some op := by
            have hne : op ≠ .apply := by
              rintro rfl
              exact hmark (Operator.ofChar?_eq_some_iff.1 hop)
            rw [arithmetic?, hop, Option.filter_some, if_pos (decide_eq_true hne)]
          cases hclose : o.close i with
          | error e =>
            rw [hclose] at hsame
            cases hclose' : o.close j with
            | error e' =>
              rw [hclose'] at hsame
              exact .fault (Except.error.inj hsame)
            | ok value =>
              rw [hclose'] at hsame
              cases hsame
          | ok value =>
            rw [hsame.eq_ok_iff.1 hclose]
            exact alike_ofOperator value harithmetic

theorem alike_inside (i j : Nat) (c : Char) (callee : Option String) (inner : Nat)
    (content : List Char) :
    Move.Alike previous rest rest' (spacesSignFrom (inner + 1) previous (c :: rest))
      (.inside i c callee inner content) (.inside j c callee inner content) := by
  have hmore (inner' : Nat) :
      Move.Alike previous rest rest' (spacesSignFrom (inner' + 1) previous rest)
        (.collect (.bracket callee inner' (c :: content)))
        (.collect (.bracket callee inner' (c :: content))) :=
    @Move.Alike.collect previous rest rest' (.bracket callee inner' (c :: content))
  unfold Move.inside
  split
  · next hclose =>
    rw [hclose, spacesSignFrom_close]
    cases inner with
    | zero =>
      dsimp only
      split
      · exact .fault rfl
      · exact .close
    | succ inner => exact hclose ▸ hmore inner
  · next hclose =>
    split
    · next hopen =>
      rw [hopen, spacesSignFrom_open]
      exact hopen ▸ hmore (inner + 1)
    · next hopen =>
      rw [spacesSignFrom_cons hopen hclose fun h => absurd h (Nat.succ_ne_zero inner)]
      exact hmore inner

/-- **A character makes the same move** wherever it stands and whatever is behind it. -/
theorem Reading.alike_move (r : Reading) (i j : Nat) (c : Char) :
    Move.Alike (r.chain.map Chain.operator) rest rest'
      (spacesSignFrom r.focus.level (r.chain.map Chain.operator) (c :: rest))
      (r.move i c rest) (r.move j c rest') := by
  obtain ⟨chain, focus⟩ := r
  cases focus with
  | operand o => exact alike_outside i j o
  | bracket callee inner content => exact alike_inside i j c callee inner content

end Alike

/-! ## Runs side by side -/

section Runs

variable {limit : Nat} {sub : SubReading}

theorem follow_bind {α : Type} (x : Except ParseError α) (f : α → Except ParseError Outcome)
    (i : Nat) (rest : List Char) :
    Reading.follow limit sub i rest (x.bind f)
      = x.bind fun a => Reading.follow limit sub i rest (f a) := by
  cases x <;> rfl

theorem follow_map {α : Type} (x : Except ParseError α) (f : α → Outcome) (i : Nat)
    (rest : List Char) :
    Reading.follow limit sub i rest (x.map f)
      = x.bind fun a => Reading.follow limit sub i rest (.ok (f a)) := by
  cases x <;> rfl

/-- **Moves alike** part only where a text that is read on its own does. -/
theorem Move.Alike.parts_follow {chain : Option Chain} {rest rest' : List Char} {spaced : Bool}
    {m m' : Move} (h : Move.Alike (chain.map Chain.operator) rest rest' spaced m m')
    (hrest : ∀ ch : Chain, Parts (startsSpacedSign rest || spacesSignFrom 0 (some ch.operator) rest)
      (sub (some ch) rest) (sub (some ch) rest'))
    (hrun : ∀ (r : Reading) i j, Parts
      (spacesSignFrom r.focus.level (r.chain.map Chain.operator) rest)
      (r.run limit sub i rest) (r.run limit sub j rest')) (i j : Nat) :
    Parts spaced (Reading.follow limit sub i rest (m.perform limit sub chain))
      (Reading.follow limit sub j rest' (m'.perform limit sub chain)) := by
  cases h with
  | fault kind => exact .of_error kind _
  | @collect focus => exact hrun ⟨chain, focus⟩ i j
  | @begin value op => exact hrun (.start (some ⟨value, op⟩)) i j
  | close =>
    simp only [perform, follow_bind, follow_map]
    exact .bind_left fun n => .bind_left fun n' => hrun ⟨chain, .operand (.finished n')⟩ i j
  | @extend ch value op =>
    simp only [perform, follow_map]
    exact .bind_left fun n => hrun (.start (some ⟨n, op⟩)) i j
  | @nest ch value op =>
    simp only [perform, follow_bind, follow_map]
    exact (hrest ⟨value, op⟩).bind _

/-- A run starts at a sign behind blanks: no operand is there. -/
theorem exists_run_spacedSign {s : List Char} {c : Char} (hc : c = '+' ∨ c = '-')
    (h : (Text.withoutBlanks s).head? = some c) (chain : Option Chain) (i : Nat) :
    ∃ p, (Reading.start chain).run limit sub i s = .error ⟨.operandExpected, p⟩ := by
  induction s generalizing i with
  | nil => cases h
  | cons d s ih =>
    by_cases hblank : Text.isBlank d = true
    · rw [Text.withoutBlanks_cons_of_blank hblank] at h
      rw [Reading.run_blank hblank]
      exact ih h _
    · have hd := Bool.eq_false_iff.2 hblank
      rw [Text.withoutBlanks_cons_of_not_blank hd, List.head?_cons, Option.some.injEq] at h
      subst h
      rw [Reading.run_cons hd]
      rcases hc with rfl | rfl <;> exact ⟨some i, rfl⟩

/-- **A text and the text without its blanks, side by side**: they part only where a text that is
read on its own does. -/
theorem Reading.parts_run
    (hsub : ∀ chain t, Parts (startsSpacedSign t || spacesSignFrom 0 (chain.map Chain.operator) t)
      (sub chain t) (sub chain (Text.withoutBlanks t)))
    (r : Reading) (i j : Nat) (rest : List Char) :
    Parts (spacesSignFrom r.focus.level (r.chain.map Chain.operator) rest)
      (r.run limit sub i rest) (r.run limit sub j (Text.withoutBlanks rest)) := by
  induction rest generalizing r i j with
  | nil => exact .inl ⟨.refl _, fun _ _ => rfl⟩
  | cons c rest ih =>
    by_cases hblank : Text.isBlank c = true
    · rw [run_blank hblank, Text.withoutBlanks_cons_of_blank hblank, spacesSignFrom_blank hblank]
      exact ih r _ j
    · have hc := Bool.eq_false_iff.2 hblank
      rw [Text.withoutBlanks_cons_of_not_blank hc, run_move hc, run_move hc]
      exact (r.alike_move i j c).parts_follow (fun ch => hsub (some ch) rest) ih _ _

end Runs

/-! ## Texts -/

theorem withLeadingZero_of_not_sign {s : List Char} (h : ∀ c ∈ s.head?, c ≠ '+' ∧ c ≠ '-') :
    withLeadingZero s = s := by
  unfold withLeadingZero
  split
  · exact absurd rfl (h _ rfl).1
  · exact absurd rfl (h _ rfl).2
  · rfl

theorem withLeadingZero_sign {c : Char} (hc : c = '+' ∨ c = '-') (s : List Char) :
    withLeadingZero (c :: s) = '0' :: c :: s := by
  rcases hc with rfl | rfl <;> rfl

/-- Blanks that hide a sign are in front of it. -/
theorem startsSpacedSign_iff {s : List Char} :
    startsSpacedSign s = true ↔ (∃ c ∈ s.head?, Text.isBlank c = true)
      ∧ ∃ c, (c = '+' ∨ c = '-') ∧ (Text.withoutBlanks s).head? = some c := by
  simp only [startsSpacedSign, Bool.and_eq_true, Option.any_eq_true, Bool.or_eq_true, beq_iff_eq,
    Option.mem_def, and_comm]

theorem withLeadingZero_of_blank {c : Char} (hc : Text.isBlank c = true) (s : List Char) :
    withLeadingZero (c :: s) = c :: s := by
  refine withLeadingZero_of_not_sign fun d hd => ?_
  obtain rfl := Option.some.inj hd
  constructor <;> rintro rfl <;> exact absurd hc (by decide)

/-- A `0` goes in front of a text and of the text without its blanks alike, unless blanks hide the
sign that the text starts with. -/
theorem withoutBlanks_withLeadingZero {t : List Char} (h : startsSpacedSign t = false) :
    Text.withoutBlanks (withLeadingZero t) = withLeadingZero (Text.withoutBlanks t) := by
  cases t with
  | nil => rfl
  | cons c s =>
    by_cases hblank : Text.isBlank c = true
    · rw [withLeadingZero_of_blank hblank, withLeadingZero_of_not_sign fun d hd => ?_]
      refine not_or.1 fun hsign => Bool.eq_false_iff.1 h ?_
      exact startsSpacedSign_iff.2 ⟨⟨c, rfl, hblank⟩, d, hsign, hd⟩
    · have hcons := Text.withoutBlanks_cons_of_not_blank (Bool.eq_false_iff.2 hblank) s
      by_cases hsign : c = '+' ∨ c = '-'
      · rw [hcons, withLeadingZero_sign hsign, withLeadingZero_sign hsign,
          Text.withoutBlanks_cons_of_not_blank (by decide), hcons]
      · have hplain (u : List Char) : withLeadingZero (c :: u) = c :: u :=
          withLeadingZero_of_not_sign fun d hd => Option.some.inj hd ▸ not_or.1 hsign
        rw [hplain, hcons, hplain]

theorem spacesSignFrom_withLeadingZero (previous : Option Operator) (t : List Char) :
    spacesSignFrom 0 previous (withLeadingZero t) = spacesSignFrom 0 previous t := by
  rcases withLeadingZero_cases t with hzero | ⟨sign, u, -, rfl, hzero⟩
  · rw [hzero]
  · rw [hzero, spacesSignFrom_cons (by decide) (by decide) fun _ => rfl]

/-- **A text and the text without its blanks**, read on their own in any room. -/
theorem parts_readWithin (limit room : Nat) (chain : Option Chain) (t : List Char) :
    Parts (startsSpacedSign t || spacesSignFrom 0 (chain.map Chain.operator) t)
      (readWithin limit room chain t) (readWithin limit room chain (Text.withoutBlanks t)) := by
  induction room generalizing chain t with
  | zero => exact .of_error rfl _
  | succ room ih =>
    rw [readWithin, readWithin]
    cases hspaced : startsSpacedSign t with
    | true =>
      obtain ⟨⟨c, hc, hblank⟩, d, hd, hhead⟩ := startsSpacedSign_iff.1 hspaced
      obtain ⟨s, rfl⟩ := List.head?_eq_some_iff.1 hc
      rw [withLeadingZero_of_blank hblank]
      exact .inr ⟨rfl, exists_run_spacedSign hd hhead chain 0⟩
    | false =>
      rw [← withoutBlanks_withLeadingZero hspaced, Bool.false_or,
        ← spacesSignFrom_withLeadingZero]
      exact (Reading.start chain).parts_run ih 0 0 _

/-- A text that starts with no blank. -/
theorem parts_parsePrepared {t : String} (hfirst : ∀ c ∈ t.toList.head?, Text.isBlank c = false)
    (limit : Nat) :
    Parts (spacesSignFrom 0 none t.toList) (parsePrepared limit t)
      (parsePrepared limit (String.ofList (Text.withoutBlanks t.toList))) := by
  have hstart : startsSpacedSign t.toList = false := by
    refine Bool.eq_false_iff.2 fun h => ?_
    obtain ⟨⟨c, hc, hblank⟩, -⟩ := startsSpacedSign_iff.1 h
    rw [hfirst c hc] at hblank
    cases hblank
  have hread := parts_readWithin limit (limit + 1) none t.toList
  rw [hstart, Bool.false_or] at hread
  rw [parsePrepared, parsePrepared, String.toList_ofList]
  exact Parts.map hread Node.expr

/-- **What blanks change.**  A text that starts with no blank is accepted, with a tree, exactly if
it spaces no sign behind a nesting operator and is accepted with that tree without its blanks.  A
text that spaces no sign has the verdict that it has without its blanks: the same tree, or a fault
of the same kind.  One that does is refused for a missing operand, if the verdicts differ. -/
theorem parsePrepared_withoutBlanks {t : String}
    (hfirst : ∀ c ∈ t.toList.head?, Text.isBlank c = false) (limit : Nat) :
    (∀ e, parsePrepared limit t = .ok e ↔ ¬ SpacesSign t.toList
        ∧ parsePrepared limit (String.ofList (Text.withoutBlanks t.toList)) = .ok e)
      ∧ (¬ SpacesSign t.toList → SameVerdict (parsePrepared limit t)
        (parsePrepared limit (String.ofList (Text.withoutBlanks t.toList))))
      ∧ (¬ SameVerdict (parsePrepared limit t)
          (parsePrepared limit (String.ofList (Text.withoutBlanks t.toList))) →
        ∃ p, parsePrepared limit t = .error ⟨.operandExpected, p⟩) := by
  rcases parts_parsePrepared hfirst limit with ⟨hsame, hok⟩ | ⟨hspaced, p, hp⟩
  · refine ⟨fun e => ⟨fun h => ⟨?_, hsame.eq_ok_iff.1 h⟩, fun h => hsame.eq_ok_iff.2 h.2⟩,
      fun _ => hsame, fun hnot => absurd hsame hnot⟩
    exact Bool.eq_false_iff.1 (hok e h)
  · refine ⟨fun e => iff_of_false ?_ fun h => h.1 hspaced, fun h => absurd hspaced h,
      fun _ => ⟨p, hp⟩⟩
    rw [hp]
    rintro ⟨⟩

/-- Inside brackets a sign may stand behind blanks; outside them the text is refused. -/
theorem parsePrepared_withoutBlanks_bracket :
    (∀ c ∈ "3 *(1+2* -x)".toList.head?, Text.isBlank c = false)
      ∧ ¬ SpacesSign "3 *(1+2* -x)".toList
      ∧ parsePrepared 9 "3 *(1+2* -x)" = .ok (.node .mul (.literal 3) (.node .add (.literal 1)
          (.node .sub (.node .mul (.literal 2) (.literal 0)) (.identifier "x"))))
      ∧ SameVerdict (parsePrepared 9 "3 *(1+2* -x)")
          (parsePrepared 9 (String.ofList (Text.withoutBlanks "3 *(1+2* -x)".toList)))
      ∧ (∀ c ∈ "1+2* -x".toList.head?, Text.isBlank c = false)
      ∧ ¬ SameVerdict (parsePrepared 9 "1+2* -x")
          (parsePrepared 9 (String.ofList (Text.withoutBlanks "1+2* -x".toList)))
      ∧ ∃ p, parsePrepared 9 "1+2* -x" = .error ⟨.operandExpected, p⟩ := by
  have hfirst : ∀ c ∈ "3 *(1+2* -x)".toList.head?, Text.isBlank c = false := by
    rintro c ⟨⟩
    decide
  have hfirst' : ∀ c ∈ "1+2* -x".toList.head?, Text.isBlank c = false := by
    rintro c ⟨⟩
    decide
  have hspaces : ¬ SpacesSign "3 *(1+2* -x)".toList := by decide
  have hparts : ¬ SameVerdict (parsePrepared 9 "1+2* -x")
      (parsePrepared 9 (String.ofList (Text.withoutBlanks "1+2* -x".toList))) := nofun
  obtain ⟨hiff, hsame, -⟩ := parsePrepared_withoutBlanks hfirst 9
  obtain ⟨-, -, hmissing⟩ := parsePrepared_withoutBlanks hfirst' 9
  exact ⟨hfirst, hspaces, (hiff _).2 ⟨hspaces, rfl⟩, hsame hspaces, hfirst', hparts,
    hmissing hparts⟩

/-- **A blank in front of a sign** behind a nesting operator: the text is refused, and without its
blank it is read. -/
theorem parsePrepared_spaced_sign :
    parsePrepared 256 "1+2* -3" = .error ⟨.operandExpected, some 1⟩
      ∧ String.ofList (Text.withoutBlanks "1+2* -3".toList) = "1+2*-3"
      ∧ parsePrepared 256 "1+2*-3" = .ok (.node .add (.literal 1)
          (.node .sub (.node .mul (.literal 2) (.literal 0)) (.literal 3)))
      ∧ ¬ SameVerdict (parsePrepared 256 "1+2* -3") (parsePrepared 256 "1+2*-3") :=
  ⟨rfl, rfl, rfl, nofun⟩

end FormulaPlot
