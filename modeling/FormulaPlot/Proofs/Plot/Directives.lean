import FormulaPlot.Plot.Block
import FormulaPlot.Proofs.Plot.Grammar

/-!
# Proofs/Plot/Directives — a graph block is read line by line

The grammar goes through a text line by line: each line is a directive with a value, or one without,
at which the whole text is refused, or is passed over (`exists_line_apply`).  Repeated over the
lines behind the first one it stops in front of the first directive without a value, where neither a
line nor the end of the text is (`Reads`, `reads_repeatFrom`).  So a block says what the last
directive of each key says, and a fault is behind the `=` of the first one without a value, in so
many bytes, lines and columns (`place_eq_after_iff`, `Block.read_iff`).
-/

namespace FormulaPlot

/-! ## Lines and their breaks -/

namespace Text

/-- A break has a length, and the text holds it. -/
theorem pos_of_breakLength? {s : List Char} {k : Nat} (h : breakLength? s = some k) :
    0 < k ∧ k ≤ s.length := by
  have hlength {b : List Char} (hb : b.isPrefixOf s = true) : b.length ≤ s.length :=
    (List.isPrefixOf_iff_prefix.1 hb).length_le
  unfold breakLength? at h
  split at h
  · next hb =>
    cases h
    exact ⟨Nat.one_pos, hlength hb⟩
  · split at h
    · next hb =>
      cases h
      exact ⟨Nat.two_pos, hlength hb⟩
    · split at h
      · next hb =>
        cases h
        exact ⟨Nat.one_pos, hlength hb⟩
      · cases h

/-- Where a line ends and no break is, the text is at its end. -/
theorem EndsLine.eq_nil {s : List Char} (hs : EndsLine s) (h : breakLength? s = none) : s = [] := by
  cases s with
  | nil => rfl
  | cons c s =>
    have hc := hs c rfl
    rw [breakLength?_cons_eq_none_iff.1 h] at hc
    cases hc

/-- The lines behind a line that ends at the start of `s`, after `n` characters. -/
def linesAfter (n : Nat) (s : List Char) : List Line :=
  (breakLength? s).elim [] fun k => linesFrom (n + k) (s.drop k)

/-- **The first line** goes up to the first break. -/
theorem linesFrom_eq_cons (n : Nat) (s : List Char) :
    linesFrom n s = ⟨n, s.takeWhile isLineChar⟩
      :: linesAfter (n + (s.takeWhile isLineChar).length) (s.dropWhile isLineChar) := by
  fun_induction linesFrom n s with
  | case1 n => rfl
  | case2 n rest ih => rfl
  | case3 n c rest hrest hc ih =>
    have hline : isLineChar c = false := by rcases hc with rfl | rfl <;> rfl
    have hbreak : breakLength? (c :: rest) = some 1 := by
      rcases hc with rfl | rfl
      · rfl
      · cases rest with
        | nil => rfl
        | cons d rest =>
          have hd : ¬ '\n' = d := fun h => hrest rest rfl (h ▸ rfl)
          simp [breakLength?, List.isPrefixOf, hd]
    rw [List.takeWhile_cons_of_neg (by simp [hline]), List.dropWhile_cons_of_neg (by simp [hline]),
      linesAfter, List.length_nil, hbreak]
    rfl
  | case4 n c rest hrest hc hnil ih =>
    rw [hnil] at ih
    cases ih
  | case5 n c rest hrest hc first others hlines ih =>
    have hline : isLineChar c = true := by simpa [isLineChar, not_or] using hc
    rw [hlines] at ih
    obtain ⟨rfl, rfl⟩ := List.cons.inj ih
    rw [List.takeWhile_cons_of_pos hline, List.dropWhile_cons_of_pos hline, List.length_cons,
      Nat.add_assoc, Nat.add_comm 1]

theorem endsLine_dropWhile (s : List Char) : EndsLine (s.dropWhile isLineChar) := by
  intro c hc
  have hnot := List.head?_dropWhile_not isLineChar s
  rwa [hc] at hnot

/-- **The next line**, behind a break. -/
theorem exists_of_linesAfter_eq_cons {n : Nat} {s : List Char} {first : Line} {lines : List Line}
    (h : linesAfter n s = first :: lines) :
    ∃ k t, breakLength? s = some k ∧ s.drop k = first.chars ++ t ∧ first.start = n + k
      ∧ (∀ c ∈ first.chars, isLineChar c = true) ∧ EndsLine t
      ∧ linesAfter (n + k + first.chars.length) t = lines := by
  rw [linesAfter] at h
  cases hbreak : breakLength? s with
  | none =>
    rw [hbreak] at h
    cases h
  | some k =>
    rw [hbreak, Option.elim_some, linesFrom_eq_cons] at h
    obtain ⟨rfl, rfl⟩ := List.cons.inj h
    exact ⟨k, _, rfl, List.takeWhile_append_dropWhile.symm, rfl,
      List.all_eq_true.1 List.all_takeWhile, endsLine_dropWhile _, rfl⟩

end Text

namespace BlockGrammar

open Text (Attempt Cursor Line Peg isLineChar EndsLine)

/-! ## Directives in lines -/

/-- What is behind the opening of a directive, if a line starts with it. -/
def valueIn? (d : Directive) (line : List Char) : Option (List Char) :=
  if (opening d).isPrefixOf line then some (line.drop (opening d).length) else none

theorem valueIn?_eq_some_iff {d : Directive} {line value : List Char} :
    valueIn? d line = some value ↔ line = opening d ++ value := by
  rw [valueIn?]
  constructor
  · intro h
    split at h
    · next hstarts =>
      obtain ⟨rest, rfl⟩ := List.isPrefixOf_iff_prefix.1 hstarts
      rw [List.drop_left, Option.some.injEq] at h
      rw [h]
    · cases h
  · rintro rfl
    rw [if_pos (List.isPrefixOf_iff_prefix.2 (List.prefix_append _ _)), List.drop_left]

/-- The directive of a line and its value. -/
def directive? (line : List Char) : Option (Directive × List Char) :=
  Directive.all.findSome? fun d => (valueIn? d line).map fun value => (d, value)

/-- A line has one directive at most. -/
theorem directive?_eq_some_iff {d : Directive} {line value : List Char} :
    directive? line = some (d, value) ↔ line = opening d ++ value := by
  constructor
  · intro h
    obtain ⟨d', -, hd⟩ := List.exists_of_findSome?_eq_some h
    obtain ⟨v, hv, heq⟩ := Option.map_eq_some_iff.1 hd
    obtain ⟨rfl, rfl⟩ := Prod.mk.inj heq
    exact valueIn?_eq_some_iff.1 hv
  · rintro rfl
    cases d <;> rfl

theorem directive?_eq_none_iff {line : List Char} :
    directive? line = none ↔ ∀ d, ¬ opening d <+: line := by
  constructor
  · rintro h d ⟨value, hvalue⟩
    rw [directive?_eq_some_iff.2 hvalue.symm] at h
    cases h
  · intro h
    cases hline : directive? line with
    | none => rfl
    | some found => exact absurd ⟨found.2, (directive?_eq_some_iff.1 hline).symm⟩ (h found.1)

/-- The place where the value of a line is missing, if it is a directive without one. -/
def missingAt? (line : Line) : Option Nat :=
  (directive? line.chars).bind fun found =>
    if found.2.all isGap then some (line.start + (opening found.1).length) else none

/-- What the grammar keeps of a line. -/
def pairs (line : Line) : List (Text.Pair Rule) :=
  (directive? line.chars).elim [] fun found => [directivePair found.1 found.2]

/-! ## Line by line -/

section Lines

variable {n : Nat} {l s : List Char}

/-- **A line whose value is missing** is refused there. -/
theorem line_apply_of_missingAt? (hs : EndsLine s) {p : Nat} (h : missingAt? ⟨n, l⟩ = some p) :
    n ≤ p ∧ line.apply false ⟨n, l ++ s⟩ = ⟨none, p⟩ := by
  obtain ⟨⟨d, v⟩, hline, hp⟩ := Option.bind_eq_some_iff.1 h
  obtain rfl := directive?_eq_some_iff.1 hline
  split at hp
  · next hgap =>
    obtain rfl := Option.some.inj hp
    rw [List.append_assoc]
    exact ⟨Nat.le_add_right _ _, line_apply_missing (List.all_eq_true.1 hgap) hs n⟩
  · cases hp

/-- **Any other line** is taken to its end. -/
theorem exists_line_apply (hl : ∀ c ∈ l, isLineChar c = true) (hs : EndsLine s)
    (h : missingAt? ⟨n, l⟩ = none) :
    ∃ far ≤ n, line.apply false ⟨n, l ++ s⟩ = ⟨some (⟨n + l.length, s⟩, pairs ⟨n, l⟩), far⟩ := by
  cases hline : directive? l with
  | none =>
    refine ⟨n, Nat.le_refl n, ?_⟩
    rw [pairs, hline]
    exact line_apply_other hl (directive?_eq_none_iff.1 hline) hs n
  | some found =>
    obtain ⟨d, v⟩ := found
    refine ⟨0, Nat.zero_le n, ?_⟩
    rw [missingAt?, hline, Option.bind_some] at h
    rw [pairs, hline]
    obtain rfl := directive?_eq_some_iff.1 hline
    refine line_apply_directive (List.forall_mem_append.1 hl).2 (fun hgap => ?_) hs n
    rw [if_pos (List.all_eq_true.2 hgap)] at h
    cases h

/-- What comes of taking lines up to the end of the text, `n` characters in: all of them, or those
in front of the first one whose value is missing. -/
def Reads (lines : List Line) (n : Nat) (a : Attempt Rule) : Prop :=
  match lines.findSome? missingAt? with
  | none => ∃ c far, c.rest = [] ∧ a = ⟨some (c, lines.flatMap pairs), far⟩
  | some p => ∃ c read, c.rest ≠ [] ∧ n ≤ p ∧ c.place ≤ p ∧ a = ⟨some (c, read), p⟩

/-- **The lines behind a line.** -/
theorem reads_repeatFrom {lines : List Line} (hs : EndsLine s)
    (hlines : Text.linesAfter n s = lines) :
    Reads lines n (Peg.repeatFrom ((Peg.seq newline line).apply false) ⟨n, s⟩) := by
  induction lines generalizing n s with
  | nil =>
    obtain rfl : s = [] := by
      refine hs.eq_nil ?_
      cases hbreak : Text.breakLength? s with
      | none => rfl
      | some k =>
        rw [Text.linesAfter, hbreak, Option.elim_some, Text.linesFrom_eq_cons] at hlines
        cases hlines
    exact ⟨⟨n, []⟩, 0, rfl, Peg.repeatFrom_of_none rfl⟩
  | cons first lines ih =>
    obtain ⟨k, t, hbreak, hdrop, hstart, hchars, ht, hrest⟩ :=
      Text.exists_of_linesAfter_eq_cons hlines
    obtain ⟨hk, hlength⟩ := Text.pos_of_breakLength? hbreak
    obtain ⟨m, l⟩ := first
    obtain rfl : m = n + k := hstart
    have hstep : (Peg.seq newline line).apply false ⟨n, s⟩ = line.apply false ⟨n + k, l ++ t⟩ := by
      rw [Peg.apply_seq, newline_apply, hbreak, Option.elim_some, Attempt.andThen_pass, hdrop]
    cases hmissing : missingAt? ⟨n + k, l⟩ with
    | some p =>
      obtain ⟨hp, hline⟩ := line_apply_of_missingAt? ht hmissing
      have hn : n ≤ p := by omega
      have hne : s ≠ [] := List.ne_nil_of_length_pos (by omega)
      rw [Reads, List.findSome?_cons, hmissing]
      exact ⟨⟨n, s⟩, [], hne, hn, hn, Peg.repeatFrom_of_none (hstep.trans hline)⟩
    | none =>
      obtain ⟨far, hfar, hline⟩ := exists_line_apply hchars ht hmissing
      have hshorter : t.length < s.length := by
        have hsum := congrArg List.length hdrop
        rw [List.length_drop, List.length_append] at hsum
        omega
      have hreads := ih ht hrest
      rw [Peg.repeatFrom_of_some (hstep.trans hline) hshorter]
      rw [Reads] at hreads ⊢
      rw [List.findSome?_cons, hmissing]
      cases hlater : lines.findSome? missingAt? with
      | none =>
        rw [hlater] at hreads
        obtain ⟨c, far', hc, ha⟩ := hreads
        exact ⟨c, max far far', hc, by rw [ha]; rfl⟩
      | some p =>
        rw [hlater] at hreads
        obtain ⟨c, read, hc, hp, hplace, ha⟩ := hreads
        have hn : n ≤ p := by omega
        have hfurthest : far ≤ p := by omega
        refine ⟨c, pairs ⟨n + k, l⟩ ++ read, hc, hn, hplace, ?_⟩
        rw [ha]
        exact congrArg (Attempt.mk _) (Nat.max_eq_right hfurthest)

/-- The end of the text, or the place to name where it is not. -/
theorem ending_apply (c : Cursor) :
    (Peg.rule Rule.ending .finish).apply false c
      = if c.rest = [] then ⟨some (c, [⟨Rule.ending, [], []⟩]), 0⟩ else ⟨none, c.place⟩ := by
  obtain ⟨n, s⟩ := c
  cases s with
  | nil =>
    have hfinish : (Peg.finish : Peg Rule).apply false ⟨n, [] ++ []⟩
        = ⟨some (⟨n + List.length ([] : List Char), []⟩, []), 0⟩ := rfl
    exact Peg.apply_rule_of_some Rule.ending hfinish
  | cons d s =>
    have hfinish : (Peg.finish : Peg Rule).apply false ⟨n, d :: s⟩ = ⟨none, 0⟩ := rfl
    rw [Peg.apply_rule_of_none Rule.ending hfinish, if_neg (List.cons_ne_nil d s), Nat.zero_max]
    rfl

/-- **The lines of a text**, and the end behind them: all are taken, or the place is named where
the first value is missing. -/
theorem lines_apply (text : List Char) {a : Attempt Rule}
    (ha : (Peg.seq line (.seq (.many (.seq newline line)) (.rule Rule.ending .finish))).apply false
      ⟨0, text⟩ = a) :
    match (Text.lines text).findSome? missingAt? with
    | none => ∃ c far,
        a = ⟨some (c, (Text.lines text).flatMap pairs ++ [⟨Rule.ending, [], []⟩]), far⟩
    | some p => a = ⟨none, p⟩ := by
  subst ha
  obtain ⟨l, t, htext, hl, ht, hlines⟩ : ∃ l t, text = l ++ t ∧ (∀ c ∈ l, isLineChar c = true)
      ∧ EndsLine t ∧ Text.lines text = ⟨0, l⟩ :: Text.linesAfter (0 + l.length) t :=
    ⟨_, _, List.takeWhile_append_dropWhile.symm, List.all_eq_true.1 List.all_takeWhile,
      Text.endsLine_dropWhile text, Text.linesFrom_eq_cons 0 text⟩
  rw [hlines, htext, List.findSome?_cons, List.flatMap_cons, Peg.apply_seq]
  cases hmissing : missingAt? ⟨0, l⟩ with
  | some p =>
    obtain ⟨-, hline⟩ := line_apply_of_missingAt? ht hmissing
    dsimp only
    rw [hline, Attempt.andThen_none]
  | none =>
    obtain ⟨far, hfar, hline⟩ := exists_line_apply hl ht hmissing
    have hreads := reads_repeatFrom ht (Eq.refl (Text.linesAfter (0 + l.length) t))
    rw [hline, Attempt.andThen_some, Peg.apply_seq]
    rw [Reads] at hreads
    dsimp only
    cases hlater : (Text.linesAfter (0 + l.length) t).findSome? missingAt? with
    | none =>
      rw [hlater] at hreads
      obtain ⟨c, far', hc, ha⟩ := hreads
      rw [Peg.apply, ha, Attempt.andThen_some, ending_apply, if_pos hc]
      exact ⟨c, _, by rw [List.append_assoc]; rfl⟩
    | some p =>
      rw [hlater] at hreads
      obtain ⟨c, read, hc, hp, hplace, ha⟩ := hreads
      rw [Peg.apply, ha, Attempt.andThen_some, ending_apply, if_neg hc]
      have hfurthest : max far (max p c.place) = p := by omega
      exact congrArg (Attempt.mk _) hfurthest

/-- **A whole text** is refused where the first value is missing, and else the grammar keeps what
its lines say. -/
theorem run_block (text : List Char) :
    match (Text.lines text).findSome? missingAt? with
    | none => ∃ whole, block.run text = .ok [whole]
        ∧ whole.inner = (Text.lines text).flatMap pairs ++ [⟨Rule.ending, [], []⟩]
    | some p => block.run text = .error p := by
  have hbody := lines_apply text rfl
  cases hmissing : (Text.lines text).findSome? missingAt? with
  | none =>
    rw [hmissing] at hbody
    obtain ⟨c, far, hbody⟩ := hbody
    obtain ⟨taken, hrun⟩ :=
      Peg.exists_run_rule Rule.block ((Peg.apply_start_seq _ false text).trans hbody)
    exact ⟨_, hrun, rfl⟩
  | some p =>
    rw [hmissing] at hbody
    exact Peg.run_rule_of_none Rule.block ((Peg.apply_start_seq _ false text).trans hbody)

end Lines

/-! ## Blocks -/

/-- What a line says about `d`, if it is that directive: the text behind the `=`, less the blanks
at its ends. -/
def valueOf? (d : Directive) (line : Line) : Option String :=
  (valueIn? d line.chars).map fun value => String.ofList (Text.trim value)

/-- What the last line says that says something about `d`. -/
def lastValue? (d : Directive) (lines : List Line) : Option String :=
  (lines.filterMap (valueOf? d)).getLast?

theorem lastValue?_cons (d : Directive) (line : Line) (lines : List Line) :
    lastValue? d (line :: lines) = (lastValue? d lines).or (valueOf? d line) := by
  rw [lastValue?, lastValue?, List.filterMap_cons]
  cases valueOf? d line with
  | none => rw [Option.or_none]
  | some value =>
    rw [List.getLast?_cons]
    cases (lines.filterMap (valueOf? d)).getLast? <;> rfl

/-- What a line adds to a block. -/
theorem foldl_say_pairs (b : Block) (line : Line) :
    (pairs line).foldl Block.say b
      = { func := (valueOf? .func line).getD b.func
          min := (valueOf? .min line).or b.min
          max := (valueOf? .max line).or b.max
          division := (valueOf? .division line).or b.division } := by
  cases hline : directive? line.chars with
  | none =>
    have hnone (d : Directive) : valueOf? d line = none := by
      refine Option.map_eq_none_iff.2 (if_neg fun h => ?_)
      exact directive?_eq_none_iff.1 hline d (List.isPrefixOf_iff_prefix.1 h)
    simp only [pairs, hline, hnone]
    rfl
  | some found =>
    obtain ⟨d, v⟩ := found
    rw [pairs, hline]
    simp only [valueOf?, directive?_eq_some_iff.1 hline]
    cases d <;> rfl

/-- What lines add to a block. -/
theorem foldl_say (b : Block) (lines : List Line) :
    (lines.flatMap pairs).foldl Block.say b
      = { func := (lastValue? .func lines).getD b.func
          min := (lastValue? .min lines).or b.min
          max := (lastValue? .max lines).or b.max
          division := (lastValue? .division lines).or b.division } := by
  induction lines generalizing b with
  | nil => rfl
  | cons line lines ih =>
    have hfunc : ((lastValue? .func lines).or (valueOf? .func line)).getD b.func
        = (lastValue? .func lines).getD ((valueOf? .func line).getD b.func) := by
      cases lastValue? .func lines <;> rfl
    rw [List.flatMap_cons, List.foldl_append, foldl_say_pairs, ih]
    simp only [lastValue?_cons, Option.or_assoc, hfunc]

end BlockGrammar

open BlockGrammar

/-! ## The reading of a block -/

/-- The line is a directive with nothing but spaces and tabs behind it. -/
def Text.Line.IsMissing (line : Text.Line) : Prop :=
  ∃ (d : Directive) (value : List Char), line.chars = d.key ++ '=' :: value
    ∧ ∀ c ∈ value, c = ' ' ∨ c = '\t'

/-- A place where a value is missing is behind the `=` of its line. -/
theorem missingAt?_eq_some_iff {line : Text.Line} {p : Nat} :
    missingAt? line = some p ↔ ∃ (d : Directive) (value : List Char),
      line.chars = d.key ++ '=' :: value ∧ (∀ c ∈ value, c = ' ' ∨ c = '\t')
        ∧ p = line.start + d.key.length + 1 := by
  have hgap (value : List Char) : value.all isGap = true ↔ ∀ c ∈ value, c = ' ' ∨ c = '\t' := by
    simp only [List.all_eq_true, isGap_iff]
  have hopening (d : Directive) (value : List Char) :
      opening d ++ value = d.key ++ '=' :: value := List.append_assoc ..
  have hlength (d : Directive) :
      line.start + (opening d).length = line.start + d.key.length + 1 := by
    rw [opening, List.length_append, Nat.add_assoc]
    rfl
  constructor
  · intro h
    obtain ⟨⟨d, value⟩, hline, hp⟩ := Option.bind_eq_some_iff.1 h
    split at hp
    · next hall =>
      exact ⟨d, value, hopening d value ▸ directive?_eq_some_iff.1 hline, (hgap value).1 hall,
        hlength d ▸ (Option.some.inj hp).symm⟩
    · cases hp
  · rintro ⟨d, value, hline, hall, rfl⟩
    rw [missingAt?, directive?_eq_some_iff.2 (hline.trans (hopening d value).symm),
      Option.bind_some, if_pos ((hgap value).2 hall), hlength]

theorem missingAt?_eq_none_iff {line : Text.Line} :
    missingAt? line = none ↔ ¬ line.IsMissing := by
  rw [Option.eq_none_iff_forall_ne_some]
  constructor
  · rintro h ⟨d, value, hline, hall⟩
    exact h _ (missingAt?_eq_some_iff.2 ⟨d, value, hline, hall, rfl⟩)
  · intro h p hp
    obtain ⟨d, value, hline, hall, -⟩ := missingAt?_eq_some_iff.1 hp
    exact h ⟨d, value, hline, hall⟩

section Place

variable {text : List Char} {line : Text.Line} {d : Directive} {value : List Char}
  (hmem : line ∈ Text.lines text) (hline : line.chars = d.key ++ '=' :: value)
include hmem hline

/-- What is before the place behind the `=` of a line: the lines before it, its key and the `=`. -/
theorem take_eq_append_key :
    text.take (line.start + d.key.length + 1) = text.take line.start ++ (d.key ++ ['=']) := by
  obtain ⟨-, rest, hrest⟩ := Text.chars_isPrefix_of_mem_linesFrom hmem
  rw [Nat.sub_zero] at hrest
  rw [Nat.add_assoc, List.take_add, ← hrest, hline, List.append_cons, List.append_assoc]
  exact congrArg _ (List.take_left' (by rw [List.length_append]; rfl))

/-- Neither the key nor the `=` ends a line. -/
theorem break_not_mem_key : '\n' ∉ d.key ++ ['='] := fun h => by
  refine (Text.not_break_of_mem_linesFrom hmem).1 ?_
  rw [hline, List.append_cons]
  exact List.mem_append_left _ h

theorem line_place_after :
    (Text.Place.after (text.take (line.start + d.key.length + 1))).line
      = (text.take line.start).count '\n' + 1 := by
  rw [Text.Place.after, take_eq_append_key hmem hline, List.count_append,
    List.count_eq_zero.2 (break_not_mem_key hmem hline), Nat.add_zero]

theorem column_place_after {head tail : List Char} (hsplit : text.take line.start = head ++ tail)
    (hhead : ∀ c ∈ head.getLast?, c = '\n') (htail : '\n' ∉ tail) :
    (Text.Place.after (text.take (line.start + d.key.length + 1))).column
      = tail.length + d.key.length + 2 := by
  have hnone : '\n' ∉ tail ++ (d.key ++ ['=']) := by
    rw [List.mem_append, not_or]
    exact ⟨htail, break_not_mem_key hmem hline⟩
  rw [take_eq_append_key hmem hline, hsplit, List.append_assoc,
    Text.Place.column_after_append hhead hnone]
  simp [Nat.add_assoc]

/-- **The place behind the `=` of a line**, in numbers. -/
theorem place_eq_after_iff {p : Text.Place} :
    p = .after (text.take (line.start + d.key.length + 1)) ↔
      text.take (line.start + d.key.length + 1) = text.take line.start ++ (d.key ++ ['='])
        ∧ p.offset = Text.byteSize (text.take (line.start + d.key.length + 1))
        ∧ p.line = (text.take line.start).count '\n' + 1
        ∧ ∃ head tail, text.take line.start = head ++ tail
          ∧ (∀ c ∈ head.getLast?, c = '\n') ∧ '\n' ∉ tail
          ∧ p.column = tail.length + d.key.length + 2 := by
  constructor
  · rintro rfl
    obtain ⟨head, tail, hsplit, hhead, htail⟩ := Text.exists_last_line (text.take line.start)
    exact ⟨take_eq_append_key hmem hline, rfl, line_place_after hmem hline,
      head, tail, hsplit, hhead, htail, column_place_after hmem hline hsplit hhead htail⟩
  · rintro ⟨-, hoffset, hnumber, head, tail, hsplit, hhead, htail, hcolumn⟩
    cases p with
    | mk offset number column =>
      rw [Text.Place.mk.injEq]
      exact ⟨hoffset, hnumber.trans (line_place_after hmem hline).symm,
        hcolumn.trans (column_place_after hmem hline hsplit hhead htail).symm⟩

end Place

namespace Block

/-- A text with a missing value. -/
theorem read_of_missing {text : String} {p : Nat}
    (h : (Text.lines text.toList).findSome? missingAt? = some p) :
    read text = .error ⟨.after (text.toList.take p)⟩ := by
  have hrun := run_block text.toList
  rw [h] at hrun
  dsimp only at hrun
  unfold read
  simp only [hrun]

/-- A text without one. -/
theorem read_of_not_missing {text : String}
    (h : (Text.lines text.toList).findSome? missingAt? = none) :
    read text = .ok
      { func := (lastValue? .func (Text.lines text.toList)).getD ""
        min := lastValue? .min (Text.lines text.toList)
        max := lastValue? .max (Text.lines text.toList)
        division := lastValue? .division (Text.lines text.toList) } := by
  have hrun := run_block text.toList
  rw [h] at hrun
  dsimp only at hrun
  obtain ⟨whole, hrun, hinner⟩ := hrun
  have hsay : whole.inner.foldl say {}
      = ((Text.lines text.toList).flatMap pairs).foldl say {} := by
    rw [hinner, List.foldl_append]
    rfl
  unfold read
  simp only [hrun, List.head?_cons, Option.elim_some, hsay, foldl_say, Option.or_none]

/-- **A graph block is read line by line.**  It is refused exactly if the value of some directive is
missing, that is if nothing but spaces and tabs is behind the `=`, and the fault is then behind the
`=` of the first such line: its offset is the size of the text up to and with that `=`, and its line
and its column count line feeds, and characters behind the last one.  Otherwise each thing is what
the last directive of its key says, and no other line has a part in it. -/
theorem read_iff (text : String) :
    (∀ e, Block.read text = .error e ↔
        ∃ (before after : List Text.Line) (line : Text.Line) (d : Directive) (value : List Char),
          Text.lines text.toList = before ++ line :: after
            ∧ (∀ earlier ∈ before, ¬ earlier.IsMissing)
            ∧ line.chars = d.key ++ '=' :: value ∧ (∀ c ∈ value, c = ' ' ∨ c = '\t')
            ∧ text.toList.take (line.start + d.key.length + 1)
              = text.toList.take line.start ++ (d.key ++ ['='])
            ∧ e.place.offset = Text.byteSize (text.toList.take (line.start + d.key.length + 1))
            ∧ e.place.line = (text.toList.take line.start).count '\n' + 1
            ∧ ∃ head tail, text.toList.take line.start = head ++ tail
              ∧ (∀ c ∈ head.getLast?, c = '\n') ∧ '\n' ∉ tail
              ∧ e.place.column = tail.length + d.key.length + 2)
      ∧ ∀ b, Block.read text = .ok b ↔
        (∀ line ∈ Text.lines text.toList, ¬ line.IsMissing)
          ∧ b.func = (lastValue? .func (Text.lines text.toList)).getD ""
          ∧ b.min = lastValue? .min (Text.lines text.toList)
          ∧ b.max = lastValue? .max (Text.lines text.toList)
          ∧ b.division = lastValue? .division (Text.lines text.toList) := by
  cases hmissing : (Text.lines text.toList).findSome? missingAt? with
  | none =>
    have hnone : ∀ line ∈ Text.lines text.toList, ¬ line.IsMissing := fun line hline =>
      missingAt?_eq_none_iff.1 (List.findSome?_eq_none_iff.1 hmissing line hline)
    refine ⟨fun e => iff_of_false ?_ ?_, fun b => ?_⟩
    · rw [read_of_not_missing hmissing]
      rintro ⟨⟩
    · rintro ⟨before, after, line, d, value, hsplit, -, hline, hall, -⟩
      exact hnone line (hsplit ▸ List.mem_append_right _ List.mem_cons_self)
        ⟨d, value, hline, hall⟩
    · rw [read_of_not_missing hmissing, Except.ok.injEq]
      constructor
      · rintro rfl
        exact ⟨hnone, rfl, rfl, rfl, rfl⟩
      · rintro ⟨-, hfunc, hmin, hmax, hdivision⟩
        rw [← hfunc, ← hmin, ← hmax, ← hdivision]
  | some p =>
    obtain ⟨before, line, after, hsplit, hline, hbefore⟩ := List.findSome?_eq_some_iff.1 hmissing
    obtain ⟨d, value, hchars, hall, hp⟩ := missingAt?_eq_some_iff.1 hline
    have hmem {before after : List Text.Line} {line : Text.Line}
        (h : Text.lines text.toList = before ++ line :: after) :
        line ∈ Text.lines text.toList := h ▸ List.mem_append_right _ List.mem_cons_self
    refine ⟨fun e => ?_, fun b => iff_of_false ?_ fun h => ?_⟩
    · rw [read_of_missing hmissing, Except.error.injEq]
      constructor
      · rintro rfl
        exact ⟨before, after, line, d, value, hsplit,
          fun earlier hmem => missingAt?_eq_none_iff.1 (hbefore earlier hmem), hchars, hall,
          (place_eq_after_iff (hmem hsplit) hchars).1 (by rw [hp])⟩
      · rintro ⟨before', after', line', d', value', hsplit', hbefore', hchars', hall', hplace⟩
        have hfirst : (Text.lines text.toList).findSome? missingAt?
            = some (line'.start + d'.key.length + 1) :=
          List.findSome?_eq_some_iff.2 ⟨before', line', after', hsplit',
            missingAt?_eq_some_iff.2 ⟨d', value', hchars', hall', rfl⟩,
            fun earlier hmem => missingAt?_eq_none_iff.2 (hbefore' earlier hmem)⟩
        rw [Option.some.inj (hmissing.symm.trans hfirst),
          ← (place_eq_after_iff (hmem hsplit') hchars').2 hplace]
    · rw [read_of_missing hmissing]
      rintro ⟨⟩
    · exact h.1 line (hmem hsplit) ⟨d, value, hchars, hall⟩

/-- A value is missing on a second line; and one behind a lone return, which no place counts as the
end of a line, and behind `é`, which has two bytes. -/
theorem read_iff_second_line :
    Block.read "func=x\nmax=" = .error ⟨⟨11, 2, 5⟩⟩
      ∧ Block.read "é\rmin=\t" = .error ⟨⟨7, 1, 7⟩⟩ := by
  constructor
  · have hbefore : ∀ earlier ∈ [Text.Line.mk 0 "func=x".toList], ¬ earlier.IsMissing :=
      List.forall_mem_singleton.2 (missingAt?_eq_none_iff.1 rfl)
    have hhead : ∀ c ∈ "func=x\n".toList.getLast?, c = '\n' := fun c hc =>
      (Option.some.inj (hc : some '\n' = some c)).symm
    exact ((read_iff "func=x\nmax=").1 _).2
      ⟨_, [], ⟨7, "max=".toList⟩, .max, [], rfl, hbefore, rfl, List.forall_mem_nil _,
        rfl, rfl, rfl, "func=x\n".toList, [], rfl, hhead, List.not_mem_nil, rfl⟩
  · have hbefore : ∀ earlier ∈ [Text.Line.mk 0 "é".toList], ¬ earlier.IsMissing :=
      List.forall_mem_singleton.2 (missingAt?_eq_none_iff.1 rfl)
    have hhead : ∀ c ∈ ([] : List Char).getLast?, c = '\n' := fun c hc =>
      absurd hc (Option.not_mem_none c)
    have hbreak : '\n' ∉ "é\r".toList := by simp
    exact ((read_iff "é\rmin=\t").1 _).2
      ⟨_, [], ⟨2, "min=\t".toList⟩, .min, ['\t'], rfl, hbefore, rfl,
        List.forall_mem_singleton.2 (.inr rfl), rfl, rfl, rfl, [], "é\r".toList, rfl, hhead,
        hbreak, rfl⟩

end Block

end FormulaPlot
