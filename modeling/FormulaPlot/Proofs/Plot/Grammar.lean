import FormulaPlot.Plot.Grammar
import FormulaPlot.Text.Line

/-!
# Proofs/Plot/Grammar — what the grammar of graph blocks matches

The expressions of the grammar, one after the other, on a text that is cut where a line ends: a
break, a stretch of characters, a key, a value, and a line.  A line is a directive with a value, or
a directive without one, which the grammar refuses behind the `=`, or no directive at all
(`line_apply_directive`, `line_apply_missing`, `line_apply_other`).  What is named when the whole
fails is exact in each of them.
-/

namespace FormulaPlot

/-! ## Breaks and lines -/

namespace Text

/-- How many characters the break has that a text starts with. -/
def breakLength? (s : List Char) : Option Nat :=
  if ['\n'].isPrefixOf s then some 1
  else if ['\r', '\n'].isPrefixOf s then some 2
  else if ['\r'].isPrefixOf s then some 1
  else none

/-- Whether a character is part of a line. -/
def isLineChar (c : Char) : Bool := c != '\n' && c != '\r'

/-- At the start of the text a line ends: there is a break, or nothing. -/
def EndsLine (s : List Char) : Prop := ∀ c ∈ s.head?, isLineChar c = false

theorem breakLength?_cons_eq_none_iff {c : Char} {s : List Char} :
    breakLength? (c :: s) = none ↔ isLineChar c = true := by
  by_cases hn : c = '\n'
  · subst hn
    exact iff_of_false nofun nofun
  · by_cases hr : c = '\r'
    · subst hr
      refine iff_of_false ?_ nofun
      simp only [breakLength?, List.isPrefixOf, Char.reduceBEq, Bool.false_and, Bool.true_and,
        Bool.false_eq_true, if_false, if_true]
      split <;> exact nofun
    · refine iff_of_true ?_ (by simp [isLineChar, hn, hr])
      simp [breakLength?, List.isPrefixOf, Ne.symm hn, Ne.symm hr]

end Text

namespace BlockGrammar

open Text (Attempt Cursor Peg breakLength? isLineChar EndsLine)

variable {n : Nat} {s : List Char}

/-- **A break.** -/
theorem newline_apply (negative : Bool) (n : Nat) (s : List Char) :
    newline.apply negative ⟨n, s⟩
      = (breakLength? s).elim .fail fun k => .pass ⟨n + k, s.drop k⟩ := by
  simp only [newline, Peg.apply, breakLength?]
  split
  · rfl
  · rw [Attempt.orElse_fail]
    split
    · rfl
    · rw [Attempt.orElse_fail]
      split <;> rfl

theorem takes_lineChar : lineChar.Takes isLineChar where
  nil _ _ := rfl
  cons negative n c s := by
    have habsent : (Peg.absent newline).apply negative ⟨n, c :: s⟩
        = if isLineChar c then .pass ⟨n, c :: s⟩ else .fail := by
      simp only [Peg.apply, newline_apply]
      cases hc : isLineChar c with
      | true => rw [Text.breakLength?_cons_eq_none_iff.2 hc]; rfl
      | false =>
        cases hbreak : breakLength? (c :: s) with
        | none => rw [Text.breakLength?_cons_eq_none_iff.1 hbreak] at hc; cases hc
        | some k => rfl
    rw [lineChar, Peg.apply, habsent]
    split
    · rw [Attempt.andThen_pass]
      rfl
    · rfl

/-! ## Keys -/

/-- **A key** at the start of a text is taken; inside a negative lookahead its place is named. -/
theorem key_apply (d : Directive) (negative : Bool) (n : Nat) (s : List Char) :
    key.apply negative ⟨n, d.key ++ s⟩
      = ⟨some (⟨n + d.key.length, s⟩, [⟨.key, d.key, []⟩]), if negative then n else 0⟩ := by
  -- The keys are tried in order, and none of them starts another.
  have hchoice : (Peg.choice (.literal Directive.func.key) (.choice (.literal Directive.min.key)
      (.choice (.literal Directive.max.key) (.literal Directive.division.key))) : Peg Rule).apply
        negative ⟨n, d.key ++ s⟩ = .pass ⟨n + d.key.length, s⟩ := by
    cases d <;> rfl
  rw [key, Peg.apply_rule_of_some .key hchoice, Nat.zero_max]

/-- A text that starts with no key names its place, outside negative lookaheads. -/
theorem key_apply_of_not (h : ∀ d : Directive, ¬ d.key <+: s) (negative : Bool) (n : Nat) :
    key.apply negative ⟨n, s⟩ = ⟨none, if negative then 0 else n⟩ := by
  have hchoice : (Peg.choice (.literal Directive.func.key) (.choice (.literal Directive.min.key)
      (.choice (.literal Directive.max.key) (.literal Directive.division.key))) : Peg Rule).apply
        negative ⟨n, s⟩ = .fail := by
    have hliteral (d : Directive) :
        (Peg.literal d.key : Peg Rule).apply negative ⟨n, s⟩ = .fail :=
      Peg.apply_literal_of_not (h d)
    simp only [Peg.apply_choice, hliteral, Attempt.orElse_fail]
  rw [key, Peg.apply_rule_of_none .key hchoice, Nat.zero_max]

/-! ## Values -/

/-- Whether a character is a space or a tab. -/
def isGap (c : Char) : Bool := ' ' == c || '\t' == c

theorem isGap_iff {c : Char} : isGap c = true ↔ c = ' ' ∨ c = '\t' := by
  rw [isGap, Bool.or_eq_true, beq_iff_eq, beq_iff_eq, @eq_comm _ ' ', @eq_comm _ '\t']

theorem takes_gap : gap.Takes isGap := Text.Peg.takes_literal_or

theorem isLineChar_of_isGap {c : Char} (h : isGap c = true) : isLineChar c = true := by
  rcases isGap_iff.1 h with rfl | rfl <;> rfl

theorem isGap_of_endsLine (hs : EndsLine s) : ∀ c ∈ s.head?, isGap c = false :=
  fun c hc => Bool.eq_false_iff.2 fun h =>
    absurd (isLineChar_of_isGap h) (Bool.eq_false_iff.1 (hs c hc))

section Values

variable {v : List Char}

/-- **A value of spaces and tabs** is refused at its start. -/
theorem value_apply_missing (hv : ∀ c ∈ v, isGap c = true) (hs : EndsLine s) (n : Nat) :
    value.apply false ⟨n, v ++ s⟩ = ⟨none, n⟩ := by
  have hbody : (Peg.seq (.many gap) (.seq lineChar (.many lineChar))).apply false ⟨n, v ++ s⟩
      = .fail := by
    rw [Peg.apply_seq, takes_gap.many_apply hv (isGap_of_endsLine hs), Attempt.andThen_pass,
      Peg.apply_seq, takes_lineChar.apply_of_head hs, Attempt.andThen_fail]
  rw [value, Peg.apply_rule_of_none .value hbody, if_neg Bool.false_ne_true, Nat.zero_max]

/-- **Another value** is the rest of its line. -/
theorem value_apply (hv : ∀ c ∈ v, isLineChar c = true) (hgap : ¬ ∀ c ∈ v, isGap c = true)
    (hs : EndsLine s) (n : Nat) :
    value.apply false ⟨n, v ++ s⟩
      = ⟨some (⟨n + v.length, s⟩, [⟨.value, v, []⟩]), 0⟩ := by
  obtain ⟨g, c, u, rfl, hg, hc⟩ : ∃ g c u, v = g ++ c :: u ∧ (∀ d ∈ g, isGap d = true)
      ∧ isGap c = false := by
    have hnot := List.head?_dropWhile_not isGap v
    cases hdrop : v.dropWhile isGap with
    | nil =>
      have hsplit := @List.takeWhile_append_dropWhile _ isGap v
      rw [hdrop, List.append_nil] at hsplit
      exact absurd (hsplit ▸ List.all_eq_true.1 List.all_takeWhile) hgap
    | cons c u =>
      rw [hdrop] at hnot
      refine ⟨v.takeWhile isGap, c, u, ?_, List.all_eq_true.1 List.all_takeWhile, hnot⟩
      rw [← hdrop, List.takeWhile_append_dropWhile]
  have hbody : (Peg.seq (.many gap) (.seq lineChar (.many lineChar))).apply false
      ⟨n, (g ++ c :: u) ++ s⟩ = .pass ⟨n + (g ++ c :: u).length, s⟩ := by
    obtain ⟨-, hcu⟩ := List.forall_mem_append.1 hv
    obtain ⟨hc', hu⟩ := List.forall_mem_cons.1 hcu
    rw [List.append_assoc, Peg.apply_seq, takes_gap.many_apply hg, Attempt.andThen_pass,
      Peg.apply_seq, List.cons_append, takes_lineChar.cons, hc', if_pos rfl, Attempt.andThen_pass,
      takes_lineChar.many_apply hu hs, List.length_append, List.length_cons]
    · congr 2
      omega
    · exact fun d hd => Option.some.inj hd ▸ hc
  exact Peg.apply_rule_of_some .value hbody

end Values

/-! ## Lines -/

section Lines

variable {l v : List Char} {d : Directive}

/-- How a line that is a directive starts. -/
def opening (d : Directive) : List Char := d.key ++ ['=']

/-- What the rule of directives keeps. -/
def directivePair (d : Directive) (v : List Char) : Text.Pair Rule :=
  ⟨.directive, opening d ++ v, [⟨.key, d.key, []⟩, ⟨.value, v, []⟩]⟩

/-- No break stands in an opening. -/
theorem isLineChar_of_mem_opening (d : Directive) : ∀ c ∈ opening d, isLineChar c = true := by
  have hall : (opening d).all isLineChar = true := by cases d <;> rfl
  exact List.all_eq_true.1 hall

/-- **An opening does not go past the end of a line.** -/
theorem opening_prefix_append (hs : EndsLine s) (h : opening d <+: l ++ s) : opening d <+: l := by
  rcases Nat.le_total (opening d).length l.length with hle | hle
  · exact List.prefix_of_prefix_length_le h (List.prefix_append l s) hle
  · obtain ⟨z, hz⟩ := List.prefix_of_prefix_length_le (List.prefix_append l s) h hle
    cases z with
    | nil => exact ⟨[], by rw [← hz, List.append_nil, List.append_nil]⟩
    | cons c z =>
      obtain ⟨r, hr⟩ := h
      have hsuffix : s = (c :: z) ++ r := by
        rw [← hz, List.append_assoc] at hr
        exact (List.append_cancel_left hr).symm
      have hc : isLineChar c = true :=
        isLineChar_of_mem_opening d c (hz ▸ List.mem_append_right l List.mem_cons_self)
      rw [hs c (hsuffix ▸ rfl)] at hc
      cases hc

/-- **Behind a key** the grammar goes on with what stands there. -/
theorem key_seq_apply (e : Peg Rule) (d : Directive) (negative : Bool) (n : Nat) (t : List Char) :
    (Peg.seq key (.seq (.literal ['=']) e)).apply negative ⟨n, opening d ++ t⟩
      = ⟨(e.apply negative ⟨n + (opening d).length, t⟩).outcome.map fun r =>
            (r.1, ⟨.key, d.key, []⟩ :: r.2),
          max (if negative then n else 0)
            (e.apply negative ⟨n + (opening d).length, t⟩).furthest⟩ := by
  rw [opening, List.append_assoc, Peg.apply_seq, key_apply, Attempt.andThen_some, Peg.apply_seq,
    Peg.apply_literal_append, Attempt.andThen_pass, List.length_append, Nat.add_assoc]
  rfl

/-- An opening is there; inside a negative lookahead its place is named. -/
theorem opening_apply (d : Directive) (n : Nat) (t : List Char) :
    (Peg.seq key (.literal ['='])).apply true ⟨n, opening d ++ t⟩
      = ⟨some (⟨n + (opening d).length, t⟩, [⟨.key, d.key, []⟩]), n⟩ := by
  rw [opening, List.append_assoc, Peg.apply_seq, key_apply, Attempt.andThen_some,
    Peg.apply_literal_append, List.length_append, ← Nat.add_assoc]
  simp [Attempt.pass]

/-- Without an opening a key leads nowhere that has to start with `=`. -/
theorem exists_key_apply_of_not {e : Peg Rule} {negative : Bool}
    (he : ∀ c : Cursor, ¬ ['='] <+: c.rest → e.apply negative c = .fail) {t : List Char}
    (ht : ∀ d, ¬ opening d <+: t) (n : Nat) :
    ∃ far ≤ n, (Peg.seq key e).apply negative ⟨n, t⟩ = ⟨none, far⟩ := by
  rw [Peg.apply_seq]
  by_cases hkey : ∃ d : Directive, d.key <+: t
  · obtain ⟨d, u, rfl⟩ := hkey
    have hequals : ¬ ['='] <+: u := fun h =>
      ht d ((List.prefix_append_right_inj d.key).2 h)
    refine ⟨if negative then n else 0, by split <;> omega, ?_⟩
    rw [key_apply, Attempt.andThen_some, he _ hequals]
    cases negative <;> simp [Attempt.fail]
  · refine ⟨if negative then 0 else n, by split <;> omega, ?_⟩
    rw [key_apply_of_not (not_exists.1 hkey), Attempt.andThen_none]

/-- A line that starts like a directive is no other line. -/
theorem other_apply_opening (d : Directive) (n : Nat) (t : List Char) :
    other.apply false ⟨n, opening d ++ t⟩ = ⟨none, n⟩ := by
  rw [other, Peg.apply_seq, Peg.apply_absent_of_some (opening_apply d n t), Attempt.andThen_none]

/-- **A directive without a value** is refused behind its `=`. -/
theorem line_apply_missing (hv : ∀ c ∈ v, isGap c = true) (hs : EndsLine s) (n : Nat) :
    line.apply false ⟨n, opening d ++ (v ++ s)⟩ = ⟨none, n + (opening d).length⟩ := by
  have hbody : (Peg.seq key (.seq (.literal ['=']) value)).apply false ⟨n, opening d ++ (v ++ s)⟩
      = ⟨none, n + (opening d).length⟩ := by
    rw [key_seq_apply, value_apply_missing hv hs]
    simp
  have hdirective : directive.apply false ⟨n, opening d ++ (v ++ s)⟩
      = ⟨none, n + (opening d).length⟩ := by
    rw [directive, Peg.apply_rule_of_none Rule.directive hbody, if_neg Bool.false_ne_true,
      Nat.max_eq_left (Nat.le_add_right n _)]
  rw [line, Peg.apply_choice, hdirective, Attempt.orElse_none, other_apply_opening,
    Nat.max_eq_left (Nat.le_add_right n _)]

/-- **A directive with a value** is taken to the end of its line. -/
theorem line_apply_directive (hv : ∀ c ∈ v, isLineChar c = true)
    (hgap : ¬ ∀ c ∈ v, isGap c = true) (hs : EndsLine s) (n : Nat) :
    line.apply false ⟨n, (opening d ++ v) ++ s⟩
      = ⟨some (⟨n + (opening d ++ v).length, s⟩, [directivePair d v]), 0⟩ := by
  have hbody : (Peg.seq key (.seq (.literal ['=']) value)).apply false
      ⟨n, (opening d ++ v) ++ s⟩ = ⟨some (⟨n + (opening d ++ v).length, s⟩,
        [⟨.key, d.key, []⟩, ⟨.value, v, []⟩]), 0⟩ := by
    rw [List.append_assoc, key_seq_apply, value_apply hv hgap hs, List.length_append,
      Nat.add_assoc]
    rfl
  rw [line, Peg.apply_choice, directive, Peg.apply_rule_of_some Rule.directive hbody,
    Attempt.orElse_some]
  rfl

/-- **Another line** is passed over. -/
theorem line_apply_other (hl : ∀ c ∈ l, isLineChar c = true)
    (hd : ∀ d, ¬ opening d <+: l) (hs : EndsLine s) (n : Nat) :
    line.apply false ⟨n, l ++ s⟩ = ⟨some (⟨n + l.length, s⟩, []), n⟩ := by
  have hd' : ∀ d, ¬ opening d <+: l ++ s := fun d h => hd d (opening_prefix_append hs h)
  obtain ⟨far, hfar, hbody⟩ : ∃ far ≤ n,
      (Peg.seq key (.seq (.literal ['=']) value)).apply false ⟨n, l ++ s⟩ = ⟨none, far⟩ := by
    refine exists_key_apply_of_not (fun c hc => ?_) hd' n
    rw [Peg.apply_seq, Peg.apply_literal_of_not hc, Attempt.andThen_fail]
  obtain ⟨far', hfar', habsent⟩ : ∃ far ≤ n,
      (Peg.seq key (.literal ['='])).apply (!false) ⟨n, l ++ s⟩ = ⟨none, far⟩ :=
    exists_key_apply_of_not (fun c hc => Peg.apply_literal_of_not hc) hd' n
  rw [line, Peg.apply_choice, directive, Peg.apply_rule_of_none Rule.directive hbody,
    Attempt.orElse_none, other, Peg.apply_seq, Peg.apply_absent_of_none habsent,
    Attempt.andThen_some, takes_lineChar.many_apply hl hs]
  simp only [Attempt.pass, Option.map_some, List.nil_append, if_neg Bool.false_ne_true]
  congr 1
  omega

end Lines

end BlockGrammar

end FormulaPlot
