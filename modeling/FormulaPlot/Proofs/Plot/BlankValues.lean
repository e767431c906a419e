import FormulaPlot.Proofs.Plot.Directives
import Mathlib.Data.List.TakeWhile

/-!
# Proofs/Plot/BlankValues — two notions of blank

The grammar refuses a text for a directive with only spaces and tabs behind its `=`.  A value is
trimmed of every blank there is, though, so one made of other blanks, a no-break space or a form
feed, passes the grammar and is kept as the empty text.

* `lastValue?_eq_empty_iff` — what is said last is empty where the last directive is blank;
* `Block.blanks_refused_iff` — which values of a block are empty, and in which texts none is.
-/

namespace FormulaPlot

open BlockGrammar

/-! ## Blank directives -/

/-- The line is the directive `d` with nothing but blanks behind it. -/
def Text.Line.IsBlankFor (line : Text.Line) (d : Directive) : Prop :=
  ∃ value, line.chars = d.key ++ '=' :: value ∧ ∀ c ∈ value, Text.isBlank c = true

/-- The line is a directive with nothing but blanks behind it. -/
def Text.Line.IsBlank (line : Text.Line) : Prop := ∃ d, line.IsBlankFor d

/-- Of the lines that are the directive `d` the last is blank. -/
def EndsBlank (d : Directive) (lines : List Text.Line) : Prop :=
  ∃ before line after, lines = before ++ line :: after ∧ line.IsBlankFor d
    ∧ ∀ later ∈ after, ¬ d.key ++ ['='] <+: later.chars

/-- Spaces and tabs are blanks. -/
theorem Text.Line.IsMissing.isBlank {line : Text.Line} : line.IsMissing → line.IsBlank := by
  rintro ⟨d, value, hline, hgaps⟩
  refine ⟨d, value, hline, fun c hc => ?_⟩
  rcases hgaps c hc with rfl | rfl <;> decide

theorem EndsBlank.exists_isBlank {d : Directive} {lines : List Text.Line} (h : EndsBlank d lines) :
    ∃ line ∈ lines, line.IsBlank := by
  obtain ⟨before, line, after, rfl, hblank, -⟩ := h
  exact ⟨line, List.mem_append_right before List.mem_cons_self, d, hblank⟩

/-! ## Empty values -/

/-- Only blanks are trimmed to nothing. -/
theorem Text.trim_eq_nil_iff {s : List Char} : trim s = [] ↔ ∀ c ∈ s, isBlank c = true := by
  constructor
  · intro h
    obtain ⟨before, after, hs, hbefore, hafter, -⟩ := exists_trim s
    rw [h, List.nil_append] at hs
    rw [hs]
    exact List.forall_mem_append.2 ⟨hbefore, hafter⟩
  · intro h
    rw [trim, trimStart, List.dropWhile_eq_nil_iff.2 h]
    rfl

section Values

variable {d : Directive} {line : Text.Line} {lines : List Text.Line}

theorem valueOf?_eq_none_iff : valueOf? d line = none ↔ ¬ d.key ++ ['='] <+: line.chars := by
  rw [valueOf?, Option.map_eq_none_iff, Option.eq_none_iff_forall_ne_some]
  exact not_exists.symm.trans
    (not_congr (exists_congr fun value => valueIn?_eq_some_iff.trans eq_comm))

/-- **A value is empty** where there is nothing but blanks. -/
theorem valueOf?_eq_empty_iff : valueOf? d line = some "" ↔ line.IsBlankFor d := by
  rw [valueOf?, Option.map_eq_some_iff]
  refine exists_congr fun value => and_congr ?_ ?_
  · rw [valueIn?_eq_some_iff, opening, List.append_assoc]
    rfl
  · rw [← Text.trim_eq_nil_iff]
    exact String.ofList_eq_empty_iff

theorem lastValue?_eq_none_iff :
    lastValue? d lines = none ↔ ∀ line ∈ lines, ¬ d.key ++ ['='] <+: line.chars := by
  rw [lastValue?, List.getLast?_eq_none_iff, List.filterMap_eq_nil_iff]
  exact forall₂_congr fun line _ => valueOf?_eq_none_iff

/-- **What is said last is empty** where the last directive is blank. -/
theorem lastValue?_eq_empty_iff : lastValue? d lines = some "" ↔ EndsBlank d lines := by
  rw [lastValue?, List.getLast?_filterMap, List.findSome?_eq_some_iff]
  constructor
  · rintro ⟨after, line, before, hsplit, hvalue, hafter⟩
    refine ⟨before.reverse, line, after.reverse, ?_, valueOf?_eq_empty_iff.1 hvalue,
      fun later hlater => valueOf?_eq_none_iff.1 (hafter later (List.mem_reverse.1 hlater))⟩
    rw [List.reverse_eq_append_iff.1 hsplit, List.reverse_cons, List.append_assoc]
    rfl
  · rintro ⟨before, line, after, rfl, hblank, hafter⟩
    refine ⟨after.reverse, line, before.reverse, ?_, valueOf?_eq_empty_iff.2 hblank,
      fun later hlater => valueOf?_eq_none_iff.2 (hafter later (List.mem_reverse.1 hlater))⟩
    rw [List.reverse_append, List.reverse_cons, List.append_assoc]
    rfl

end Values

/-! ## Blocks -/

namespace Block

variable {text : String} {b : Block}

/-- The things a block says are those said last, and a text that is read has no value missing. -/
theorem eq_lastValue?_of_read (h : read text = .ok b) :
    (∀ line ∈ Text.lines text.toList, ¬ line.IsMissing)
      ∧ b.func = (lastValue? .func (Text.lines text.toList)).getD ""
      ∧ b.min = lastValue? .min (Text.lines text.toList)
      ∧ b.max = lastValue? .max (Text.lines text.toList)
      ∧ b.division = lastValue? .division (Text.lines text.toList) := by
  cases hmissing : (Text.lines text.toList).findSome? missingAt? with
  | none =>
    rw [read_of_not_missing hmissing] at h
    obtain rfl := Except.ok.inj h
    exact ⟨fun line hline => missingAt?_eq_none_iff.1
      (List.findSome?_eq_none_iff.1 hmissing line hline), rfl, rfl, rfl, rfl⟩
  | some p =>
    rw [read_of_missing hmissing] at h
    cases h

/-- A text without a missing value is read. -/
theorem exists_read_of_forall (h : ∀ line ∈ Text.lines text.toList, ¬ line.IsMissing) :
    ∃ b, read text = .ok b := by
  have hmissing : (Text.lines text.toList).findSome? missingAt? = none :=
    List.findSome?_eq_none_iff.2 fun line hline => missingAt?_eq_none_iff.2 (h line hline)
  exact ⟨_, read_of_not_missing hmissing⟩

/-- **Where a thing is said to be empty**, the last directive of its key is blank; and a formula is
empty also if no directive says one. -/
theorem eq_empty_iff_of_read (h : read text = .ok b) :
    (b.func = "" ↔ (∀ line ∈ Text.lines text.toList, ¬ "func=".toList <+: line.chars)
        ∨ EndsBlank .func (Text.lines text.toList))
      ∧ (b.min = some "" ↔ EndsBlank .min (Text.lines text.toList))
      ∧ (b.max = some "" ↔ EndsBlank .max (Text.lines text.toList))
      ∧ (b.division = some "" ↔ EndsBlank .division (Text.lines text.toList)) := by
  obtain ⟨-, hfunc, hmin, hmax, hdivision⟩ := eq_lastValue?_of_read h
  have hkey : "func=".toList = Directive.func.key ++ ['='] := rfl
  rw [hfunc, hmin, hmax, hdivision, hkey, ← lastValue?_eq_none_iff, ← lastValue?_eq_empty_iff]
  refine ⟨?_, lastValue?_eq_empty_iff, lastValue?_eq_empty_iff, lastValue?_eq_empty_iff⟩
  cases lastValue? .func (Text.lines text.toList) <;> simp

/-- **Which values of a block are empty.**  A text is read if none of its directives has only
spaces and tabs behind the `=`; then a field is empty exactly if the last directive that sets it has
nothing but blanks there, or, of the formula, if there is none.  So what a blank directive ought to
lead to, a fault and never an empty value, holds of a text exactly if it has no blank directive or
one of its blank directives has only spaces and tabs. -/
theorem blanks_refused_iff (text : String) :
    (∀ b, read text = .ok b →
      (b.func = "" ↔ (∀ line ∈ Text.lines text.toList, ¬ "func=".toList <+: line.chars)
          ∨ EndsBlank .func (Text.lines text.toList))
        ∧ (b.min = some "" ↔ EndsBlank .min (Text.lines text.toList))
        ∧ (b.max = some "" ↔ EndsBlank .max (Text.lines text.toList))
        ∧ (b.division = some "" ↔ EndsBlank .division (Text.lines text.toList)))
      ∧ (((∀ b, read text = .ok b →
              b.min ≠ some "" ∧ b.max ≠ some "" ∧ b.division ≠ some ""
                ∧ (b.func = "" → ∀ line ∈ Text.lines text.toList, ¬ "func=".toList <+: line.chars))
            ∧ ∀ line ∈ Text.lines text.toList, line.IsBlank → ∃ e, read text = .error e)
        ↔ ((∃ line ∈ Text.lines text.toList, line.IsBlank) →
            ∃ line ∈ Text.lines text.toList, line.IsMissing)) := by
  refine ⟨fun b h => eq_empty_iff_of_read h, ⟨?_, ?_⟩⟩
  · rintro ⟨-, hrefused⟩ ⟨line, hline, hblank⟩
    obtain ⟨e, he⟩ := hrefused line hline hblank
    by_contra hmissing
    have hread : ∃ b, read text = .ok b :=
      exists_read_of_forall fun line hline hmiss => hmissing ⟨line, hline, hmiss⟩
    obtain ⟨b, hb⟩ := hread
    rw [he] at hb
    cases hb
  · intro hcovered
    -- In a text that is read no value is missing, so no directive is blank.
    have hnone {b : Block} (h : read text = .ok b) :
        ∀ line ∈ Text.lines text.toList, ¬ line.IsBlank := fun line hline hblank =>
      have ⟨other, hother, hmiss⟩ := hcovered ⟨line, hline, hblank⟩
      (eq_lastValue?_of_read h).1 other hother hmiss
    refine ⟨fun b h => ?_, fun line hline hblank => ?_⟩
    · have hlast (d : Directive) : ¬ EndsBlank d (Text.lines text.toList) := fun hends =>
        have ⟨line, hline, hblank⟩ := hends.exists_isBlank
        hnone h line hline hblank
      obtain ⟨hfunc, hmin, hmax, hdivision⟩ := eq_empty_iff_of_read h
      exact ⟨fun hempty => hlast .min (hmin.1 hempty), fun hempty => hlast .max (hmax.1 hempty),
        fun hempty => hlast .division (hdivision.1 hempty),
        fun hempty => (hfunc.1 hempty).resolve_right (hlast .func)⟩
    · cases hread : read text with
      | error e => exact ⟨e, rfl⟩
      | ok b => exact absurd hblank (hnone hread line hline)

/-- A form feed is no value, though the text is read; with a tab behind another `=` it is not. -/
theorem blanks_refused_iff_form_feed :
    (∃ b, read "func=x\r\nmin=\x0c" = .ok b ∧ b.min = some "")
      ∧ ∃ e, read "func=x\r\nmin=\x0c\rmax=\t" = .error e := by
  have hread : read "func=x\r\nmin=\x0c" = .ok { func := "x", min := some "" } := by
    decide +kernel
  have hends : EndsBlank .min (Text.lines "func=x\r\nmin=\x0c".toList) :=
    ⟨[⟨0, "func=x".toList⟩], ⟨8, "min=\x0c".toList⟩, [], rfl,
      ⟨['\x0c'], rfl, List.forall_mem_singleton.2 (by decide)⟩, List.forall_mem_nil _⟩
  have hlines : Text.lines "func=x\r\nmin=\x0c\rmax=\t".toList
      = [⟨0, "func=x".toList⟩, ⟨8, "min=\x0c".toList⟩] ++ [⟨14, "max=\t".toList⟩] := rfl
  have hline : ⟨14, "max=\t".toList⟩ ∈ Text.lines "func=x\r\nmin=\x0c\rmax=\t".toList := by
    rw [hlines]
    exact List.mem_append_right _ List.mem_cons_self
  have hmissing : (⟨14, "max=\t".toList⟩ : Text.Line).IsMissing :=
    ⟨.max, ['\t'], rfl, fun c hc => .inr (List.mem_singleton.1 hc)⟩
  obtain ⟨hempty, -⟩ := blanks_refused_iff "func=x\r\nmin=\x0c"
  obtain ⟨-, hrefused⟩ := blanks_refused_iff "func=x\r\nmin=\x0c\rmax=\t"
  exact ⟨⟨_, hread, (hempty _ hread).2.1.2 hends⟩,
    (hrefused.2 fun _ => ⟨_, hline, hmissing⟩).2 _ hline hmissing.isBlank⟩

/-- A directive with a no-break space behind it is blank, and the text is read nevertheless. -/
theorem read_no_break_space :
    Text.lines "func=\u00a0".toList = [⟨0, "func=".toList ++ ['\u00a0']⟩]
      ∧ Text.trim ['\u00a0'] = []
      ∧ read "func=\u00a0" = .ok { func := "", min := none, max := none, division := none } := by
  refine ⟨rfl, rfl, ?_⟩
  decide +kernel

end Block

end FormulaPlot
