/-!
# Text/Line — a text cut into lines

A line ends at `\n`, at `\r\n` (one break) or at a lone `\r`; the text after the last break is a
line too, so every text has at least one.  Each line remembers where it starts, so that a fault
found in it can be placed in the whole text.

* `not_break_of_mem_linesFrom` — a line holds no break.
* `chars_isPrefix_of_mem_linesFrom` — a line stands in the text where it says.
-/

namespace FormulaPlot.Text

/-- A line of a text, without its break. -/
structure Line where
  /-- The number of characters of the text before the line. -/
  start : Nat
  /-- The characters of the line. -/
  chars : List Char
  deriving Repr, DecidableEq

/-- The lines of a text that itself starts after `n` characters. -/
def linesFrom (n : Nat) : List Char → List Line
  | [] => [⟨n, []⟩]
  | '\r' :: '\n' :: rest => ⟨n, []⟩ :: linesFrom (n + 2) rest
  | c :: rest =>
    if c = '\n' ∨ c = '\r' then ⟨n, []⟩ :: linesFrom (n + 1) rest
    else
      match linesFrom (n + 1) rest with
      | [] => [⟨n, [c]⟩]
      | line :: lines => ⟨n, c :: line.chars⟩ :: lines

/-- The first line starts where the text does. -/
theorem start_of_linesFrom_eq_cons {n : Nat} {s : List Char} {line : Line} {rest : List Line}
    (h : linesFrom n s = line :: rest) : line.start = n := by
  unfold linesFrom at h
  split at h
  · exact (List.cons.inj h).1 ▸ rfl
  · exact (List.cons.inj h).1 ▸ rfl
  · split at h
    · exact (List.cons.inj h).1 ▸ rfl
    · split at h <;> exact (List.cons.inj h).1 ▸ rfl

/-- **A line holds no break.** -/
theorem not_break_of_mem_linesFrom {n : Nat} {s : List Char} {line : Line}
    (h : line ∈ linesFrom n s) : '\n' ∉ line.chars ∧ '\r' ∉ line.chars := by
  fun_induction linesFrom n s generalizing line with
  | case1 n => simp_all
  | case2 n rest ih =>
    rcases List.mem_cons.1 h with rfl | h
    · simp
    · exact ih h
  | case3 n c rest _ _ ih =>
    rcases List.mem_cons.1 h with rfl | h
    · simp
    · exact ih h
  | case4 n c rest _ hc _ ih =>
    obtain rfl := List.mem_singleton.1 h
    simpa [eq_comm] using hc
  | case5 n c rest _ hc first others hrest ih =>
    rcases List.mem_cons.1 h with rfl | h
    · have hfirst := ih (hrest ▸ List.mem_cons_self)
      exact ⟨by grind, by grind⟩
    · exact ih (hrest ▸ List.mem_cons_of_mem _ h)

/-- **A line stands where it says**: its characters are those of the text from its start on. -/
theorem chars_isPrefix_of_mem_linesFrom {n : Nat} {s : List Char} {line : Line}
    (h : line ∈ linesFrom n s) : n ≤ line.start ∧ line.chars <+: s.drop (line.start - n) := by
  fun_induction linesFrom n s generalizing line with
  | case1 n => simp_all
  | case2 n rest ih =>
    rcases List.mem_cons.1 h with rfl | h
    · simp
    · obtain ⟨hle, hpre⟩ := ih h
      refine ⟨by omega, ?_⟩
      rwa [show line.start - n = line.start - (n + 2) + 2 by omega]
  | case3 n c rest _ _ ih =>
    rcases List.mem_cons.1 h with rfl | h
    · simp
    · obtain ⟨hle, hpre⟩ := ih h
      refine ⟨by omega, ?_⟩
      rwa [show line.start - n = line.start - (n + 1) + 1 by omega]
  | case4 n c rest _ _ _ _ =>
    obtain rfl := List.mem_singleton.1 h
    simp
  | case5 n c rest _ _ first others hrest ih =>
    rcases List.mem_cons.1 h with rfl | h
    · obtain ⟨-, hpre⟩ := ih (hrest ▸ List.mem_cons_self)
      rw [start_of_linesFrom_eq_cons hrest, Nat.sub_self] at hpre
      simpa using hpre
    · obtain ⟨hle, hpre⟩ := ih (hrest ▸ List.mem_cons_of_mem _ h)
      refine ⟨by omega, ?_⟩
      rwa [show line.start - n = line.start - (n + 1) + 1 by omega]

/-- The lines of a text. -/
def lines (s : List Char) : List Line := linesFrom 0 s

example : (lines "a\r\nb\rc\n".toList).map Line.chars = [['a'], ['b'], ['c'], []] := by decide

example : (lines "a\r\nb\rc\n".toList).map Line.start = [0, 3, 5, 7] := by decide

end FormulaPlot.Text
