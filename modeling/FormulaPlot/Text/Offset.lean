/-!
# Text/Offset — where a character stands

Places in a text are told in two ways: as a **byte offset**, the UTF-8 size of the characters
before it, and as a **line and column**, counted from one.  Only a line feed ends a line here, and
a column counts characters, not bytes (`Place.column_after_append`).
-/

namespace FormulaPlot.Text

/-! ## Bytes -/

/-- The number of bytes of a text in UTF-8. -/
def byteSize : List Char → Nat
  | [] => 0
  | c :: s => c.utf8Size + byteSize s

@[simp] theorem byteSize_nil : byteSize [] = 0 := rfl

@[simp] theorem byteSize_cons (c : Char) (s : List Char) :
    byteSize (c :: s) = c.utf8Size + byteSize s := rfl

@[simp] theorem byteSize_append (s t : List Char) :
    byteSize (s ++ t) = byteSize s + byteSize t := by
  induction s with
  | nil => simp
  | cons c s ih => simp only [List.cons_append, byteSize_cons, ih, Nat.add_assoc]

/-- A character has at least one byte. -/
theorem length_le_byteSize (s : List Char) : s.length ≤ byteSize s := by
  induction s with
  | nil => exact Nat.le_refl 0
  | cons c s ih =>
    have hc := c.utf8Size_pos
    rw [List.length_cons, byteSize_cons]
    omega

/-- The bytes of a string are those of its characters. -/
theorem byteSize_toList (s : String) : byteSize s.toList = s.utf8ByteSize := by
  rw [← String.ofList_toList (s := s), String.toList_ofList]
  induction s.toList with
  | nil => simp
  | cons c cs ih => rw [byteSize_cons, ih, String.ofList_cons, String.utf8ByteSize_append,
      String.utf8ByteSize_singleton]

/-! ## Lines and columns -/

/-- A place in a text: byte offset, line and column. -/
structure Place where
  /-- Bytes before the place. -/
  offset : Nat
  /-- One more than the line feeds before the place. -/
  line : Nat
  /-- One more than the characters between the last line feed and the place. -/
  column : Nat
  deriving Repr, DecidableEq

/-- The place that comes after the text `s`. -/
def Place.after (s : List Char) : Place where
  offset := byteSize s
  line := s.count '\n' + 1
  column := (s.reverse.takeWhile (· != '\n')).length + 1

/-- A text is what ends with its last line feed, and the rest. -/
theorem exists_last_line (s : List Char) :
    ∃ head tail, s = head ++ tail ∧ (∀ c ∈ head.getLast?, c = '\n') ∧ '\n' ∉ tail := by
  refine ⟨(s.reverse.dropWhile (· != '\n')).reverse, (s.reverse.takeWhile (· != '\n')).reverse,
    ?_, fun c hc => ?_, fun hmem => ?_⟩
  · rw [← List.reverse_append, List.takeWhile_append_dropWhile, List.reverse_reverse]
  · have hnot := List.head?_dropWhile_not (· != '\n') s.reverse
    rw [← List.getLast?_reverse, hc] at hnot
    exact bne_eq_false_iff_eq.1 hnot
  · have hall := List.all_eq_true.1 List.all_takeWhile _ (List.mem_reverse.1 hmem)
    cases hall

/-- **The column** counts from the last line feed on. -/
theorem Place.column_after_append {head tail : List Char} (hhead : ∀ c ∈ head.getLast?, c = '\n')
    (htail : '\n' ∉ tail) : (after (head ++ tail)).column = tail.length + 1 := by
  have hall : ∀ c ∈ tail.reverse, (c != '\n') = true := fun c hc =>
    bne_iff_ne.2 fun heq => htail (heq ▸ List.mem_reverse.1 hc)
  have hstop : head.reverse.takeWhile (· != '\n') = [] := by
    cases hlast : head.reverse with
    | nil => rfl
    | cons c rest =>
      obtain rfl := hhead c (by rw [List.getLast?_eq_head?_reverse, hlast]; rfl)
      rfl
  rw [after, List.reverse_append, List.takeWhile_append_of_pos hall, hstop, List.append_nil,
    List.length_reverse]

end FormulaPlot.Text
