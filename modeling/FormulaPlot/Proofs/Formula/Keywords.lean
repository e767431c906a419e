import Mathlib
import FormulaPlot.Proofs.Formula.Grammar
import FormulaPlot.Proofs.Number.Numerals

/-!
# Proofs/Formula/Keywords — where marking finds a keyword, and where it does not

A keyword is letters only, so a text that ends in front of another character keeps its keywords to
itself: none of them goes on behind it (`keyword_prefix_append_iff`).  A text without keywords is
copied (`markFrom_plain`), one that spells a keyword is copied with the call mark behind it
(`markFrom_keyword`).
-/

namespace FormulaPlot

/-! ## Letters -/

theorem isLower_of_mem_keyword (f : Builtin) : ∀ c ∈ f.keyword, c.isLower = true := by
  have hall : f.keyword.all Char.isLower = true := by cases f <;> rfl
  exact List.all_eq_true.1 hall

theorem keyword_ne_nil (f : Builtin) : f.keyword ≠ [] := by
  cases f <;> decide

/-- What becomes a lower-case letter was a letter. -/
theorem isAlpha_of_isLower_toLower {c : Char} (h : c.toLower.isLower = true) :
    c.isAlpha = true := by rwa [Char.isLower_toLower_eq_isAlpha] at h

/-- Letters and digits are no blanks. -/
theorem isBlank_eq_false_of_isAlphanum {c : Char} (h : c.isAlphanum = true) :
    Text.isBlank c = false := by
  rw [Char.isAlphanum, Bool.or_eq_true, isAlpha_iff, isDigit_iff] at h
  refine List.any_eq_false.2 ?_
  simp only [Text.blankRanges, List.forall_mem_cons, List.not_mem_nil, false_implies, implies_true,
    and_true, Bool.and_eq_true, decide_eq_true_eq]
  omega

theorem isOrdinary_of_isAlphanum {c : Char} (h : c.isAlphanum = true) : isOrdinary c = true := by
  have hspecial : ¬ specialChars.contains c = true := by
    intro hc
    have hnone : specialChars.all (!·.isAlphanum) = true := rfl
    have hnot := List.all_eq_true.1 hnone c (List.elem_iff.1 hc)
    rw [h] at hnot
    cases hnot
  rw [isOrdinary, isBlank_eq_false_of_isAlphanum h, Bool.eq_false_iff.2 hspecial]
  rfl

theorem isOrdinary_of_isAlpha {c : Char} (h : c.isAlpha = true) : isOrdinary c = true :=
  isOrdinary_of_isAlphanum (by rw [Char.isAlphanum, h, Bool.true_or])

theorem isNumeral_eq_false_of_isAlpha {c : Char} (h : c.isAlpha = true) : isNumeral c = false := by
  rw [isNumeral, Bool.or_eq_false_iff]
  constructor
  · refine Bool.eq_false_iff.2 fun hdigit => ?_
    rw [isAlpha_eq_false_of_isDigit hdigit] at h
    cases h
  · refine beq_eq_false_iff_ne.2 ?_
    rintro rfl
    cases h

theorem head_not_isAlpha {c : Char} (hc : c.isAlpha = false) (s : List Char) :
    ∀ d ∈ (c :: s).head?, d.isAlpha = false := fun _ hd => Option.some.inj hd ▸ hc

/-! ## Spellings -/

section Spelling

variable {k : List Char} {f : Builtin} (h : k.map Char.toLower = f.keyword)
include h

/-- A keyword is spelled with letters only. -/
theorem isAlpha_of_spells : ∀ c ∈ k, c.isAlpha = true := by
  intro c hc
  refine isAlpha_of_isLower_toLower (isLower_of_mem_keyword f _ ?_)
  rw [← h]
  exact List.mem_map_of_mem hc

theorem ne_nil_of_spells : k ≠ [] := by
  rintro rfl
  exact keyword_ne_nil f h.symm

theorem isOrdinary_of_spells : ∀ c ∈ k, isOrdinary c = true :=
  fun c hc => isOrdinary_of_isAlpha (isAlpha_of_spells h c hc)

theorem isName_of_spells : IsName k := by
  refine ⟨ne_nil_of_spells h, fun c hc => ⟨isOrdinary_of_spells h c hc, ?_⟩⟩
  rw [isNumeral_eq_false_of_isAlpha (isAlpha_of_spells h c hc)]
  exact Bool.false_ne_true

theorem callMark_not_mem_of_spells : callMark ∉ k := by
  intro hmem
  have halpha := isAlpha_of_spells h _ hmem
  rw [show callMark.isAlpha = false from rfl] at halpha
  cases halpha

end Spelling

/-- The name of a function spells its keyword. -/
theorem ofName?_eq_some_iff {name : String} {f : Builtin} :
    Builtin.ofName? name = some f ↔ name.toList.map Char.toLower = f.keyword := by
  constructor
  · intro h
    have hfound := List.find?_some h
    exact (eq_of_beq hfound).symm
  · intro h
    cases hfind : Builtin.ofName? name with
    | none => exact absurd (beq_iff_eq.2 h.symm) (List.find?_eq_none.1 hfind f f.mem_all)
    | some g =>
      have hfound := List.find?_some hfind
      exact congrArg some (Builtin.eq_of_keyword_eq ((eq_of_beq hfound).trans h))

/-- The name of a function is a name. -/
theorem isName_of_ofName? {name : String} {f : Builtin} (h : Builtin.ofName? name = some f) :
    name.toList.map Char.toLower = f.keyword ∧ IsName name.toList :=
  have hspells := ofName?_eq_some_iff.1 h
  ⟨hspells, isName_of_spells hspells⟩

/-! ## Prefixes -/

theorem startsWithKeyword_iff {k s : List Char} :
    startsWithKeyword k s = true ↔ k <+: s.map Char.toLower := by
  rw [startsWithKeyword, beq_iff_eq, List.prefix_iff_eq_take, List.map_take, eq_comm]

/-- **A keyword stops in front of a character that is no letter.** -/
theorem keyword_prefix_append_iff {k u s : List Char} (hk : ∀ c ∈ k, c.isLower = true)
    (hs : ∀ c ∈ s.head?, c.isAlpha = false) :
    k <+: (u ++ s).map Char.toLower ↔ k <+: u.map Char.toLower := by
  refine ⟨fun h => ?_, fun h => ?_⟩
  · induction u generalizing k with
    | nil =>
      cases k with
      | nil => exact List.nil_prefix
      | cons c k =>
        cases s with
        | nil => exact h
        | cons d s =>
          obtain rfl := (List.cons_prefix_cons.1 h).1
          have hd : d.isAlpha = true := isAlpha_of_isLower_toLower (hk _ List.mem_cons_self)
          rw [hs d rfl] at hd
          cases hd
    | cons a u ih =>
      cases k with
      | nil => exact List.nil_prefix
      | cons c k =>
        obtain ⟨hc, hrest⟩ := List.cons_prefix_cons.1 h
        exact List.cons_prefix_cons.2 ⟨hc, ih (fun d hd => hk d (List.mem_cons_of_mem _ hd)) hrest⟩
  · rw [List.map_append]
    exact h.trans (List.prefix_append _ _)

/-- The text has no keyword in it, in any ASCII case. -/
def HasNoKeyword (s : List Char) : Prop :=
  ∀ f : Builtin, ¬ f.keyword <:+: s.map Char.toLower

theorem HasNoKeyword.tail {c : Char} {s : List Char} (h : HasNoKeyword (c :: s)) :
    HasNoKeyword s :=
  fun f hf => h f (hf.trans (List.suffix_cons _ _).isInfix)

/-- A text without letters has no keyword in it. -/
theorem hasNoKeyword_of_forall {s : List Char} (h : ∀ c ∈ s, c.isAlpha = false) :
    HasNoKeyword s := by
  intro f hf
  obtain ⟨c, k, hcons⟩ := List.exists_cons_of_ne_nil (keyword_ne_nil f)
  have hc : c ∈ f.keyword := by
    rw [hcons]
    exact List.mem_cons_self
  obtain ⟨d, hd, hlower⟩ := List.mem_map.1 (hf.subset hc)
  have hletter : d.isAlpha = true := by
    refine isAlpha_of_isLower_toLower ?_
    rw [hlower]
    exact isLower_of_mem_keyword f c hc
  rw [h d hd] at hletter
  cases hletter

/-! ## Marking -/

/-- At no place of a text without keywords does a keyword start. -/
theorem keywordLength_eq_zero {u s : List Char} (hu : HasNoKeyword u)
    (hs : ∀ c ∈ s.head?, c.isAlpha = false) : keywordLength (u ++ s) = 0 := by
  have hnone : keywordAt? (u ++ s) = none := by
    refine List.find?_eq_none.2 fun f _ hf => ?_
    have hprefix := (keyword_prefix_append_iff (isLower_of_mem_keyword f) hs).1
      (startsWithKeyword_iff.1 hf)
    exact hu f hprefix.isInfix
  rw [keywordLength, hnone]
  rfl

/-- Marking leaves the first character where it is. -/
theorem head?_markFrom (n : Nat) (s : List Char) : (markFrom n s).head? = s.head? := by
  cases s with
  | nil => rw [markFrom]
  | cons c s =>
    rw [markFrom]
    split
    · rfl
    · split <;> rfl
    · rfl

/-- A character that is no letter is copied. -/
theorem markFrom_cons {c : Char} (hc : c.isAlpha = false) (s : List Char) :
    markFrom 0 (c :: s) = c :: markFrom 0 s := by
  have hnone : HasNoKeyword [] := hasNoKeyword_of_forall (List.forall_mem_nil _)
  have hzero : keywordLength ([] ++ c :: s) = 0 :=
    keywordLength_eq_zero hnone (head_not_isAlpha hc s)
  rw [List.nil_append] at hzero
  rw [markFrom, if_pos rfl, hzero]

/-- **A text without keywords is copied.** -/
theorem markFrom_plain {u s : List Char} (hu : HasNoKeyword u)
    (hs : ∀ c ∈ s.head?, c.isAlpha = false) : markFrom 0 (u ++ s) = u ++ markFrom 0 s := by
  induction u with
  | nil => rfl
  | cons c u ih =>
    have hzero := keywordLength_eq_zero hu hs
    rw [List.cons_append] at hzero ⊢
    rw [markFrom, if_pos rfl, hzero]
    exact congrArg (c :: ·) (ih hu.tail)

/-- The rest of a keyword is copied, and the mark goes behind it. -/
theorem markFrom_rest {u s : List Char} (hu : u ≠ []) (hs : s.head? ≠ some callMark) :
    markFrom u.length (u ++ s) = u ++ callMark :: markFrom 0 s := by
  induction u with
  | nil => exact absurd rfl hu
  | cons c u ih =>
    cases u with
    | nil =>
      rw [List.cons_append, List.nil_append, markFrom]
      exact if_neg hs
    | cons d u =>
      have hrest := ih (List.cons_ne_nil d u)
      rw [List.cons_append, markFrom]
      exact congrArg (c :: ·) hrest

/-- Of the keywords that a keyword begins with, the first one listed is itself. -/
theorem find?_prefix_keyword (f : Builtin) :
    Builtin.all.find? (fun g => g.keyword.isPrefixOf f.keyword) = some f := by
  cases f <;> decide

/-- **The keyword that a text starts with is the one it spells** up to a character that is no
letter. -/
theorem keywordLength_eq_length {u s : List Char} {f : Builtin}
    (hu : u.map Char.toLower = f.keyword) (hs : ∀ c ∈ s.head?, c.isAlpha = false) :
    keywordLength (u ++ s) = u.length := by
  -- No keyword reaches past the letters, so all of them are sought in the keyword alone.
  have htest (g : Builtin) :
      startsWithKeyword g.keyword (u ++ s) = g.keyword.isPrefixOf f.keyword := by
    rw [Bool.eq_iff_iff, startsWithKeyword_iff,
      keyword_prefix_append_iff (isLower_of_mem_keyword g) hs, hu, List.isPrefixOf_iff_prefix]
  have hfind : keywordAt? (u ++ s) = some f := by
    simp only [keywordAt?, htest]
    exact find?_prefix_keyword f
  rw [keywordLength, hfind, Option.elim_some, ← hu, List.length_map]

/-- Where a keyword starts, its rest is to be copied. -/
theorem markFrom_zero {u s : List Char} (hu : u ≠ [])
    (hlength : keywordLength (u ++ s) = u.length) :
    markFrom 0 (u ++ s) = markFrom u.length (u ++ s) := by
  cases u with
  | nil => exact absurd rfl hu
  | cons c u =>
    rw [List.cons_append] at hlength ⊢
    rw [markFrom, if_pos rfl, hlength, markFrom]
    rfl

/-- **A keyword is copied with the call mark behind it.** -/
theorem markFrom_keyword {u s : List Char} {f : Builtin} (hu : u.map Char.toLower = f.keyword)
    (hs : ∀ c ∈ s.head?, c.isAlpha = false) (hmark : s.head? ≠ some callMark) :
    markFrom 0 (u ++ s) = u ++ callMark :: markFrom 0 s := by
  rw [markFrom_zero (ne_nil_of_spells hu) (keywordLength_eq_length hu hs),
    markFrom_rest (ne_nil_of_spells hu) hmark]

end FormulaPlot
