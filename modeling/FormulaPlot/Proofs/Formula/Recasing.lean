import FormulaPlot.Proofs.Formula.Composition

/-!
# Proofs/Formula/Recasing — the case of keywords in a text

Two formulas may differ in the case of the keywords that marking meets (`Recased`).  Case has no
part in what is a keyword, a blank or a letter, so the same stretches are trimmed and marked in
both, and the prepared texts differ only in front of call marks (`RecasedCalls`):

* `Recased.trim`, `Recased.markKeywords` — the steps of preparing;
* `recasedCalls_prepareChars` — the prepared texts.
-/

namespace FormulaPlot

/-! ## Case -/

/-- Characters that differ in case only are both letters, or both none. -/
theorem isAlpha_congr {c d : Char} (h : c.toLower = d.toLower) : c.isAlpha = d.isAlpha := by
  rw [← Char.isLower_toLower_eq_isAlpha, h, Char.isLower_toLower_eq_isAlpha]

theorem eq_of_toLower_eq {c d : Char} (h : c.toLower = d.toLower) (hc : c.isAlpha = false) :
    c = d := by
  have hsame {a : Char} (ha : a.isAlpha = false) : a.toLower = a := by
    refine Char.toLower_eq_of_not_isUpper fun hupper => ?_
    rw [Char.isAlpha, hupper] at ha
    cases ha
  rw [← hsame hc, h, hsame (isAlpha_congr h ▸ hc)]

theorem utf8Size_of_isAlpha {c : Char} (h : c.isAlpha = true) : c.utf8Size = 1 := by
  rw [isAlpha_iff] at h
  refine if_pos ?_
  rw [UInt32.le_iff_toNat_le]
  change c.toNat ≤ 127
  omega

section Words

variable {k k' : List Char} (h : k.map Char.toLower = k'.map Char.toLower)
include h

theorem forall_isAlpha_congr (hk : ∀ c ∈ k, c.isAlpha = true) : ∀ c ∈ k', c.isAlpha = true := by
  intro c hc
  obtain ⟨d, hd, heq⟩ := List.mem_map.1 (h ▸ List.mem_map_of_mem hc)
  rw [← isAlpha_congr heq]
  exact hk d hd

theorem ne_nil_congr (hk : k ≠ []) : k' ≠ [] := by
  rintro rfl
  exact hk (List.map_eq_nil_iff.1 h)

end Words

theorem byteSize_of_isAlpha {k : List Char} (h : ∀ c ∈ k, c.isAlpha = true) :
    Text.byteSize k = k.length := by
  induction k with
  | nil => rfl
  | cons c k ih =>
    obtain ⟨hc, hk⟩ := List.forall_mem_cons.1 h
    rw [Text.byteSize_cons, utf8Size_of_isAlpha hc, ih hk, List.length_cons, Nat.add_comm]

/-- Case has no part in where keywords are. -/
theorem keywordAt?_congr {s s' : List Char} (h : s.map Char.toLower = s'.map Char.toLower) :
    keywordAt? s = keywordAt? s' := by
  unfold keywordAt? startsWithKeyword
  simp only [List.map_take, h]

/-- The text between blanks is what trimming leaves. -/
theorem Text.trim_between {before t after : List Char} (hbefore : ∀ c ∈ before, isBlank c = true)
    (hafter : ∀ c ∈ after, isBlank c = true) (hfirst : ∀ c ∈ t.head?, isBlank c = false)
    (hlast : ∀ c ∈ t.getLast?, isBlank c = false) : trim (before ++ (t ++ after)) = t := by
  have hend (u : List Char) : trimEnd (u ++ after) = trimEnd u := by
    rw [trimEnd, List.reverse_append,
      List.dropWhile_append_of_pos fun c hc => hafter c (List.mem_reverse.1 hc), trimEnd]
  rw [trim, trimStart, List.dropWhile_append_of_pos hbefore]
  cases t with
  | nil =>
    rw [List.nil_append, List.dropWhile_eq_nil_iff.2 hafter]
    rfl
  | cons c t =>
    have hkeep (u : List Char) : (c :: u).dropWhile isBlank = c :: u :=
      List.dropWhile_cons_of_neg (Bool.eq_false_iff.1 (hfirst c rfl))
    have htrim := trim_of_ends hfirst hlast
    rw [trim, trimStart, hkeep] at htrim
    rw [List.cons_append, hkeep, ← List.cons_append, hend, htrim]

/-! ## Texts that differ in the case of keywords -/

/-- The text `s'` is the text `s` with another case of letters in the keywords that marking meets in
`s`, from left to right; all else is the same. -/
inductive Recased : List Char → List Char → Prop
  | nil : Recased [] []
  | plain {c : Char} {s s' : List Char} (none : keywordAt? (c :: s) = none)
      (tail : Recased s s') : Recased (c :: s) (c :: s')
  | keyword {k k' s s' : List Char} {f : Builtin} (found : keywordAt? (k ++ s) = some f)
      (spells : k.map Char.toLower = f.keyword) (spells' : k'.map Char.toLower = f.keyword)
      (tail : Recased s s') : Recased (k ++ s) (k' ++ s')

namespace Recased

variable {s s' : List Char}

theorem map_toLower (h : Recased s s') : s.map Char.toLower = s'.map Char.toLower := by
  induction h with
  | nil => rfl
  | plain none tail ih => rw [List.map_cons, List.map_cons, ih]
  | keyword found spells spells' tail ih =>
    rw [List.map_append, List.map_append, ih, spells, spells']

/-- One starts with a character that is no letter exactly if the other does. -/
theorem head?_eq_some_iff (h : Recased s s') {c : Char} (hc : c.isAlpha = false) :
    s.head? = some c ↔ s'.head? = some c := by
  have hsame {o o' : Option Char} (heq : o.map Char.toLower = o'.map Char.toLower)
      (ho : o = some c) : o' = some c := by
    rw [ho] at heq
    obtain ⟨d, hd, hdc⟩ := Option.map_eq_some_iff.1 heq.symm
    rw [hd, eq_of_toLower_eq hdc.symm hc]
  have hhead : s.head?.map Char.toLower = s'.head?.map Char.toLower := by
    rw [← List.head?_map, ← List.head?_map, h.map_toLower]
  exact ⟨hsame hhead, hsame hhead.symm⟩

/-- What is no letter is the same in both. -/
theorem exists_cons {c : Char} (hc : c.isAlpha = false) (h : Recased (c :: s) s') :
    ∃ t, s' = c :: t ∧ Recased s t := by
  generalize hs : c :: s = u at h
  cases h with
  | nil => cases hs
  | plain none tail =>
    obtain ⟨rfl, rfl⟩ := List.cons.inj hs
    exact ⟨_, rfl, tail⟩
  | @keyword k k' s s' f found spells spells' tail =>
    cases k with
    | nil => exact absurd rfl (ne_nil_of_spells spells)
    | cons d k =>
      obtain ⟨rfl, -⟩ := List.cons.inj hs
      rw [isAlpha_of_spells spells c List.mem_cons_self] at hc
      cases hc

theorem exists_append_of_forall {a : List Char} (ha : ∀ c ∈ a, c.isAlpha = false)
    (h : Recased (a ++ s) s') : ∃ t, s' = a ++ t ∧ Recased s t := by
  induction a generalizing s' with
  | nil => exact ⟨s', rfl, h⟩
  | cons c a ih =>
    obtain ⟨hc, ha⟩ := List.forall_mem_cons.1 ha
    obtain ⟨t, rfl, ht⟩ := h.exists_cons hc
    obtain ⟨u, rfl, hu⟩ := ih ha ht
    exact ⟨u, rfl, hu⟩

/-- A text without letters has no other case. -/
theorem eq_of_forall (h : Recased s s') (hs : ∀ c ∈ s, c.isAlpha = false) : s = s' := by
  rw [← List.append_nil s] at h
  obtain ⟨t, rfl, ht⟩ := h.exists_append_of_forall hs
  have hmap := ht.map_toLower
  rw [List.map_nil] at hmap
  rw [List.map_eq_nil_iff.1 hmap.symm, List.append_nil]

/-- **Up to what is no letter** the texts are recased by themselves. -/
theorem exists_append {a b : List Char} (hb : ∀ c ∈ b.head?, c.isAlpha = false)
    (h : Recased (a ++ b) s') : ∃ a' b', s' = a' ++ b' ∧ Recased a a' ∧ Recased b b' := by
  generalize hs : a ++ b = s at h
  induction h generalizing a with
  | nil =>
    obtain ⟨rfl, rfl⟩ := List.append_eq_nil_iff.1 hs
    exact ⟨[], [], rfl, .nil, .nil⟩
  | @plain c s s' none tail ih =>
    cases a with
    | nil =>
      obtain rfl : b = c :: s := hs
      exact ⟨[], c :: s', rfl, .nil, .plain none tail⟩
    | cons d a =>
      obtain ⟨rfl, rfl⟩ := List.cons.inj hs
      obtain ⟨a', b', rfl, ha, hb'⟩ := ih rfl
      refine ⟨d :: a', b', rfl, .plain ?_ ha, hb'⟩
      rw [← keywordAt?_append hb]
      exact none
  | @keyword k k' s s' f found spells spells' tail ih =>
    obtain ⟨z, rfl, rfl⟩ := exists_between_of_head hs fun c hc hmem =>
      Bool.false_ne_true ((hb c hc).symm.trans (isAlpha_of_spells spells c hmem))
    obtain ⟨a', b', rfl, ha, hb'⟩ := ih rfl
    refine ⟨k' ++ a', b', (List.append_assoc ..).symm, .keyword ?_ spells spells' ha, hb'⟩
    rw [← keywordAt?_append hb, List.append_assoc]
    exact found

/-- Recased texts have their blanks at the same places. -/
theorem map_isBlank (h : Recased s s') : s.map Text.isBlank = s'.map Text.isBlank := by
  have hlower (c : Char) : Text.isBlank c = Text.isBlank c.toLower := by
    cases hc : c.isAlpha with
    | false => rw [← eq_of_toLower_eq (Char.toLower_toLower_eq_toLower c).symm hc]
    | true =>
      have hc' : c.toLower.isAlpha = true := by rw [Char.isAlpha_toLower_eq_isAlpha, hc]
      rw [isBlank_eq_false_of_isAlphanum (by rw [Char.isAlphanum, hc, Bool.true_or]),
        isBlank_eq_false_of_isAlphanum (by rw [Char.isAlphanum, hc', Bool.true_or])]
  have hmap (t : List Char) :
      t.map Text.isBlank = (t.map Char.toLower).map Text.isBlank := by
    rw [List.map_map]
    exact List.map_congr_left fun c _ => hlower c
  rw [hmap s, h.map_toLower, ← hmap]

/-- **Trimming** takes the same blanks off both. -/
theorem trim (h : Recased s s') : Recased (Text.trim s) (Text.trim s') := by
  obtain ⟨before, after, hsplit, hbefore, hafter, -⟩ := Text.exists_trim s
  have hletters {b : List Char} (hb : ∀ c ∈ b, Text.isBlank c = true) :
      ∀ c ∈ b, c.isAlpha = false := fun c hc => isAlpha_eq_false_of_isBlank (hb c hc)
  rw [hsplit] at h
  obtain ⟨v, rfl, hv⟩ := h.exists_append_of_forall (hletters hbefore)
  obtain ⟨t, b, rfl, ht, hb⟩ := hv.exists_append fun c hc =>
    hletters hafter c (List.mem_of_head? hc)
  obtain rfl : after = b := hb.eq_of_forall (hletters hafter)
  have hblank := ht.map_isBlank
  have hsame {o o' : Option Char} (ho : ∀ c ∈ o, Text.isBlank c = false)
      (heq : o.map Text.isBlank = o'.map Text.isBlank) : ∀ c ∈ o', Text.isBlank c = false := by
    intro c hc
    rw [Option.mem_def.1 hc] at heq
    obtain ⟨d, hd, hdc⟩ := Option.map_eq_some_iff.1 heq
    exact hdc ▸ ho d hd
  rw [Text.trim_between hbefore hafter]
  · exact ht
  · refine hsame (Text.head?_trim s) ?_
    rw [← List.head?_map, ← List.head?_map, hblank]
  · refine hsame (Text.getLast?_trim s) ?_
    rw [← List.getLast?_map, ← List.getLast?_map, hblank]

end Recased

/-! ## Texts that differ in the case of what is called -/

/-- The texts are the same but for the case of letters right in front of call marks. -/
inductive RecasedCalls : List Char → List Char → Prop
  | nil : RecasedCalls [] []
  | cons (c : Char) {s s' : List Char} (tail : RecasedCalls s s') : RecasedCalls (c :: s) (c :: s')
  | call {k k' s s' : List Char} (nonempty : k ≠ []) (letters : ∀ c ∈ k, c.isAlpha = true)
      (case : k.map Char.toLower = k'.map Char.toLower) (tail : RecasedCalls s s') :
      RecasedCalls (k ++ callMark :: s) (k' ++ callMark :: s')

namespace RecasedCalls

variable {s s' t t' : List Char}

theorem refl (s : List Char) : RecasedCalls s s := by
  induction s with
  | nil => exact .nil
  | cons c s ih => exact .cons c ih

theorem eq_nil_iff (h : RecasedCalls s s') : s = [] ↔ s' = [] := by
  cases h with
  | nil => exact Iff.rfl
  | cons c tail => exact iff_of_false nofun nofun
  | call => exact iff_of_false (by simp) (by simp)

theorem append (hs : RecasedCalls s s') (ht : RecasedCalls t t') :
    RecasedCalls (s ++ t) (s' ++ t') := by
  induction hs with
  | nil => exact ht
  | cons c tail ih => exact .cons c ih
  | call nonempty letters case tail ih =>
    rw [List.append_assoc, List.append_assoc]
    exact .call nonempty letters case ih

/-- What is no letter is the same in both. -/
theorem exists_cons {c : Char} (hc : c.isAlpha = false) (h : RecasedCalls (c :: s) s') :
    ∃ t, s' = c :: t ∧ RecasedCalls s t := by
  generalize hs : c :: s = u at h
  cases h with
  | nil => cases hs
  | cons d tail =>
    obtain ⟨rfl, rfl⟩ := List.cons.inj hs
    exact ⟨_, rfl, tail⟩
  | @call k k' s s' nonempty letters case tail =>
    cases k with
    | nil => exact absurd rfl nonempty
    | cons d k =>
      obtain ⟨rfl, -⟩ := List.cons.inj hs
      rw [letters c List.mem_cons_self] at hc
      cases hc

theorem withLeadingZero (h : RecasedCalls s s') :
    RecasedCalls (withLeadingZero s) (FormulaPlot.withLeadingZero s') := by
  have hletter {k : List Char} (hk : k ≠ []) (hall : ∀ c ∈ k, c.isAlpha = true) (u : List Char) :
      FormulaPlot.withLeadingZero (k ++ u) = k ++ u := by
    refine withLeadingZero_of_not_sign fun c hc => ?_
    have hc := hall c (mem_of_head?_append hk hc)
    constructor <;> rintro rfl <;> cases hc
  cases h with
  | nil => exact .nil
  | @cons c s s' tail =>
    by_cases hsign : c = '+' ∨ c = '-'
    · rw [withLeadingZero_sign hsign, withLeadingZero_sign hsign]
      exact .cons '0' (.cons c tail)
    · have hplain (u : List Char) : FormulaPlot.withLeadingZero (c :: u) = c :: u :=
        withLeadingZero_of_not_sign fun d hd => Option.some.inj hd ▸ not_or.1 hsign
      rw [hplain, hplain]
      exact .cons c tail
  | call nonempty letters case tail =>
    rw [hletter nonempty letters,
      hletter (ne_nil_congr case nonempty) (forall_isAlpha_congr case letters)]
    exact .call nonempty letters case tail

end RecasedCalls

/-! ## Preparing -/

/-- Marking puts the mark behind a keyword that it meets, unless the mark is there. -/
theorem markKeywords_keyword {k s : List Char} {f : Builtin} (found : keywordAt? (k ++ s) = some f)
    (spells : k.map Char.toLower = f.keyword) :
    (s.head? ≠ some callMark ∧ markKeywords (k ++ s) = k ++ callMark :: markKeywords s)
      ∨ s.head? = some callMark ∧ markKeywords (k ++ s) = k ++ markKeywords s
        ∧ ∃ m, markKeywords s = callMark :: m := by
  have hk := ne_nil_of_spells spells
  have hlength : keywordLength (k ++ s) = k.length := by
    rw [keywordLength, found, Option.elim_some, ← spells, List.length_map]
  rw [markKeywords, markFrom_zero hk hlength]
  by_cases hmark : s.head? = some callMark
  · obtain ⟨s, rfl⟩ := List.head?_eq_some_iff.1 hmark
    have hcopy : markKeywords (callMark :: s) = callMark :: markFrom 0 s := markFrom_cons rfl s
    exact .inr ⟨rfl, (markFrom_marked hk s).trans (by rw [hcopy]), _, hcopy⟩
  · exact .inl ⟨hmark, markFrom_rest hk hmark⟩

/-- **Marking** marks the same stretches of both. -/
theorem Recased.markKeywords {s s' : List Char} (h : Recased s s') :
    RecasedCalls (markKeywords s) (FormulaPlot.markKeywords s') := by
  induction h with
  | nil => exact .nil
  | @plain c s s' none tail ih =>
    have none' : keywordAt? (c :: s') = Option.none := by
      rw [← none]
      exact keywordAt?_congr (congrArg (c.toLower :: ·) tail.map_toLower.symm)
    have hcopy {u : List Char} (hu : keywordAt? (c :: u) = Option.none) :
        FormulaPlot.markKeywords (c :: u) = c :: FormulaPlot.markKeywords u := by
      rw [FormulaPlot.markKeywords, markFrom, if_pos rfl, keywordLength, hu]
      rfl
    rw [hcopy none, hcopy none']
    exact .cons c ih
  | @keyword k k' s s' f found spells spells' tail ih =>
    have found' : keywordAt? (k' ++ s') = some f := by
      rw [← found]
      refine keywordAt?_congr ?_
      rw [List.map_append, List.map_append, spells, spells', tail.map_toLower]
    have hcall {m m' : List Char} (hm : RecasedCalls m m') :
        RecasedCalls (k ++ callMark :: m) (k' ++ callMark :: m') :=
      .call (ne_nil_of_spells spells) (isAlpha_of_spells spells) (spells.trans spells'.symm) hm
    have hmark := tail.head?_eq_some_iff (c := callMark) rfl
    rcases markKeywords_keyword found spells with ⟨hnone, heq⟩ | ⟨hsome, heq, m, hm⟩ <;>
      rcases markKeywords_keyword found' spells' with ⟨hnone', heq'⟩ | ⟨hsome', heq', -⟩
    · rw [heq, heq']
      exact hcall ih
    · exact absurd (hmark.2 hsome') hnone
    · exact absurd (hmark.1 hsome) hnone'
    · rw [hm] at heq ih
      obtain ⟨m', hm', htail⟩ := ih.exists_cons rfl
      rw [heq, heq', hm']
      exact hcall htail

/-- **Preparing** leaves no other difference than the case of letters in front of call marks. -/
theorem recasedCalls_prepareChars {s s' : List Char} (h : Recased s s') :
    RecasedCalls (prepareChars s) (prepareChars s') := by
  rw [prepareChars, prepareChars, markKeywords_withLeadingZero, markKeywords_withLeadingZero]
  exact h.trim.markKeywords.withLeadingZero

end FormulaPlot
