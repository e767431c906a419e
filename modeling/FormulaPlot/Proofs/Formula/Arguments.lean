import FormulaPlot.Proofs.Formula.Marks
import FormulaPlot.Proofs.Formula.Names

/-!
# Proofs/Formula/Arguments — every keyword has its argument

Marking puts the call mark behind every keyword that a formula has, and reading asks for a bracket
behind every mark; so behind every keyword of a formula that is read, or behind a longer one that it
is part of, a bracket opens (`isBracketed_of_parse`).  But reading leaves out the blanks, and a
keyword with white space inside it is put together only then, without a mark
(`spreadsKeyword_of_mem_unmarkedNames`): `si n` is the name of a function that is not called.
-/

namespace FormulaPlot

/-! ## Keywords with white space inside -/

/-- Some stretch of the text with white space inside it, and none at its ends, spells a keyword
without it. -/
def SpreadsKeyword (s : List Char) : Prop :=
  ∃ (w : List Char) (f : Builtin), w <:+: s ∧ Text.trim w = w ∧ (∃ c ∈ w, Text.isBlank c = true)
    ∧ (Text.withoutBlanks w).map Char.toLower = f.keyword

/-- A text without white space has none inside a keyword. -/
theorem not_spreadsKeyword {s : List Char} (h : Text.withoutBlanks s = s) :
    ¬ SpreadsKeyword s := by
  rintro ⟨w, f, hw, -, ⟨c, hc, hblank⟩, -⟩
  have hsolid := List.filter_eq_self.1 h c (hw.subset hc)
  rw [hblank] at hsolid
  cases hsolid

/-- What is spelled in the text that is read is spelled in the formula as well. -/
theorem infix_of_prepareChars {s w : List Char} (h : w <:+: prepareChars s)
    (hmark : callMark ∉ w) (hzero : '0' ∉ w) (hw : w ≠ []) : w <:+: s := by
  have hsigned := (marked_markKeywords _).addsMarks.infix_of_longer h hmark
  have htrim : w <:+: Text.trim s := by
    rcases withLeadingZero_cases (Text.trim s) with heq | ⟨sign, t, -, hs, heq⟩
    · rwa [heq] at hsigned
    · rw [heq, ← hs] at hsigned
      rcases List.infix_cons_iff.1 hsigned with hprefix | hstretch
      · rcases List.prefix_cons_iff.1 hprefix with rfl | ⟨t', rfl, -⟩
        · exact absurd rfl hw
        · exact absurd List.mem_cons_self hzero
      · exact hstretch
  obtain ⟨before, after, hsplit, -⟩ := Text.exists_trim s
  exact htrim.trans ⟨before, after, by rw [List.append_assoc, ← hsplit]⟩

/-- A stretch of a text without its blanks is a stretch of the text itself, with no blank at its
ends. -/
theorem exists_stretch {p before name after : List Char}
    (h : Text.withoutBlanks p = before ++ (name ++ after)) :
    ∃ a w b, p = a ++ (w ++ b) ∧ Text.withoutBlanks w = name ∧ Text.withoutBlanks b = after
      ∧ Text.trim w = w := by
  obtain ⟨a, r, rfl, -, hr⟩ := Text.exists_of_withoutBlanks_eq_append h
  obtain ⟨w, b, rfl, hw, hb⟩ := Text.exists_of_withoutBlanks_eq_append hr
  obtain ⟨l, r, hsplit, hl, hr, htrim⟩ := Text.exists_trim w
  have hname : Text.withoutBlanks w = Text.withoutBlanks (Text.trim w) := by
    conv => lhs; rw [hsplit]
    rw [Text.withoutBlanks_append, Text.withoutBlanks_append, Text.withoutBlanks_eq_nil_iff.2 hl,
      Text.withoutBlanks_eq_nil_iff.2 hr, List.nil_append, List.append_nil]
  refine ⟨a ++ l, Text.trim w, r ++ b, ?_, hname.symm.trans hw, ?_, htrim⟩
  · conv => lhs; rw [hsplit]
    simp only [List.append_assoc]
  · rw [Text.withoutBlanks_append, Text.withoutBlanks_eq_nil_iff.2 hr]
    exact hb

/-- **A function's name without the mark** is written with white space inside it. -/
theorem spreadsKeyword_of_mem_unmarkedNames {s name : String} {f : Builtin}
    (h : name ∈ unmarkedNames (readText s)) (hf : Builtin.ofName? name = some f) :
    SpreadsKeyword s.toList := by
  have hspells := ofName?_eq_some_iff.1 hf
  obtain ⟨before, after, hstands, hafter⟩ := exists_of_mem_mentionsFrom (mem_unmarkedNames.1 h)
  obtain ⟨a, w, b, hp, hw, hb, htrim⟩ := exists_stretch hstands.split
  dsimp only at hw
  by_cases hblank : ∃ c ∈ w, Text.isBlank c = true
  · have hletter (c : Char) (hc : c ∈ w) (hsolid : Text.isBlank c = false) : c.isAlpha = true :=
      isAlpha_of_spells hspells c (hw ▸ List.mem_filter.2 ⟨hc, by rw [hsolid]; rfl⟩)
    have hstretch : w <:+: prepareChars s.toList := ⟨a, b, by rw [List.append_assoc, ← hp]⟩
    refine ⟨w, f, infix_of_prepareChars hstretch ?_ ?_ ?_, htrim, hblank, hw ▸ hspells⟩
    · exact fun hc => nomatch hletter _ hc (by decide)
    · exact fun hc => nomatch hletter _ hc (by decide)
    · rintro rfl
      obtain ⟨c, hc, -⟩ := hblank
      cases hc
  · -- The name is written as it is, so marking has found it.
    have hsolid : Text.withoutBlanks w = w := Text.withoutBlanks_of_forall fun c hc =>
      Bool.eq_false_iff.2 fun hc' => hblank ⟨c, hc, hc'⟩
    rw [← hw, hsolid] at hspells
    obtain ⟨c, hc, hmark⟩ := (marked_markKeywords _).head_behind_keyword hspells hp
    obtain ⟨b, rfl⟩ := List.head?_eq_some_iff.1 hc
    rcases hmark with rfl | halpha
    · rw [Text.withoutBlanks_cons_of_not_blank (by decide)] at hb
      exact nomatch hafter.2 (hb ▸ rfl)
    · have hord : isOrdinary c = true := isOrdinary_of_isAlpha halpha
      rw [Text.withoutBlanks_cons_of_not_blank (isBlank_eq_false_of_isOrdinary hord)] at hb
      have hnot : isOrdinary c = false := hstands.after c (hb ▸ rfl)
      rw [hord] at hnot
      cases hnot

/-! ## Keywords and their brackets -/

/-- The stretch `k` between `a` and `b`, or a longer one around it, spells a keyword, and behind
that, perhaps with its mark and with blanks between them, a bracket opens. -/
def IsBracketed (a k b : List Char) : Prop :=
  ∃ (x y mark gap rest : List Char) (f : Builtin), x <:+ a
    ∧ b = y ++ (mark ++ (gap ++ '(' :: rest)) ∧ (x ++ (k ++ y)).map Char.toLower = f.keyword
    ∧ (mark = [] ∨ mark = [callMark]) ∧ ∀ c ∈ gap, Text.isBlank c = true

/-- More text around it changes nothing. -/
theorem IsBracketed.extend {a k b : List Char} (h : IsBracketed a k b) (l r : List Char) :
    IsBracketed (l ++ a) k (b ++ r) := by
  obtain ⟨x, y, mark, gap, rest, f, hx, rfl, hspells, hmark, hgap⟩ := h
  refine ⟨x, y, mark, gap, rest ++ r, f, hx.trans (List.suffix_append l a), ?_, hspells, hmark,
    hgap⟩
  simp only [List.append_assoc, List.cons_append]

/-- Where a bracket opens in a marked text it opens in the text itself. -/
theorem Marked.exists_open {s p : List Char} (h : Marked s p)
    (hopen : (Text.withoutBlanks p).head? = some '(') :
    ∃ gap rest, s = gap ++ '(' :: rest ∧ ∀ c ∈ gap, Text.isBlank c = true := by
  induction h with
  | nil => cases hopen
  | @plain c s p none tail ih =>
    cases hblank : Text.isBlank c with
    | true =>
      rw [Text.withoutBlanks_cons_of_blank hblank] at hopen
      obtain ⟨gap, rest, rfl, hgap⟩ := ih hopen
      exact ⟨c :: gap, rest, rfl, List.forall_mem_cons.2 ⟨hblank, hgap⟩⟩
    | false =>
      rw [Text.withoutBlanks_cons_of_not_blank hblank] at hopen
      obtain rfl := Option.some.inj hopen
      exact ⟨[], s, rfl, List.forall_mem_nil _⟩
  | @keyword k mark s p f spells optional tail ih =>
    obtain ⟨c, k, rfl⟩ := List.exists_cons_of_ne_nil (ne_nil_of_spells spells)
    have hord := isOrdinary_of_spells spells c List.mem_cons_self
    rw [List.cons_append,
      Text.withoutBlanks_cons_of_not_blank (isBlank_eq_false_of_isOrdinary hord)] at hopen
    obtain rfl := Option.some.inj hopen
    cases hord

/-- What may stand between a keyword and its bracket, and the bracket itself, start with no
letter. -/
theorem not_isAlpha_head_argument {mark gap : List Char} (hmark : mark = [] ∨ mark = [callMark])
    (hgap : ∀ c ∈ gap, Text.isBlank c = true) (rest : List Char) :
    ∀ c ∈ (mark ++ (gap ++ '(' :: rest)).head?, c.isAlpha = false := by
  rcases hmark with rfl | rfl
  · cases gap with
    | nil => exact head_not_isAlpha rfl rest
    | cons d gap =>
      refine head_not_isAlpha (Bool.eq_false_iff.2 fun hletter => ?_) _
      have hblank := hgap d List.mem_cons_self
      rw [isBlank_eq_false_of_isOrdinary (isOrdinary_of_isAlpha hletter)] at hblank
      cases hblank
  · exact head_not_isAlpha rfl _

/-- **Where brackets open behind all marks**, every keyword has its bracket. -/
theorem Marked.isBracketed {s p : List Char} (h : Marked s p)
    (hopen : MarksOpen (Text.withoutBlanks p)) {a k b : List Char} {g : Builtin}
    (hspells : k.map Char.toLower = g.keyword) (hs : s = a ++ (k ++ b)) : IsBracketed a k b := by
  obtain ⟨a', x, K, mark, b', p', q, f, rfl, hx, hK, hspells', hmark, rfl, hq⟩ :=
    h.exists_keyword hspells hs
  have hq' : (Text.withoutBlanks q).head? = some '(' := by
    rw [Text.withoutBlanks_append, Text.withoutBlanks_append,
      Text.withoutBlanks_cons_of_not_blank (by decide), ← List.append_assoc] at hopen
    exact hopen.head?_eq
  obtain ⟨gap, rest, rfl, hgap⟩ := hq.exists_open hq'
  -- The keyword that marking finds takes in all of this one: what follows it is no letter.
  obtain ⟨z, rfl, hz⟩ : ∃ z, K = x ++ z ∧ k ++ b = z ++ (mark ++ (gap ++ '(' :: rest)) := by
    rcases List.append_eq_append_iff.1 hK with ⟨z, rfl, -⟩ | h
    · rw [List.length_append] at hx
      omega
    · exact h
  obtain ⟨y, rfl, rfl⟩ : ∃ y, z = k ++ y ∧ b = y ++ (mark ++ (gap ++ '(' :: rest)) := by
    refine exists_between_of_head hz.symm fun c hc hmem => ?_
    have hletter := isAlpha_of_spells hspells c hmem
    rw [not_isAlpha_head_argument hmark hgap rest c hc] at hletter
    cases hletter
  exact ⟨x, y, mark, gap, rest, f, List.suffix_append a' x, rfl, hspells', hmark, hgap⟩

/-- Nonblank characters between blank ends are in the middle. -/
theorem exists_middle {l m r a k b : List Char} (h : l ++ (m ++ r) = a ++ (k ++ b)) (hk : k ≠ [])
    (hsolid : ∀ c ∈ k, Text.isBlank c = false) (hl : ∀ c ∈ l, Text.isBlank c = true)
    (hr : ∀ c ∈ r, Text.isBlank c = true) :
    ∃ a' b', a = l ++ a' ∧ b = b' ++ r ∧ m = a' ++ (k ++ b') := by
  have hforeign {c : Char} {t : List Char} (hc : c ∈ k) (ht : ∀ c ∈ t, Text.isBlank c = true) :
      c ∉ t := fun hmem => Bool.false_ne_true ((hsolid c hc).symm.trans (ht c hmem))
  obtain ⟨a, rfl, hm⟩ := exists_between_of_head h.symm fun c hc =>
    hforeign (mem_of_head?_append hk hc) hl
  have hlast (c : Char) (hc : c ∈ (a ++ k).getLast?) : c ∈ k := by
    rw [List.getLast?_append_of_ne_nil a hk] at hc
    exact List.mem_of_getLast? hc
  rw [← List.append_assoc] at hm
  obtain ⟨b, rfl, rfl⟩ := exists_between_of_getLast hm fun c hc => hforeign (hlast c hc) hr
  exact ⟨a, b, rfl, rfl, List.append_assoc a k b⟩

/-- **Every keyword of a formula that is read** has its bracket. -/
theorem isBracketed_of_parse {limit : Nat} {s : String} {t : Expr} (h : parse limit s = .ok t)
    {a k b : List Char} {f : Builtin} (hspells : k.map Char.toLower = f.keyword)
    (hs : s.toList = a ++ (k ++ b)) : IsBracketed a k b := by
  have hopen : MarksOpen (readText s) := (isBody_of_parse h).marksOpen
  have hsolid (c : Char) (hc : c ∈ k) : Text.isBlank c = false :=
    isBlank_eq_false_of_isOrdinary (isOrdinary_of_spells hspells c hc)
  obtain ⟨l, r, hsplit, hl, hr, -⟩ := Text.exists_trim s.toList
  obtain ⟨a, b, rfl, rfl, hm⟩ :=
    exists_middle (hsplit.symm.trans hs) (ne_nil_of_spells hspells) hsolid hl hr
  refine IsBracketed.extend ?_ l r
  have hmarked := marked_markKeywords (withLeadingZero (Text.trim s.toList))
  rcases withLeadingZero_cases (Text.trim s.toList) with heq | ⟨sign, t', -, hsign, heq⟩
  · exact hmarked.isBracketed hopen hspells (heq.trans hm)
  · have hzero : withLeadingZero (Text.trim s.toList) = '0' :: a ++ (k ++ b) := by
      rw [heq, ← hsign, hm]
      rfl
    obtain ⟨x, y, mark, gap, rest, g, hx, hb, hlonger, hmark, hgap⟩ :=
      hmarked.isBracketed hopen hspells hzero
    refine ⟨x, y, mark, gap, rest, g, ?_, hb, hlonger, hmark, hgap⟩
    rcases List.suffix_cons_iff.1 hx with rfl | hx
    · have hletter := isAlpha_of_spells hlonger '0' List.mem_cons_self
      cases hletter
    · exact hx

end FormulaPlot
