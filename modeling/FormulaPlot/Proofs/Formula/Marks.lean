import FormulaPlot.Proofs.Formula.Keywords
import FormulaPlot.Proofs.Formula.Reading

/-!
# Proofs/Formula/Marks — what marking makes of a text

Marking copies a text and puts the call mark behind every keyword that it meets, unless the mark is
there already (`Marked`).  So the marks are all that is new (`AddsMarks.filter_eq`,
`AddsMarks.infix_of_longer`), and where nothing but marking puts them each stands behind a keyword
(`Marked.exists_suffix`).  Every keyword of the marked text is within one that has its mark
(`Marked.exists_around`), so it ends in front of a mark or another letter
(`Marked.head_behind_keyword`).  No keyword of the text goes unseen: it is marked, or an earlier one
runs into it (`Marked.exists_keyword`).
-/

namespace FormulaPlot

/-! ## Two ways to cut a text -/

section Cuts

variable {a b c d : List Char}

/-- The first cut is not within `c`, which has no character like the one behind that cut. -/
theorem exists_between_of_head (h : a ++ b = c ++ d) (hb : ∀ x ∈ b.head?, x ∉ c) :
    ∃ z, a = c ++ z ∧ d = z ++ b := by
  rcases List.append_eq_append_iff.1 h with ⟨z, rfl, rfl⟩ | hbetween
  · cases z with
    | nil => exact ⟨[], by simp, rfl⟩
    | cons x z => exact absurd (List.mem_append_right a List.mem_cons_self) (hb x rfl)
  · exact hbetween

/-- The second cut is not within `b`, which has no character like the one in front of that cut. -/
theorem exists_between_of_getLast (h : a ++ b = c ++ d) (hc : ∀ x ∈ c.getLast?, x ∉ b) :
    ∃ z, a = c ++ z ∧ d = z ++ b := by
  rcases List.append_eq_append_iff.1 h with ⟨z, rfl, rfl⟩ | hbetween
  · cases hlast : z.getLast? with
    | none =>
      obtain rfl := List.getLast?_eq_none_iff.1 hlast
      exact ⟨[], by simp, rfl⟩
    | some x =>
      have hx : x ∈ (a ++ z).getLast? := by rw [List.getLast?_append, hlast]; rfl
      exact absurd (List.mem_append_left d (List.mem_of_getLast? hlast)) (hc x hx)
  · exact hbetween

theorem mem_of_head?_append (ha : a ≠ []) {x : Char} (hx : x ∈ (a ++ b).head?) : x ∈ a := by
  rw [List.head?_append_of_ne_nil a ha] at hx
  exact List.mem_of_head? hx

end Cuts

/-! ## Marked texts -/

/-- The text `p` is the text `s` with the call mark behind its keywords, sought from left to
right. -/
inductive Marked : List Char → List Char → Prop
  | nil : Marked [] []
  | plain {c : Char} {s p : List Char}
      (none : ∀ f : Builtin, ¬ f.keyword <+: (c :: s).map Char.toLower) (tail : Marked s p) :
      Marked (c :: s) (c :: p)
  | keyword {k mark s p : List Char} {f : Builtin} (spells : k.map Char.toLower = f.keyword)
      (optional : mark = [] ∨ mark = [callMark]) (tail : Marked s p) :
      Marked (k ++ (mark ++ s)) (k ++ callMark :: p)

/-! ## Marking marks -/

/-- The rest of a keyword is copied with the mark behind it, if it has one. -/
theorem markFrom_marked {k : List Char} (hk : k ≠ []) (s : List Char) :
    markFrom k.length (k ++ callMark :: s) = k ++ callMark :: markFrom 0 s := by
  induction k with
  | nil => exact absurd rfl hk
  | cons c k ih =>
    cases k with
    | nil =>
      rw [List.cons_append, List.nil_append, markFrom]
      exact congrArg (c :: ·) (markFrom_cons rfl s)
    | cons d k =>
      have hrest := ih (List.cons_ne_nil d k)
      rw [List.cons_append, markFrom]
      exact congrArg (c :: ·) hrest

/-- A text starts with no keyword, and its first character is copied; or it starts with one, and
that is marked. -/
theorem markFrom_cases (c : Char) (s : List Char) :
    ((∀ f : Builtin, ¬ f.keyword <+: (c :: s).map Char.toLower)
        ∧ markFrom 0 (c :: s) = c :: markFrom 0 s)
      ∨ ∃ (k mark rest : List Char) (f : Builtin), c :: s = k ++ (mark ++ rest)
        ∧ k.map Char.toLower = f.keyword ∧ (mark = [] ∨ mark = [callMark])
        ∧ markFrom 0 (c :: s) = k ++ callMark :: markFrom 0 rest := by
  cases hfind : keywordAt? (c :: s) with
  | none =>
    refine .inl ⟨fun f hf => ?_, ?_⟩
    · exact List.find?_eq_none.1 hfind f f.mem_all (startsWithKeyword_iff.2 hf)
    · have hzero : keywordLength (c :: s) = 0 := by
        rw [keywordLength, hfind]
        rfl
      rw [markFrom, if_pos rfl, hzero]
  | some f =>
    have hstarts : startsWithKeyword f.keyword (c :: s) = true :=
      List.find?_some (p := fun f : Builtin => startsWithKeyword f.keyword (c :: s)) hfind
    have hspells := eq_of_beq hstarts
    obtain ⟨k, rest, hsplit, hspells, hlength⟩ : ∃ k rest, c :: s = k ++ rest
        ∧ k.map Char.toLower = f.keyword ∧ keywordLength (c :: s) = k.length := by
      have hlength := congrArg List.length hspells
      rw [List.length_map] at hlength
      refine ⟨(c :: s).take f.keyword.length, (c :: s).drop f.keyword.length,
        (List.take_append_drop _ _).symm, hspells, ?_⟩
      rw [keywordLength, hfind, Option.elim_some, hlength]
    have hk := ne_nil_of_spells hspells
    have hmarked : markFrom 0 (c :: s) = markFrom k.length (k ++ rest) := by
      rw [hsplit] at hlength ⊢
      exact markFrom_zero hk hlength
    rw [hmarked]
    by_cases hmark : rest.head? = some callMark
    · obtain ⟨rest, rfl⟩ := List.head?_eq_some_iff.1 hmark
      exact .inr ⟨k, [callMark], rest, f, hsplit, hspells, .inr rfl, markFrom_marked hk rest⟩
    · exact .inr ⟨k, [], rest, f, hsplit, hspells, .inl rfl, markFrom_rest hk hmark⟩

/-- **Marking marks every keyword.** -/
theorem marked_markKeywords : ∀ s : List Char, Marked s (markKeywords s)
  | [] => .nil
  | c :: s => by
    rcases markFrom_cases c s with ⟨hnone, heq⟩ | ⟨k, mark, rest, f, hsplit, hspells, hmark, heq⟩
    · rw [markKeywords, heq]
      exact .plain hnone (marked_markKeywords s)
    · have hshorter : rest.length < (c :: s).length := by
        have hk := List.length_pos_iff.2 (ne_nil_of_spells hspells)
        rw [hsplit, List.length_append, List.length_append]
        omega
      rw [markKeywords, heq, hsplit]
      exact .keyword hspells hmark (marked_markKeywords rest)
termination_by s => s.length
decreasing_by
  · exact Nat.lt_succ_self s.length
  · exact hshorter

/-- Marks of its own a text has from the formula. -/
theorem callMark_not_mem_withLeadingZero_trim {s : List Char} (h : callMark ∉ s) :
    callMark ∉ withLeadingZero (Text.trim s) := by
  obtain ⟨before, after, hsplit, -⟩ := Text.exists_trim s
  have htrim : callMark ∉ Text.trim s := fun hmem => h <| by
    rw [hsplit]
    exact List.mem_append_right before (List.mem_append_left after hmem)
  rcases withLeadingZero_cases (Text.trim s) with heq | ⟨sign, t, -, hs, heq⟩
  · rwa [heq]
  · rw [heq, ← hs]
    exact List.not_mem_cons_of_ne_of_not_mem (by decide) htrim

/-! ## What marking adds -/

/-- The text `p` is the text `s` with more call marks in it. -/
inductive AddsMarks : List Char → List Char → Prop
  | nil : AddsMarks [] []
  | cons (c : Char) {s p : List Char} (tail : AddsMarks s p) : AddsMarks (c :: s) (c :: p)
  | mark {s p : List Char} (tail : AddsMarks s p) : AddsMarks s (callMark :: p)

namespace AddsMarks

variable {s p w : List Char}

theorem append_left (h : AddsMarks s p) (t : List Char) : AddsMarks (t ++ s) (t ++ p) := by
  induction t with
  | nil => exact h
  | cons c t ih => exact .cons c ih

/-- A stretch without marks at the start of the longer text starts the other one as well. -/
theorem prefix_of_longer (h : AddsMarks s p) (hw : w <+: p) (hmark : callMark ∉ w) : w <+: s := by
  induction h generalizing w with
  | nil => exact hw
  | cons c tail ih =>
    rcases List.prefix_cons_iff.1 hw with rfl | ⟨t, rfl, ht⟩
    · exact List.nil_prefix
    · exact List.cons_prefix_cons.2 ⟨rfl, ih ht fun h => hmark (List.mem_cons_of_mem _ h)⟩
  | mark tail ih =>
    rcases List.prefix_cons_iff.1 hw with rfl | ⟨t, rfl, -⟩
    · exact List.nil_prefix
    · exact absurd List.mem_cons_self hmark

/-- **A stretch without marks** of the longer text is one of the other. -/
theorem infix_of_longer (h : AddsMarks s p) (hw : w <:+: p) (hmark : callMark ∉ w) :
    w <:+: s := by
  induction h with
  | nil => exact hw
  | cons c tail ih =>
    rcases List.infix_cons_iff.1 hw with hprefix | hstretch
    · exact (tail.cons c).prefix_of_longer hprefix hmark |>.isInfix
    · exact (ih hstretch).trans (List.suffix_cons _ _).isInfix
  | mark tail ih =>
    rcases List.infix_cons_iff.1 hw with hprefix | hstretch
    · exact tail.mark.prefix_of_longer hprefix hmark |>.isInfix
    · exact ih hstretch

/-- **Without the marks** the two texts are the same. -/
theorem filter_eq (h : AddsMarks s p) :
    p.filter (· ≠ callMark) = s.filter (· ≠ callMark) := by
  induction h with
  | nil => rfl
  | cons c tail ih => rw [List.filter_cons, List.filter_cons, ih]
  | mark tail ih => rw [List.filter_cons_of_neg (by simp), ih]

theorem eq_nil (h : AddsMarks s []) : s = [] := by
  cases h
  rfl

/-- The longer text ends like the other one, or in a mark. -/
theorem getLast?_cases (h : AddsMarks s p) :
    p.getLast? = s.getLast? ∨ p.getLast? = some callMark := by
  induction h with
  | nil => exact .inl rfl
  | @cons c s p tail ih =>
    cases p with
    | nil =>
      obtain rfl := tail.eq_nil
      exact .inl rfl
    | cons d p =>
      rw [List.getLast?_cons_cons]
      cases s with
      | nil => exact ih.imp_left fun h => nomatch h
      | cons e s => rwa [List.getLast?_cons_cons]
  | @mark s p tail ih =>
    cases p with
    | nil => exact .inr rfl
    | cons d p => rwa [List.getLast?_cons_cons]

end AddsMarks

namespace Marked

variable {s p : List Char}

theorem addsMarks (h : Marked s p) : AddsMarks s p := by
  induction h with
  | nil => exact .nil
  | plain none tail ih => exact .cons _ ih
  | keyword spells optional tail ih =>
    rcases optional with rfl | rfl
    · exact ih.mark.append_left _
    · exact (ih.cons callMark).append_left _

/-- **Without marks of its own** a text has them behind keywords only. -/
theorem exists_suffix (h : Marked s p) (hmark : callMark ∉ s) {a b : List Char}
    (hp : p = a ++ callMark :: b) :
    ∃ (k : List Char) (f : Builtin), k.map Char.toLower = f.keyword ∧ k <:+ a := by
  induction h generalizing a with
  | nil => exact absurd hp.symm (List.append_ne_nil_of_right_ne_nil _ (List.cons_ne_nil _ _))
  | @plain c s p none tail ih =>
    have hs : callMark ∉ s := fun h => hmark (List.mem_cons_of_mem _ h)
    rcases List.cons_eq_append_iff.1 hp with ⟨-, hcons⟩ | ⟨a', rfl, hp'⟩
    · obtain rfl := (List.cons.inj hcons).1
      exact absurd List.mem_cons_self hmark
    · obtain ⟨k, f, hspells, hsuffix⟩ := ih hs hp'
      exact ⟨k, f, hspells, hsuffix.trans (List.suffix_cons c a')⟩
  | @keyword k mark s p f spells optional tail ih =>
    have hs : callMark ∉ s := fun h =>
      hmark (List.mem_append_right _ (List.mem_append_right _ h))
    rcases List.append_eq_append_iff.1 hp with ⟨x, rfl, hx⟩ | ⟨x, rfl, hx⟩
    · rcases List.cons_eq_append_iff.1 hx with ⟨rfl, -⟩ | ⟨x', rfl, hp'⟩
      · exact ⟨k, f, spells, (List.append_nil k).symm ▸ List.suffix_refl k⟩
      · obtain ⟨k', f', hspells, hsuffix⟩ := ih hs hp'
        exact ⟨k', f', hspells, hsuffix.trans
          ((List.suffix_cons _ x').trans (List.suffix_append k _))⟩
    · rcases List.cons_eq_append_iff.1 hx with ⟨rfl, -⟩ | ⟨x', rfl, -⟩
      · exact ⟨a, f, by rwa [List.append_nil] at spells, List.suffix_refl a⟩
      · exact absurd (List.mem_append_right a List.mem_cons_self)
          (callMark_not_mem_of_spells spells)

/-! ## What marking finds -/

section Occurrence

variable {k b : List Char} {g : Builtin} (hspells : k.map Char.toLower = g.keyword)
include hspells

/-- **Every keyword of the marked text** is within one that has its mark. -/
theorem exists_around (h : Marked s p) {a : List Char} (hp : p = a ++ (k ++ b)) :
    ∃ (a' x y b' : List Char) (f : Builtin), a = a' ++ x ∧ b = y ++ callMark :: b'
      ∧ (x ++ (k ++ y)).map Char.toLower = f.keyword := by
  have hk := ne_nil_of_spells hspells
  have hnot := callMark_not_mem_of_spells hspells
  induction h generalizing a with
  | nil => exact absurd (List.append_eq_nil_iff.1 (List.append_eq_nil_iff.1 hp.symm).2).1 hk
  | @plain c s p none tail ih =>
    rcases List.cons_eq_append_iff.1 hp with ⟨-, hcons⟩ | ⟨a, rfl, hp'⟩
    · have hprefix : k <+: c :: p := ⟨b, hcons⟩
      have hstart := (tail.addsMarks.cons c).prefix_of_longer hprefix hnot
      exact absurd (hspells ▸ hstart.map Char.toLower) (none g)
    · obtain ⟨a', x, y, b', f, rfl, hb, hf⟩ := ih hp'
      exact ⟨c :: a', x, y, b', f, rfl, hb, hf⟩
  | @keyword K mark s p f spells optional tail ih =>
    rcases List.append_eq_append_iff.1 hp with ⟨z, rfl, hz⟩ | ⟨z, rfl, hz⟩
    · -- It starts behind the keyword, and not with the mark there.
      rcases List.cons_eq_append_iff.1 hz with ⟨-, hcons⟩ | ⟨z, rfl, hp'⟩
      · have hmem : callMark ∈ k := mem_of_head?_append hk (by rw [hcons]; rfl)
        exact absurd hmem hnot
      · obtain ⟨a', x, y, b', f', rfl, hb, hf⟩ := ih hp'
        exact ⟨K ++ callMark :: a', x, y, b', f', by simp, hb, hf⟩
    · obtain ⟨y, rfl, hb⟩ := exists_between_of_head hz.symm fun c hc =>
        Option.some.inj hc ▸ hnot
      exact ⟨[], a, y, p, f, rfl, hb, spells⟩

/-- **Behind a keyword of the marked text** a mark stands, or another letter. -/
theorem head_behind_keyword (h : Marked s p) {a : List Char} (hp : p = a ++ (k ++ b)) :
    ∃ c ∈ b.head?, c = callMark ∨ c.isAlpha = true := by
  obtain ⟨a', x, y, b', f, -, rfl, hf⟩ := h.exists_around hspells hp
  cases y with
  | nil => exact ⟨callMark, rfl, .inl rfl⟩
  | cons d y =>
    refine ⟨d, rfl, .inr (isAlpha_of_spells hf d ?_)⟩
    exact List.mem_append_right x (List.mem_append_right k List.mem_cons_self)

/-- **No keyword of the text goes unseen**: one that marking finds starts before it ends, and no
later than it starts. -/
theorem exists_keyword (h : Marked s p) {a : List Char} (hs : s = a ++ (k ++ b)) :
    ∃ (a' x K mark b' p' q : List Char) (f : Builtin), a = a' ++ x ∧ x.length < K.length
      ∧ K ++ (mark ++ b') = x ++ (k ++ b) ∧ K.map Char.toLower = f.keyword
      ∧ (mark = [] ∨ mark = [callMark]) ∧ p = p' ++ (K ++ callMark :: q) ∧ Marked b' q := by
  have hk := ne_nil_of_spells hspells
  have hnot := callMark_not_mem_of_spells hspells
  induction h generalizing a with
  | nil => exact absurd (List.append_eq_nil_iff.1 (List.append_eq_nil_iff.1 hs.symm).2).1 hk
  | @plain c s p none tail ih =>
    rcases List.cons_eq_append_iff.1 hs with ⟨-, hcons⟩ | ⟨a', rfl, hs'⟩
    · have hprefix : k <+: c :: s := ⟨b, hcons⟩
      exact absurd (hspells ▸ hprefix.map Char.toLower) (none g)
    · obtain ⟨a'', x, K, mark, b', p', q, f, rfl, hx, hK, hspells', hmark, rfl, hq⟩ := ih hs'
      exact ⟨c :: a'', x, K, mark, b', c :: p', q, f, rfl, hx, hK, hspells', hmark, rfl, hq⟩
  | @keyword K mark s p f spells optional tail ih =>
    by_cases hlt : a.length < K.length
    · exact ⟨[], a, K, mark, s, [], p, f, rfl, hlt, hs, spells, optional, rfl, tail⟩
    · -- It starts behind the keyword, and behind the mark there, which is no letter.
      obtain ⟨y, rfl, hy⟩ : ∃ y, a = K ++ y ∧ mark ++ s = y ++ (k ++ b) := by
        rcases List.append_eq_append_iff.1 hs with h | ⟨y, rfl, hy⟩
        · exact h
        · have hnil : y = [] := by
            rw [List.length_append] at hlt
            exact List.length_eq_zero_iff.1 (by omega)
          exact ⟨[], by rw [hnil, List.append_nil, List.append_nil], by rw [hy, hnil]; rfl⟩
      obtain ⟨z, rfl, hz⟩ : ∃ z, y = mark ++ z ∧ s = z ++ (k ++ b) := by
        refine exists_between_of_head hy.symm fun c hc hmark => hnot ?_
        obtain rfl : c = callMark := by
          rcases optional with rfl | rfl
          · cases hmark
          · exact List.mem_singleton.1 hmark
        exact mem_of_head?_append hk hc
      obtain ⟨a', x, K', mark', b', p', q, f', rfl, hx, hK, hspells', hmark, rfl, hq⟩ := ih hz
      refine ⟨K ++ (mark ++ a'), x, K', mark', b', K ++ callMark :: p', q, f', ?_, hx, hK,
        hspells', hmark, ?_, hq⟩
      · simp only [List.append_assoc]
      · simp only [List.append_assoc, List.cons_append]

end Occurrence

end Marked

end FormulaPlot
