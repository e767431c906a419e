import FormulaPlot.Proofs.Formula.Composition

/-!
# Proofs/Formula/Prepared — a prepared text needs no more preparing

Preparing trims a text, puts a `0` in front of its sign and marks its keywords, and each of these
steps finds nothing more to do in what they leave behind:

* `prepare_prepare` — a text prepared twice is prepared once;
* `prepare_marks` — what is new in it is marks, each behind a keyword, and no keyword goes without.

For marking this is because a keyword is letters only: a marked text starts with a keyword just
where the text it was made of does (`Marked.markKeywords_eq`), and a keyword in it is one that has
its mark, or the end or the start of one (`keyword_within`).
-/

namespace FormulaPlot

/-! ## Marking again -/

/-- **A marked text has all its marks.** -/
theorem Marked.markKeywords_eq {s p : List Char} (h : Marked s p) : markKeywords p = p := by
  induction h with
  | nil => rfl
  | @plain c s p none tail ih =>
    rcases markFrom_cases c p with ⟨-, heq⟩ | ⟨k, mark, rest, f, hsplit, hspells, -, -⟩
    · rw [markKeywords, heq]
      exact congrArg (c :: ·) ih
    · -- A keyword at this place would have been at this place before.
      have hstart := (tail.addsMarks.cons c).prefix_of_longer ⟨_, hsplit.symm⟩
        (callMark_not_mem_of_spells hspells)
      exact absurd (hspells ▸ hstart.map Char.toLower) (none f)
  | @keyword k mark s p f spells optional tail ih =>
    have hk := ne_nil_of_spells spells
    rw [markKeywords, markFrom_zero hk (keywordLength_eq_length spells (head_not_isAlpha rfl p)),
      markFrom_marked hk]
    exact congrArg (k ++ callMark :: ·) ih

/-! ## Preparing again -/

theorem withLeadingZero_prepareChars (s : List Char) :
    withLeadingZero (prepareChars s) = prepareChars s := by
  rw [prepareChars, ← markKeywords_withLeadingZero, withLeadingZero_idem]

/-- A `0` in front changes nothing at the end of a text. -/
theorem getLast?_withLeadingZero (s : List Char) :
    (withLeadingZero s).getLast? = s.getLast? := by
  rcases withLeadingZero_cases s with heq | ⟨sign, t, -, rfl, heq⟩
  · rw [heq]
  · rw [heq, List.getLast?_cons_cons]

theorem head?_withLeadingZero {s : List Char} {c : Char} (h : c ∈ (withLeadingZero s).head?) :
    c = '0' ∨ c ∈ s.head? := by
  rcases withLeadingZero_cases s with heq | ⟨sign, t, -, rfl, heq⟩
  · exact .inr (heq ▸ h)
  · rw [heq] at h
    exact .inl (Option.some.inj h).symm

/-- **A prepared text has no blanks at its ends.** -/
theorem trim_prepareChars (s : List Char) : Text.trim (prepareChars s) = prepareChars s := by
  refine Text.trim_of_ends (fun c hc => ?_) (fun c hc => ?_)
  · rw [prepareChars, markKeywords, head?_markFrom] at hc
    rcases head?_withLeadingZero hc with rfl | hc
    · decide
    · exact Text.head?_trim s c hc
  · rcases (marked_markKeywords (withLeadingZero (Text.trim s))).addsMarks.getLast?_cases
      with hlast | hlast
    · rw [prepareChars, hlast, getLast?_withLeadingZero] at hc
      exact Text.getLast?_trim s c hc
    · rw [prepareChars, hlast] at hc
      obtain rfl := Option.some.inj hc
      decide

theorem prepareChars_prepareChars (s : List Char) :
    prepareChars (prepareChars s) = prepareChars s := by
  conv_lhs => rw [prepareChars, trim_prepareChars, withLeadingZero_prepareChars]
  exact (marked_markKeywords _).markKeywords_eq

/-- **A text prepared twice is prepared once**, and is read as the text itself is. -/
theorem prepare_prepare (s : String) :
    prepare (prepare s) = prepare s ∧ ∀ limit, parse limit (prepare s) = parse limit s := by
  have hprepare : prepare (prepare s) = prepare s := by
    rw [prepare, prepare, String.toList_ofList, prepareChars_prepareChars]
  exact ⟨hprepare, fun limit => congrArg (parsePrepared limit) hprepare⟩

/-! ## Keywords in keywords -/

/-- The functions whose keyword is another one's but for its last letter, each with that one. -/
def shortenedKeywords : List (Builtin × Builtin) :=
  [(.sin, .sinh), (.cos, .cosh), (.tan, .tanh)]

theorem keyword_isPrefixOf_drop : ∀ f ∈ Builtin.all, ∀ g ∈ Builtin.all, ∀ i < f.keyword.length,
    g.keyword.isPrefixOf (f.keyword.drop i) = true → i + g.keyword.length = f.keyword.length
      ∨ i = 0 ∧ g.keyword.length + 1 = f.keyword.length ∧ (g, f) ∈ shortenedKeywords := by
  decide +kernel

/-- **A keyword within a keyword** is its end, or all of it but the last letter. -/
theorem keyword_within {x k y : List Char} {f g : Builtin}
    (hspells : k.map Char.toLower = g.keyword)
    (hlonger : (x ++ (k ++ y)).map Char.toLower = f.keyword) :
    y = [] ∨ (∃ c, y = [c]) ∧ x = [] ∧ (g, f) ∈ shortenedKeywords := by
  have hlength := congrArg List.length hlonger
  have hk := congrArg List.length hspells
  have hpos := List.length_pos_iff.2 (ne_nil_of_spells hspells)
  simp only [List.length_append, List.length_map] at hlength hk
  have hprefix : g.keyword.isPrefixOf (f.keyword.drop x.length) = true := by
    rw [← hlonger, ← List.map_drop, List.drop_left, List.map_append, hspells,
      List.isPrefixOf_iff_prefix]
    exact List.prefix_append _ _
  rcases keyword_isPrefixOf_drop f f.mem_all g g.mem_all x.length (by omega) hprefix
    with hend | ⟨hstart, hlast, hmem⟩
  · exact .inl (List.length_eq_zero_iff.1 (by omega))
  · exact .inr ⟨List.length_eq_one_iff.1 (by omega), List.length_eq_zero_iff.1 hstart, hmem⟩

/-! ## The marks of a prepared text -/

/-- **Every keyword of a marked text** has its mark, or is a keyword with its mark less the last
letter. -/
theorem Marked.mark_behind {s p a k b : List Char} {g : Builtin} (h : Marked s p)
    (hspells : k.map Char.toLower = g.keyword) (hp : p = a ++ (k ++ b)) :
    (∃ b', b = callMark :: b') ∨ ∃ (c : Char) (b' : List Char) (f : Builtin),
      b = c :: callMark :: b' ∧ (k ++ [c]).map Char.toLower = f.keyword
        ∧ (g, f) ∈ shortenedKeywords := by
  obtain ⟨a', x, y, b', f, -, rfl, hlonger⟩ := h.exists_around hspells hp
  rcases keyword_within hspells hlonger with rfl | ⟨⟨c, rfl⟩, rfl, hmem⟩
  · exact .inl ⟨b', rfl⟩
  · exact .inr ⟨c, b', f, rfl, hlonger, hmem⟩

/-- **Where marking alone puts them** no mark follows a mark. -/
theorem Marked.not_mark_mark {s p : List Char} (h : Marked s p) (hmark : callMark ∉ s)
    (a b : List Char) : p ≠ a ++ callMark :: callMark :: b := by
  intro hp
  have hp' : p = (a ++ [callMark]) ++ callMark :: b := by
    rw [hp, List.append_assoc]
    rfl
  obtain ⟨k, f, hspells, x, hx⟩ := h.exists_suffix hmark hp'
  have hlast : (x ++ k).getLast? = some callMark := by
    rw [hx, List.getLast?_concat]
  rw [List.getLast?_append_of_ne_nil x (ne_nil_of_spells hspells)] at hlast
  exact callMark_not_mem_of_spells hspells (List.mem_of_getLast? hlast)

/-- **Preparing only adds marks**, to the trimmed text with the `0` in front of its sign.  In a text
that had none each stands right behind a keyword, and no two stand together.  And every keyword of
a prepared text, in any ASCII case, is right in front of a mark, or it is `sin`, `cos` or `tan` and
the `h` behind it makes another keyword of it, which is right in front of a mark. -/
theorem prepare_marks (s : String) :
    (prepare s).toList.filter (· ≠ callMark)
        = (withLeadingZero (Text.trim s.toList)).filter (· ≠ callMark)
      ∧ (callMark ∉ s.toList →
        (∀ a b, (prepare s).toList = a ++ callMark :: b →
          ∃ (k : List Char) (f : Builtin), k.map Char.toLower = f.keyword ∧ k <:+ a)
        ∧ ∀ a b, (prepare s).toList ≠ a ++ callMark :: callMark :: b)
      ∧ ∀ (a k b : List Char) (g : Builtin), (prepare s).toList = a ++ (k ++ b) →
        k.map Char.toLower = g.keyword →
        (∃ b', b = callMark :: b') ∨ ∃ (c : Char) (b' : List Char) (f : Builtin),
          b = c :: callMark :: b' ∧ (k ++ [c]).map Char.toLower = f.keyword
            ∧ (g, f) ∈ [(Builtin.sin, Builtin.sinh), (.cos, .cosh), (.tan, .tanh)] := by
  have hmarked : Marked (withLeadingZero (Text.trim s.toList)) (prepare s).toList := by
    rw [prepare, String.toList_ofList, prepareChars]
    exact marked_markKeywords _
  refine ⟨hmarked.addsMarks.filter_eq, fun hmark => ?_, fun a k b g hp hspells => ?_⟩
  · have hnone := callMark_not_mem_withLeadingZero_trim hmark
    exact ⟨fun a b hp => hmarked.exists_suffix hnone hp, hmarked.not_mark_mark hnone⟩
  · exact hmarked.mark_behind hspells hp

/-- A text that starts with a sign, with `cos` at the start of another keyword and `tan` with a
mark of its own. -/
theorem prepare_marks_cosh_tan :
    callMark ∉ "-cosh(Tan y)".toList
      ∧ (prepare "-cosh(Tan y)").toList = "0-cosh_(Tan_ y)".toList
      ∧ (prepare "-cosh(Tan y)").toList.filter (· ≠ callMark) = "0-cosh(Tan y)".toList
      ∧ (∃ (k : List Char) (f : Builtin), k.map Char.toLower = f.keyword
          ∧ k <:+ "0-cosh_(Tan".toList)
      ∧ (∀ a b, (prepare "-cosh(Tan y)").toList ≠ a ++ callMark :: callMark :: b)
      ∧ (∃ (c : Char) (f : Builtin), ("cos".toList ++ [c]).map Char.toLower = f.keyword
          ∧ (Builtin.cos, f) ∈ [(Builtin.sin, Builtin.sinh), (.cos, .cosh), (.tan, .tanh)])
      ∧ ∃ b', "_ y)".toList = callMark :: b' := by
  have hmark : callMark ∉ "-cosh(Tan y)".toList := by decide
  have hprepare : (prepare "-cosh(Tan y)").toList = "0-cosh_(Tan_ y)".toList := by decide
  obtain ⟨hfilter, hmarks, hkeywords⟩ := prepare_marks "-cosh(Tan y)"
  obtain ⟨hbehind, happart⟩ := hmarks hmark
  refine ⟨hmark, hprepare, hfilter.trans (by decide),
    hbehind "0-cosh_(Tan".toList " y)".toList hprepare, happart, ?_, ?_⟩
  · rcases hkeywords "0-".toList "cos".toList "h_(Tan_ y)".toList .cos hprepare rfl
      with ⟨b', hb⟩ | ⟨c, b', f, -, hlonger, hmem⟩
    · exact absurd (List.cons.inj hb).1 (by decide)
    · exact ⟨c, f, hlonger, hmem⟩
  · rcases hkeywords "0-cosh_(".toList "Tan".toList "_ y)".toList .tan hprepare rfl
      with hb | ⟨c, b', f, hb, -⟩
    · exact hb
    · exact absurd (List.cons.inj (List.cons.inj hb).2).1 (by decide)

end FormulaPlot
