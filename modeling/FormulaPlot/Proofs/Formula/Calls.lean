import FormulaPlot.Expr.Eval
import FormulaPlot.Proofs.Formula.Marks
import FormulaPlot.Proofs.Formula.Names

/-!
# Proofs/Formula/Calls — what a formula calls

Where a formula has no call mark of its own, marking puts one behind keywords only, so every name
that is called ends in a keyword.  The name may start before the keyword: `arcsin` is called where
`arcsin(x)` is written, and a call of a name that is no function's is `0`.
-/

namespace FormulaPlot

/-! ## Names that end in a keyword -/

/-- Ordinary characters that end where a name ends are within the name. -/
theorem StandsIn.suffix_name {name before after s k : List Char}
    (h : StandsIn name before after s) (hk : ∀ c ∈ k, isOrdinary c = true)
    (hsuffix : k <:+ before ++ name) : k <:+ name := by
  obtain ⟨x, hx⟩ := hsuffix
  obtain ⟨z, -, rfl⟩ := exists_between_of_getLast hx fun c hc hmem =>
    Bool.false_ne_true ((h.before c hc).symm.trans (hk c hmem))
  exact List.suffix_append z k

/-- **Without marks of its own** a formula calls only names that end in a keyword. -/
theorem exists_suffix_of_mem_markedNames {s name : String} (hmark : callMark ∉ s.toList)
    (h : name ∈ markedNames (readText s)) :
    ∃ f : Builtin, f.keyword <:+ name.toList.map Char.toLower := by
  obtain ⟨before, after, hstands, hafter⟩ := exists_of_mem_mentionsFrom (mem_markedNames.1 h)
  obtain ⟨after, rfl⟩ := List.head?_eq_some_iff.1 (hafter.1 rfl)
  have hsplit : Text.withoutBlanks (prepareChars s.toList)
      = (before ++ name.toList) ++ callMark :: after := by
    rw [List.append_assoc]
    exact hstands.split
  -- The mark follows the name at once, if not for blanks; the keyword before it ends the name.
  obtain ⟨u, v, hp, hu, hv⟩ := Text.exists_of_withoutBlanks_eq_append hsplit
  obtain ⟨gap, v', rfl, hgap, -⟩ := Text.exists_of_withoutBlanks_eq_cons hv
  obtain ⟨k, f, hspells, hsuffix⟩ := (marked_markKeywords _).exists_suffix
    (callMark_not_mem_withLeadingZero_trim hmark) (hp.trans (List.append_assoc u gap _).symm)
  have hord := isOrdinary_of_spells hspells
  have hsolid : Text.withoutBlanks k = k :=
    Text.withoutBlanks_of_forall fun c hc => isBlank_eq_false_of_isOrdinary (hord c hc)
  have hname : k <:+ name.toList := by
    refine hstands.suffix_name hord ?_
    have hfilter : Text.withoutBlanks k <:+ Text.withoutBlanks (u ++ gap) := hsuffix.filter _
    rwa [hsolid, Text.withoutBlanks_append, hgap, List.append_nil, hu] at hfilter
  exact ⟨f, hspells ▸ hname.map Char.toLower⟩

/-! ## Calls that come to nothing -/

/-- **A call of a name that is no function's** is `0`. -/
theorem reduce_call_of_unknown {name : String} (h : Builtin.ofName? name = none)
    (ar : Arithmetic) (x : Float) (argument : Expr) :
    (Expr.node .apply (.identifier name) argument).reduce ar x = .number 0 := by
  obtain ⟨v, hv⟩ := Expr.resolve_of_unknown h x
  rw [Expr.reduce, Expr.reduce, hv]
  cases argument.reduce ar x <;> rfl

/-- **What a formula without marks of its own calls**: every callee is an identifier that ends in
a function's keyword, case ignored; the callees are, in order, the names with the mark behind them
in the text that is read.  So all calls are of functions exactly if these names are functions'
names; and a call of any other name is `0`. -/
theorem callees_of_markFree {limit : Nat} {s : String} {t : Expr} (hmark : callMark ∉ s.toList)
    (h : parse limit s = .ok t) :
    (∀ callee ∈ t.callees, ∃ (name : String) (f : Builtin),
        callee = .identifier name ∧ f.keyword <:+ name.toList.map Char.toLower)
      ∧ t.callees = (markedNames (readText s)).map .identifier
      ∧ ((∀ callee ∈ t.callees, ∃ (name : String) (f : Builtin),
          callee = .identifier name ∧ Builtin.ofName? name = some f)
        ↔ ∀ name ∈ markedNames (readText s), ∃ f : Builtin,
          name.toList.map Char.toLower = f.keyword)
      ∧ ∀ (name : String) (ar : Arithmetic) (x : Float) (argument : Expr),
        Builtin.ofName? name = none →
          (Expr.node .apply (.identifier name) argument).reduce ar x = .number 0 := by
  have hcallees := callees_of_parse h
  refine ⟨?_, hcallees, ?_, fun name ar x argument hname =>
    reduce_call_of_unknown hname ar x argument⟩
  · rw [hcallees]
    refine List.forall_mem_map.2 fun name hname => ?_
    obtain ⟨f, hf⟩ := exists_suffix_of_mem_markedNames hmark hname
    exact ⟨name, f, rfl, hf⟩
  · rw [hcallees, List.forall_mem_map]
    refine forall₂_congr fun name _ => ⟨?_, ?_⟩
    · rintro ⟨name', f, heq, hf⟩
      obtain rfl := Expr.identifier.inj heq
      exact ⟨f, ofName?_eq_some_iff.1 hf⟩
    · rintro ⟨f, hf⟩
      exact ⟨name, f, rfl, ofName?_eq_some_iff.2 hf⟩

/-- A call of a function behind which a longer name with a function's at its end is called. -/
theorem callees_of_markFree_longer_name :
    callMark ∉ "asin(x)+arcsin(x)".toList
      ∧ parse 256 "asin(x)+arcsin(x)"
        = .ok (.node .add (.node .apply (.identifier "asin") (.identifier "x"))
            (.node .apply (.identifier "arcsin") (.identifier "x")))
      ∧ markedNames (readText "asin(x)+arcsin(x)") = ["asin", "arcsin"]
      ∧ Builtin.ofName? "arcsin" = none
      ∧ (Expr.node .apply (.identifier "arcsin") (.identifier "x")).reduce {} 1 = .number 0 := by
  have hmark : callMark ∉ "asin(x)+arcsin(x)".toList := by decide
  have hparse : parse 256 "asin(x)+arcsin(x)"
      = .ok (.node .add (.node .apply (.identifier "asin") (.identifier "x"))
          (.node .apply (.identifier "arcsin") (.identifier "x"))) := rfl
  obtain ⟨-, -, -, hzero⟩ := callees_of_markFree hmark hparse
  have hunknown : Builtin.ofName? "arcsin" = none := by decide
  exact ⟨hmark, hparse, rfl, hunknown, hzero "arcsin" {} 1 (.identifier "x") hunknown⟩

/-- A formula without marks of its own may call what is no function. -/
theorem parse_arcsin_calls_no_function :
    callMark ∉ "arcsin(x)".toList
      ∧ parse 256 "arcsin(x)" = .ok (.node .apply (.identifier "arcsin") (.identifier "x"))
      ∧ Builtin.ofName? "arcsin" = none := ⟨by decide, rfl, by decide⟩

end FormulaPlot
