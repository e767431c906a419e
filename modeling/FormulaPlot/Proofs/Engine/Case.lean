import FormulaPlot.Proofs.Engine.Values
import FormulaPlot.Proofs.Formula.Calls
import FormulaPlot.Proofs.Formula.RecasedReading

/-!
# Proofs/Engine/Case — the case of keywords does not matter

Formulas that differ in the case of their keywords are read side by side, and what differs in their
trees is the case of called names.  A called name is looked up in any case, and one that is no
function's counts for `0` in any case (`RecasedExpr.reduce_eq`), so the two formulas have the same
fault or the same value everywhere (`parse_recased`).
-/

namespace FormulaPlot

theorem SameName.ofName?_eq {f f' : String} (h : SameName f f') :
    Builtin.ofName? f = Builtin.ofName? f' := by
  unfold Builtin.ofName?
  rw [show f.toList.map Char.toLower = f'.toList.map Char.toLower from h]

/-- **The case of called names** does not change what a tree comes to. -/
theorem RecasedExpr.reduce_eq {t t' : Expr} (h : RecasedExpr t t') (ar : Arithmetic) (x : Float) :
    t.reduce ar x = t'.reduce ar x := by
  induction h with
  | refl e => rfl
  | node op hleft hright ihleft ihright => rw [Expr.reduce, Expr.reduce, ihleft, ihright]
  | @call f f' argument argument' name hargument ih =>
    cases hf : Builtin.ofName? f with
    | none =>
      have hf' : Builtin.ofName? f' = none := by rw [← name.ofName?_eq, hf]
      rw [reduce_call_of_unknown hf, reduce_call_of_unknown hf']
    | some g =>
      have hresolve : Expr.resolve f x = Expr.resolve f' x := by
        simp only [Expr.resolve, ← name.ofName?_eq, hf]
      rw [Expr.reduce, Expr.reduce, Expr.reduce, Expr.reduce, hresolve, ih]

theorem RecasedExpr.evaluate_eq {t t' : Expr} (h : RecasedExpr t t') (ar : Arithmetic) (x : Float) :
    t.evaluate ar x = t'.evaluate ar x := by
  rw [Expr.evaluate, Expr.evaluate, h.reduce_eq]

/-- **Recased formulas** are read to the same fault or to recased trees. -/
theorem sameFault_parse (limit : Nat) {s s' : String} (h : Recased s.toList s'.toList) :
    SameFault RecasedExpr (parse limit s) (parse limit s') := by
  rw [parse, parse, parsePrepared, parsePrepared, prepare, prepare, String.toList_ofList,
    String.toList_ofList]
  exact (keepsCase_readWithin limit (limit + 1) .none (recasedCalls_prepareChars h)).map
    RecasedNode.expr

theorem SameFault.evaluateParsed_eq {p p' : Except ParseError Expr}
    (h : SameFault RecasedExpr p p') (ar : Arithmetic) (x : Float) :
    evaluateParsed ar x p = evaluateParsed ar x p' := by
  cases h with
  | error e => rfl
  | ok ht => rw [evaluateParsed, evaluateParsed, ht.evaluate_eq]

/-- **The case of keywords does not matter.**  Formulas that differ in the case of the keywords that
marking meets fail to parse with one fault, its position included, or parse to trees that differ in
the case of called names only and have the same value, or the same fault, at every number under
every arithmetic.  So every session under every configuration, with every cache, has the same answer
for both. -/
theorem parse_recased (config : Config) {s s' : String} (h : Recased s.toList s'.toList) :
    ((∃ e, parse config.maxDepth s = .error e ∧ parse config.maxDepth s' = .error e)
        ∨ ∃ t t', parse config.maxDepth s = .ok t ∧ parse config.maxDepth s' = .ok t'
          ∧ RecasedExpr t t' ∧ ∀ ar x, t.evaluate ar x = t'.evaluate ar x)
      ∧ ∀ (σ : Type) [RecencyCache σ String SharedTree] [LawfulRecencyCache σ String SharedTree]
          requests x,
        (((EngineOver.new σ config).run requests).2.evaluateFormula s x).1
          = (((EngineOver.new σ config).run requests).2.evaluateFormula s' x).1 := by
  have hparse := sameFault_parse config.maxDepth h
  constructor
  · revert hparse
    generalize parse config.maxDepth s = p
    generalize parse config.maxDepth s' = p'
    rintro (e | ⟨ht⟩)
    · exact .inl ⟨e, rfl, rfl⟩
    · exact .inr ⟨_, _, rfl, rfl, ht, ht.evaluate_eq⟩
  · intro σ _ _ requests x
    rw [evaluateFormula_run, evaluateFormula_run, hparse.evaluateParsed_eq]

/-- A function of a constant, whose own case does matter. -/
theorem parse_recased_constant :
    Recased "Cos(e)".toList "cOS(e)".toList
      ∧ parse 256 "Cos(e)" = .ok (.node .apply (.identifier "Cos") (.identifier "e"))
      ∧ parse 256 "cOS(e)" = .ok (.node .apply (.identifier "cOS") (.identifier "e"))
      ∧ (((Engine.new {}).run [.parse "x"]).2.evaluateFormula "Cos(e)" 1).1
        = (((Engine.new {}).run [.parse "x"]).2.evaluateFormula "cOS(e)" 1).1
      ∧ (Expr.node .apply (.identifier "Cos") (.identifier "e")).evaluate {} 1
        = (Expr.node .apply (.identifier "cOS") (.identifier "e")).evaluate {} 1 := by
  have htail : Recased "(e)".toList "(e)".toList :=
    .plain (by decide) (.plain (by decide) (.plain (by decide) .nil))
  have hrecased : Recased "Cos(e)".toList "cOS(e)".toList :=
    show Recased ("Cos".toList ++ "(e)".toList) ("cOS".toList ++ "(e)".toList) from
      .keyword (f := .cos) (by decide) (by decide) (by decide) htail
  obtain ⟨hread, hsession⟩ := parse_recased {} hrecased
  refine ⟨hrecased, rfl, rfl, hsession _ [.parse "x"] 1, ?_⟩
  rcases hread with ⟨e, he, -⟩ | ⟨t, t', ht, ht', -, hvalue⟩
  · cases he
  · obtain rfl := Except.ok.inj ht
    obtain rfl := Except.ok.inj ht'
    exact hvalue {} 1

end FormulaPlot
