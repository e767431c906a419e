import FormulaPlot.Proofs.Engine.Transparency
import FormulaPlot.Proofs.Formula.Arguments

/-!
# Proofs/Engine/Values — which formulas have a value

A tree has no value only if it is a function's name and nothing else (`evaluate_eq_error_iff`);
beneath an operation such a name, unless it is called, makes the whole operation `0`.  Reading
leaves none uncalled in a formula that has no white space inside its keywords, so there a value is
missing only where reading fails (`value_of_parse`).
-/

namespace FormulaPlot

/-! ## Trees without a value -/

/-- **A tree has no value only if it is a function's name.** -/
theorem evaluate_eq_error_iff {t : Expr} {ar : Arithmetic} {x : Float} {e : EvalError} :
    t.evaluate ar x = .error e
      ↔ ∃ name f, t = .identifier name ∧ Builtin.ofName? name = some f
        ∧ e = .functionAsValue f := by
  constructor
  · intro h
    cases t with
    | literal value => cases h
    | node op left right => cases h
    | identifier name =>
      cases hname : Builtin.ofName? name with
      | some f =>
        simp only [Expr.evaluate, Expr.reduce, Expr.resolve, hname] at h
        exact ⟨name, f, rfl, hname, (Except.error.inj h).symm⟩
      | none =>
        obtain ⟨v, hv⟩ := Expr.resolve_of_unknown hname x
        rw [Expr.evaluate, Expr.reduce, hv] at h
        cases h
  · rintro ⟨name, f, rfl, hname, rfl⟩
    simp only [Expr.evaluate, Expr.reduce, Expr.resolve, hname]

/-- Without a free identifier that names a function a tree has a value. -/
theorem exists_evaluate_eq_ok {t : Expr} (h : ∀ name ∈ t.freeNames, Builtin.ofName? name = none)
    (ar : Arithmetic) (x : Float) : ∃ v, t.evaluate ar x = .ok v := by
  cases heval : t.evaluate ar x with
  | ok v => exact ⟨v, rfl⟩
  | error e =>
    obtain ⟨name, f, rfl, hname, -⟩ := evaluate_eq_error_iff.1 heval
    rw [h name List.mem_cons_self] at hname
    cases hname

/-! ## Values in sessions -/

/-- **The value of a formula in a session** is the value of what it parses to. -/
theorem evaluateFormula_run (σ : Type) [RecencyCache σ String SharedTree]
    [LawfulRecencyCache σ String SharedTree] (config : Config) (requests : List Request)
    (s : String) (x : Float) :
    (((EngineOver.new σ config).run requests).2.evaluateFormula s x).1
      = evaluateParsed config.arithmetic x (parse config.maxDepth s) := by
  obtain ⟨-, hcoherent, hconfig⟩ :=
    (EngineOver.isCoherent_new (σ := σ) config).unnumbered_run requests
  have hanswer := hcoherent.unnumbered_answer (.evaluateFormula s x)
  rw [hconfig] at hanswer
  exact Answer.formulaValue.inj hanswer

/-- **Which formulas have a value.**  The free identifiers of a formula are the names without a mark
in the text that is read; it has no value exactly if it is a function's name alone; and behind each
of its keywords, or behind a longer one around it, a bracket opens.  If no keyword has white space
inside it, then no function's name is left free, so the formula has a value, and a session comes to
none only where parsing fails. -/
theorem value_of_parse (config : Config) (s : String) :
    (∀ t, parse config.maxDepth s = .ok t →
        t.freeNames = unmarkedNames (readText s)
        ∧ (∀ ar x e, t.evaluate ar x = .error e
          ↔ ∃ name f, t = .identifier name ∧ Builtin.ofName? name = some f
            ∧ e = .functionAsValue f)
        ∧ ∀ (a k b : List Char) (f : Builtin), s.toList = a ++ (k ++ b) →
          k.map Char.toLower = f.keyword → IsBracketed a k b)
      ∧ (¬ SpreadsKeyword s.toList →
        (∀ t, parse config.maxDepth s = .ok t →
          (∀ name ∈ t.freeNames, Builtin.ofName? name = none)
            ∧ ∀ ar x, ∃ v, t.evaluate ar x = .ok v)
        ∧ ∀ (σ : Type) [RecencyCache σ String SharedTree] [LawfulRecencyCache σ String SharedTree]
            requests x e,
          (((EngineOver.new σ config).run requests).2.evaluateFormula s x).1 = .error e →
            ∃ e', e = .parse e') := by
  refine ⟨fun t h => ⟨freeNames_of_parse h, fun ar x e => evaluate_eq_error_iff,
    fun a k b f hs hspells => isBracketed_of_parse h hspells hs⟩, fun hspread => ?_⟩
  have hvalue (t : Expr) (h : parse config.maxDepth s = .ok t) :
      ∀ name ∈ t.freeNames, Builtin.ofName? name = none := by
    intro name hname
    rw [freeNames_of_parse h] at hname
    cases hf : Builtin.ofName? name with
    | none => rfl
    | some f => exact absurd (spreadsKeyword_of_mem_unmarkedNames hname hf) hspread
  refine ⟨fun t h => ⟨hvalue t h, exists_evaluate_eq_ok (hvalue t h)⟩,
    fun σ _ _ requests x e he => ?_⟩
  rw [evaluateFormula_run] at he
  cases hparse : parse config.maxDepth s with
  | error e' =>
    rw [hparse] at he
    exact ⟨e', (Except.error.inj he).symm⟩
  | ok t =>
    obtain ⟨v, hv⟩ := exists_evaluate_eq_ok (hvalue t hparse) config.arithmetic x
    rw [hparse, evaluateParsed, hv] at he
    cases he

/-- A keyword that has its bracket: the formula has a value in every session. -/
theorem value_of_parse_call :
    parse 256 "Sin (x)" = .ok (.node .apply (.identifier "Sin") (.identifier "x"))
      ∧ IsBracketed [] "Sin".toList " (x)".toList ∧ ¬ SpreadsKeyword "Sin(x)".toList
      ∧ (∃ v, (Expr.node .apply (.identifier "Sin") (.identifier "x")).evaluate {} 1 = .ok v)
      ∧ ∀ e, (((Engine.new {}).run [.parse "x"]).2.evaluateFormula "Sin(x)" 1).1 = .error e →
        ∃ e', e = .parse e' := by
  have hsolid : ¬ SpreadsKeyword "Sin(x)".toList := not_spreadsKeyword rfl
  obtain ⟨hread, -⟩ := value_of_parse {} "Sin (x)"
  obtain ⟨hvalue, hsession⟩ := (value_of_parse {} "Sin(x)").2 hsolid
  obtain ⟨-, -, hbracket⟩ := hread _ rfl
  exact ⟨rfl, hbracket [] "Sin".toList " (x)".toList .sin rfl (by decide), hsolid,
    (hvalue _ rfl).2 {} 1, hsession _ [.parse "x"] 1⟩

/-- A keyword with white space inside it is read as the name of a function that is not called: by
itself it has no value, and the sum that it stands in comes to `0`. -/
theorem parse_spread_keyword :
    parse 256 "si n" = .ok (.identifier "sin") ∧ Builtin.ofName? "sin" = some .sin
      ∧ evaluateFormula "si n" 1 = .error (.eval (.functionAsValue .sin))
      ∧ parse 256 "1+si n" = .ok (.node .add (.literal 1) (.identifier "sin"))
      ∧ evaluateFormula "1+si n" 1 = .ok 0 :=
  ⟨rfl, rfl, rfl, rfl, rfl⟩

end FormulaPlot
