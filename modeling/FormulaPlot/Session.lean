import FormulaPlot.Engine

/-!
# Session — requests to one engine, one after the other

A session puts a list of requests to an engine, each to the engine that the one before it left.
-/

namespace FormulaPlot

/-- What an engine can be asked. -/
inductive Request where
  /-- The tree of a formula. -/
  | parse (formula : String)
  /-- The value of a formula at a number. -/
  | evaluateFormula (formula : String) (x : Float)
  /-- The value of a tree at a number. -/
  | evaluate (tree : Expr) (x : Float)
  /-- The samples of a graph block. -/
  | render (block : Block)
  deriving Repr, DecidableEq

/-- What an engine answers, request by request. -/
inductive Answer where
  | tree (result : Except ParseError SharedTree)
  | formulaValue (result : Except FormulaError Float)
  | treeValue (result : Except EvalError Float)
  | samples (result : Except ParseError (List Sample))

namespace EngineOver

variable {σ : Type} [RecencyCache σ String SharedTree]

/-- The answer to a request, and the engine after it. -/
def answer (engine : EngineOver σ) : Request → Answer × EngineOver σ
  | .parse formula => (engine.parse formula).map .tree id
  | .evaluateFormula formula x => (engine.evaluateFormula formula x).map .formulaValue id
  | .evaluate tree x => (.treeValue (engine.evaluate tree x), engine)
  | .render block => (engine.render block).map .samples id

/-- The answers to a list of requests, and the engine after them. -/
def run (engine : EngineOver σ) : List Request → List Answer × EngineOver σ
  | [] => ([], engine)
  | request :: requests =>
    let (answer, engine) := engine.answer request
    let (answers, engine) := engine.run requests
    (answer :: answers, engine)

end EngineOver

end FormulaPlot
