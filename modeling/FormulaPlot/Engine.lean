import FormulaPlot.Cache
import FormulaPlot.Formula.Parse
import FormulaPlot.Plot.Block
import FormulaPlot.Plot.Sample

/-!
# Engine — formulas under one configuration

An engine parses and evaluates formulas under one configuration and keeps the trees of the formulas
asked for last.  A tree that it hands out is shared: as long as the formula stays in the cache every
request gets the same tree, which the tree's number shows, numbers being given out once.

What holds of engines holds whatever they keep the trees in (`EngineOver`); `Engine` is one that
keeps them in a list.
-/

namespace FormulaPlot

/-! ## Configuration -/

/-- The settings of an engine. -/
structure Config where
  /-- The deepest nesting of a formula. -/
  maxDepth : Nat := 256
  arithmetic : Arithmetic := {}
  /-- The number of formulas whose trees are kept. -/
  cacheSize : Nat := 100

/-- Why a formula has no value: it is no formula, or its tree has none. -/
inductive FormulaError where
  | parse (e : ParseError)
  | eval (e : EvalError)
  deriving Repr, DecidableEq

/-- What is said of a formula without a value. -/
def FormulaError.message : FormulaError → String
  | parse e => e.message
  | eval e => e.message

/-- The value at `x` of the tree that parsing came to. -/
def evaluateParsed (ar : Arithmetic) (x : Float) :
    Except ParseError Expr → Except FormulaError Float
  | .error e => .error (.parse e)
  | .ok tree => (tree.evaluate ar x).mapError .eval

/-- The value of a formula at `x`, under the default configuration. -/
def evaluateFormula (formula : String) (x : Float) : Except FormulaError Float :=
  let config : Config := {}
  evaluateParsed config.arithmetic x (parse config.maxDepth formula)

/-! ## Engines -/

/-- A tree that several requests may share; no two trees made by one engine have one number. -/
structure SharedTree where
  id : Nat
  expr : Expr
  deriving Repr, DecidableEq

/-- An engine that keeps its trees in a cache of type `σ`. -/
structure EngineOver (σ : Type) where
  config : Config
  /-- The trees that are kept; an engine that is to keep none has no cache. -/
  cache : Option σ
  /-- The number of trees made. -/
  created : Nat

namespace EngineOver

variable {σ : Type} [RecencyCache σ String SharedTree]

/-- An engine that has not been asked for anything. -/
def new (σ : Type) [RecencyCache σ String SharedTree] (config : Config) : EngineOver σ where
  config
  cache := if config.cacheSize = 0 then none else some (RecencyCache.empty config.cacheSize)
  created := 0

/-- A new tree of a formula, which is kept from now on if there is a cache. -/
def make (engine : EngineOver σ) (formula : String) :
    Except ParseError SharedTree × EngineOver σ :=
  match FormulaPlot.parse engine.config.maxDepth formula with
  | .error e => (.error e, engine)
  | .ok expr =>
    let tree := ⟨engine.created, expr⟩
    (.ok tree,
      { engine with
        cache := engine.cache.map fun cache => RecencyCache.put cache formula tree
        created := engine.created + 1 })

/-- The tree of a formula: the one that is kept, or else a new one. -/
def parse (engine : EngineOver σ) (formula : String) :
    Except ParseError SharedTree × EngineOver σ :=
  match engine.cache with
  | none => engine.make formula
  | some cache =>
    match RecencyCache.get cache formula with
    | (some tree, cache) => (.ok tree, { engine with cache := some cache })
    | (none, cache) => { engine with cache := some cache }.make formula

/-- The value of a tree at `x`. -/
def evaluate (engine : EngineOver σ) (tree : Expr) (x : Float) : Except EvalError Float :=
  tree.evaluate engine.config.arithmetic x

/-- The value of a formula at `x`. -/
def evaluateFormula (engine : EngineOver σ) (formula : String) (x : Float) :
    Except FormulaError Float × EngineOver σ :=
  let (tree, engine) := engine.parse formula
  (evaluateParsed engine.config.arithmetic x (tree.map SharedTree.expr), engine)

/-- The samples of a block's formula over the block's domain. -/
def render (engine : EngineOver σ) (block : Block) :
    Except ParseError (List Sample) × EngineOver σ :=
  let (tree, engine) := engine.parse block.func
  (tree.map fun tree => sample engine.config.arithmetic tree.expr block.domain, engine)

/-! ## What an engine keeps -/

/-- The trees that an engine keeps, each with its formula, the most recent first. -/
def entries (engine : EngineOver σ) : List (String × SharedTree) :=
  engine.cache.elim [] RecencyCache.entries

/-- The formulas whose trees an engine keeps, the most recent first. -/
def keys (engine : EngineOver σ) : List String := engine.entries.map Prod.fst

/-- The number of formulas that there is room for. -/
def capacity (engine : EngineOver σ) : Nat := engine.cache.elim 0 RecencyCache.capacity

end EngineOver

/-- An engine that keeps its trees in a list. -/
abbrev Engine : Type := EngineOver (Cache String SharedTree)

/-- Such an engine that has not been asked for anything. -/
def Engine.new (config : Config) : Engine := EngineOver.new _ config

end FormulaPlot
