import FormulaPlot.Session

/-!
# Proofs/Engine/Transparency — no answer shows the cache

A kept tree is what its formula parses to (`EngineOver.IsCoherent`), and every request leaves that
so, those included that fail.  So an engine with a lawful cache answers each request as its
configuration alone says (`Config.answer`), whatever it was asked before and however many trees it
keeps; only the numbers of the trees tell that one was shared.

* `EngineOver.parse_cases` — what parsing does to an engine;
* `EngineOver.IsCoherent.unnumbered_run` — what a session answers;
* `run_eq_uncached` — a new engine without a cache answers the same.
-/

namespace FormulaPlot

/-! ## Answers without numbers -/

/-- An answer with the number of its tree left out. -/
def Answer.unnumbered : Answer → Answer
  | .tree result => .tree (result.map fun tree => { tree with id := 0 })
  | answer => answer

/-- The answer to a request that a configuration gives on its own, without an engine. -/
def Config.answer (config : Config) : Request → Answer
  | .parse formula => .tree ((parse config.maxDepth formula).map fun expr => ⟨0, expr⟩)
  | .evaluateFormula formula x =>
    .formulaValue (evaluateParsed config.arithmetic x (parse config.maxDepth formula))
  | .evaluate tree x => .treeValue (tree.evaluate config.arithmetic x)
  | .render block =>
    .samples ((parse config.maxDepth block.func).map fun tree =>
      sample config.arithmetic tree block.domain)

/-! ## Looking up -/

section Lookup

variable {κ α : Type} [DecidableEq κ] {key : κ} {value : α} {entries : List (κ × α)}

/-- What is looked up is an entry. -/
theorem mem_of_lookup (h : entries.lookup key = some value) : (key, value) ∈ entries := by
  obtain ⟨before, after, hentries, -⟩ := List.lookup_eq_some_iff.1 h
  rw [hentries]
  exact List.mem_append_right before List.mem_cons_self

/-- The keys of entries are those that have a value. -/
theorem mem_keys_iff :
    key ∈ entries.map Prod.fst ↔ ∃ value, entries.lookup key = some value := by
  constructor
  · intro hmem
    obtain ⟨entry, hentry, rfl⟩ := List.mem_map.1 hmem
    refine Option.ne_none_iff_exists'.1 fun hlookup => ?_
    exact absurd rfl (bne_iff_ne.1 (List.lookup_eq_none_iff.1 hlookup entry hentry))
  · rintro ⟨value, hlookup⟩
    exact List.mem_map.2 ⟨_, mem_of_lookup hlookup, rfl⟩

end Lookup

/-! ## What parsing can do -/

namespace EngineOver

variable {σ : Type} [RecencyCache σ String SharedTree]

/-- The engine finds the tree of the formula and becomes `engine'`: the tree is in front. -/
structure Finds (engine : EngineOver σ) (formula : String) (tree : SharedTree)
    (engine' : EngineOver σ) : Prop where
  lookup : engine.entries.lookup formula = some tree
  config : engine'.config = engine.config
  created : engine'.created = engine.created
  capacity : engine'.capacity = engine.capacity
  entries : engine'.entries = toFront engine.entries formula tree

/-- The engine makes the tree of the formula, which it has not kept, and becomes `engine'`: the tree
is in front, and as many others as there is room for. -/
structure Makes (engine : EngineOver σ) (formula : String) (tree : SharedTree)
    (engine' : EngineOver σ) : Prop where
  lookup : engine.entries.lookup formula = none
  parse : FormulaPlot.parse engine.config.maxDepth formula = .ok tree.expr
  id : tree.id = engine.created
  config : engine'.config = engine.config
  created : engine'.created = engine.created + 1
  capacity : engine'.capacity = engine.capacity
  entries : engine'.entries = (toFront engine.entries formula tree).take engine.capacity

theorem answer_parse (engine : EngineOver σ) (formula : String) :
    engine.answer (.parse formula)
      = (.tree (engine.parse formula).1, (engine.parse formula).2) := rfl

section Steps

variable [LawfulRecencyCache σ String SharedTree] (engine : EngineOver σ) {formula : String}

theorem make_cases (h : engine.entries.lookup formula = none) :
    (∃ tree engine', engine.make formula = (.ok tree, engine') ∧ engine.Makes formula tree engine')
      ∨ ∃ error, engine.make formula = (.error error, engine)
        ∧ FormulaPlot.parse engine.config.maxDepth formula = .error error := by
  rw [make]
  cases hparse : FormulaPlot.parse engine.config.maxDepth formula with
  | error error => exact .inr ⟨error, rfl, rfl⟩
  | ok expr =>
    refine .inl ⟨_, _, rfl, h, hparse, rfl, rfl, rfl, ?_, ?_⟩
    · cases hcache : engine.cache with
      | none => rw [capacity, capacity, hcache]; rfl
      | some cache =>
        rw [capacity, capacity, hcache]
        exact LawfulRecencyCache.capacity_put ..
    · cases hcache : engine.cache with
      | none => rw [entries, entries, capacity, hcache]; rfl
      | some cache =>
        rw [entries, entries, capacity, hcache]
        exact LawfulRecencyCache.entries_put ..

/-- **An engine parses in one of three ways**: it finds the formula's tree, it makes one, or it
fails and stays as it is. -/
theorem parse_cases (formula : String) :
    (∃ tree engine', engine.parse formula = (.ok tree, engine')
        ∧ engine.Finds formula tree engine')
      ∨ (∃ tree engine', engine.parse formula = (.ok tree, engine')
        ∧ engine.Makes formula tree engine')
      ∨ ∃ error, engine.parse formula = (.error error, engine)
        ∧ FormulaPlot.parse engine.config.maxDepth formula = .error error := by
  obtain ⟨config, _ | cache, created⟩ := engine
  · exact .inr (make_cases _ rfl)
  · obtain ⟨found, cache', hget⟩ :
        ∃ found cache', RecencyCache.get cache formula = (found, cache') := ⟨_, _, rfl⟩
    have hfound := LawfulRecencyCache.fst_get cache formula
    rw [hget] at hfound
    cases found with
    | some tree =>
      have hentries := LawfulRecencyCache.entries_get hfound.symm
      have hcapacity := LawfulRecencyCache.capacity_get cache formula
      rw [hget] at hentries hcapacity
      refine .inl ⟨tree, ⟨config, some cache', created⟩, ?_, hfound.symm, rfl, rfl, hcapacity,
        hentries⟩
      rw [parse]
      simp only [hget]
    | none =>
      have hsame := LawfulRecencyCache.snd_get_of_none hfound.symm
      rw [hget] at hsame
      subst hsame
      have hmake := make_cases ⟨config, some cache', created⟩ hfound.symm
      rw [parse]
      simp only [hget]
      exact .inr hmake

theorem config_parse (formula : String) : (engine.parse formula).2.config = engine.config := by
  rcases engine.parse_cases formula with
    ⟨tree, engine', heq, hfinds⟩ | ⟨tree, engine', heq, hmakes⟩ | ⟨error, heq, -⟩
  · rw [heq, hfinds.config]
  · rw [heq, hmakes.config]
  · rw [heq]

theorem answer_evaluateFormula (formula : String) (x : Float) :
    engine.answer (.evaluateFormula formula x)
      = (.formulaValue (evaluateParsed engine.config.arithmetic x
            ((engine.parse formula).1.map SharedTree.expr)),
          (engine.parse formula).2) := by
  rw [← engine.config_parse formula]
  rfl

theorem answer_render (block : Block) :
    engine.answer (.render block)
      = (.samples ((engine.parse block.func).1.map fun tree =>
            sample engine.config.arithmetic tree.expr block.domain),
          (engine.parse block.func).2) := by
  rw [← engine.config_parse block.func]
  rfl

theorem config_answer (request : Request) :
    (engine.answer request).2.config = engine.config := by
  cases request with
  | parse formula => exact engine.config_parse formula
  | evaluateFormula formula x => exact engine.config_parse formula
  | evaluate tree x => rfl
  | render block => exact engine.config_parse block.func

end Steps

/-! ## Coherent engines -/

/-- Every kept tree is what its formula parses to. -/
def IsCoherent (engine : EngineOver σ) : Prop :=
  ∀ entry ∈ engine.entries,
    FormulaPlot.parse engine.config.maxDepth entry.1 = .ok entry.2.expr

/-- An engine that keeps no more than the old trees and one that its formula parses to. -/
theorem IsCoherent.of_toFront {engine engine' : EngineOver σ} (h : engine.IsCoherent)
    {formula : String} {tree : SharedTree} (hconfig : engine'.config = engine.config)
    (htree : FormulaPlot.parse engine.config.maxDepth formula = .ok tree.expr)
    (hentries : ∀ entry ∈ engine'.entries, entry ∈ toFront engine.entries formula tree) :
    engine'.IsCoherent := by
  intro entry hentry
  rw [hconfig]
  rcases mem_toFront (hentries entry hentry) with rfl | ⟨hmem, -⟩
  · exact htree
  · exact h entry hmem

variable [LawfulRecencyCache σ String SharedTree]

theorem entries_new (config : Config) : (new σ config).entries = [] := by
  rw [entries, new]
  split
  · rfl
  · next h => exact LawfulRecencyCache.entries_empty (Nat.pos_of_ne_zero h)

theorem isCoherent_new (config : Config) : (new σ config).IsCoherent := by
  rw [IsCoherent, entries_new]
  exact List.forall_mem_nil _

section Coherent

variable {engine : EngineOver σ} (h : engine.IsCoherent)
include h

/-- **A coherent engine parses as if it kept nothing.** -/
theorem IsCoherent.expr_parse (formula : String) :
    (engine.parse formula).1.map SharedTree.expr
      = FormulaPlot.parse engine.config.maxDepth formula := by
  rcases engine.parse_cases formula with
    ⟨tree, engine', heq, hfinds⟩ | ⟨tree, engine', heq, hmakes⟩ | ⟨error, heq, hparse⟩
  · rw [heq, h _ (mem_of_lookup hfinds.lookup)]
    rfl
  · rw [heq, hmakes.parse]
    rfl
  · rw [heq, hparse]
    rfl

/-- **Parsing keeps an engine coherent**, whether it finds a tree, makes one or fails. -/
theorem IsCoherent.parse (formula : String) : (engine.parse formula).2.IsCoherent := by
  rcases engine.parse_cases formula with
    ⟨tree, engine', heq, hfinds⟩ | ⟨tree, engine', heq, hmakes⟩ | ⟨error, heq, -⟩
  · rw [heq]
    exact h.of_toFront hfinds.config (h _ (mem_of_lookup hfinds.lookup)) fun entry hentry =>
      hfinds.entries ▸ hentry
  · rw [heq]
    exact h.of_toFront hmakes.config hmakes.parse fun entry hentry =>
      List.mem_of_mem_take (hmakes.entries ▸ hentry)
  · rw [heq]
    exact h

/-- **So does every request.** -/
theorem IsCoherent.answer (request : Request) : (engine.answer request).2.IsCoherent := by
  cases request with
  | parse formula => exact h.parse formula
  | evaluateFormula formula x => exact h.parse formula
  | evaluate tree x => exact h
  | render block => exact h.parse block.func

/-- **A coherent engine answers as its configuration says.** -/
theorem IsCoherent.unnumbered_answer (request : Request) :
    (engine.answer request).1.unnumbered = engine.config.answer request := by
  cases request with
  | parse formula =>
    rw [answer_parse, Config.answer, ← h.expr_parse]
    cases (engine.parse formula).1 <;> rfl
  | evaluateFormula formula x =>
    rw [answer_evaluateFormula, Config.answer, h.expr_parse]
    rfl
  | evaluate tree x => rfl
  | render block =>
    rw [answer_render, Config.answer, ← h.expr_parse]
    cases (engine.parse block.func).1 <;> rfl

/-- **A coherent engine answers every request of a session** as its configuration says. -/
theorem IsCoherent.unnumbered_run (requests : List Request) :
    (engine.run requests).1.map Answer.unnumbered = requests.map engine.config.answer
      ∧ (engine.run requests).2.IsCoherent
      ∧ (engine.run requests).2.config = engine.config := by
  induction requests generalizing engine with
  | nil => exact ⟨rfl, h, rfl⟩
  | cons request requests ih =>
    obtain ⟨hanswers, hcoherent, hconfig⟩ := ih (h.answer request)
    rw [config_answer] at hanswers hconfig
    refine ⟨?_, hcoherent, hconfig⟩
    show (engine.answer request).1.unnumbered :: _ = _
    rw [h.unnumbered_answer, List.map_cons]
    exact congrArg _ hanswers

end Coherent

end EngineOver

/-! ## Sessions -/

/-- **The cache is transparent**, whatever cache it is: in every session each request is answered,
up to the numbers of trees, as by a new engine that keeps nothing; and under the default depth and
arithmetic a formula's value is what evaluating it on its own gives. -/
theorem run_eq_uncached {σ : Type} [RecencyCache σ String SharedTree]
    [LawfulRecencyCache σ String SharedTree] (config : Config) (requests : List Request) :
    ((EngineOver.new σ config).run requests).1.map Answer.unnumbered
        = requests.map (fun request =>
            ((EngineOver.new σ { config with cacheSize := 0 }).answer request).1.unnumbered)
      ∧ ∀ (cacheSize : Nat) (formula : String) (x : Float),
        ((((EngineOver.new σ { cacheSize := cacheSize }).run requests).2).answer
            (.evaluateFormula formula x)).1
          = .formulaValue (evaluateFormula formula x) := by
  constructor
  · rw [((EngineOver.isCoherent_new config).unnumbered_run requests).1]
    refine List.map_congr_left fun request _ => ?_
    rw [(EngineOver.isCoherent_new _).unnumbered_answer]
    cases request <;> rfl
  · intro cacheSize formula x
    obtain ⟨-, hcoherent, hconfig⟩ :=
      (EngineOver.isCoherent_new (σ := σ) { cacheSize := cacheSize }).unnumbered_run requests
    have hanswer := hcoherent.unnumbered_answer (.evaluateFormula formula x)
    rw [hconfig] at hanswer
    exact hanswer

/-- In a list with room for one tree, `x` is found, makes room for `y` and is made anew; but that
does not show. -/
theorem run_eq_uncached_evicted :
    let requests : List Request := [.parse "x", .evaluateFormula "x" 2, .parse "y", .parse "x"]
    ((Engine.new { cacheSize := 1 }).run requests).1.map Answer.unnumbered
        = [.tree (.ok ⟨0, .identifier "x"⟩), .formulaValue (.ok 2),
          .tree (.ok ⟨0, .identifier "y"⟩), .tree (.ok ⟨0, .identifier "x"⟩)]
      ∧ (((Engine.new { cacheSize := 1 }).run requests).2.answer (.evaluateFormula "x" 2)).1
        = .formulaValue (evaluateFormula "x" 2) := by
  intro requests
  obtain ⟨hanswers, -⟩ :=
    run_eq_uncached (σ := Cache String SharedTree) { cacheSize := 1 } requests
  obtain ⟨-, hvalue⟩ := run_eq_uncached (σ := Cache String SharedTree) {} requests
  exact ⟨hanswers, hvalue 1 "x" 2⟩

end FormulaPlot
