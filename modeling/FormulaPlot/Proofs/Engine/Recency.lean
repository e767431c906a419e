import FormulaPlot.Proofs.Engine.Transparency

/-!
# Proofs/Engine/Recency — the cache keeps what was asked for last

A session serves the formulas that parse, each with a tree (`EngineOver.trace`); the other requests
leave the engine as it is.  What a lawful cache keeps is a function of the trace
(`EngineOver.Follows`): of the distinct formulas, the most recent first, as many as fit, each with
the tree it was served with last.  A formula that is kept is served that tree again, any other one
a tree with a number never seen before (`cache_follows_history`).
-/

namespace FormulaPlot

/-! ## Distinct keys -/

section Recent

variable {κ : Type} [DecidableEq κ]

/-- The distinct keys of a list, in the order in which they come first. -/
def recent : List κ → List κ
  | [] => []
  | key :: keys => key :: (recent keys).filter (· ≠ key)

example : recent ["x", "y", "x", "z", "y"] = ["x", "y", "z"] := by decide

theorem nodup_recent (keys : List κ) : (recent keys).Nodup := by
  induction keys with
  | nil => exact .nil
  | cons key keys ih =>
    refine List.nodup_cons.2 ⟨fun hmem => ?_, ih.filter _⟩
    exact absurd rfl (of_decide_eq_true (List.mem_filter.1 hmem).2)

/-- To find the first `n` keys without `key`, of distinct ones, `n + 1` are enough. -/
theorem take_filter_take {keys : List κ} (h : keys.Nodup) (key : κ) (n : Nat) :
    ((keys.take (n + 1)).filter (· ≠ key)).take n = (keys.filter (· ≠ key)).take n := by
  induction keys generalizing n with
  | nil => rfl
  | cons a keys ih =>
    obtain ⟨ha, hkeys⟩ := List.nodup_cons.1 h
    by_cases hkey : a = key
    · -- The filter drops `a` alone, the one key that was taken too many.
      have hall {l : List κ} (hl : ∀ b ∈ l, b ∈ keys) : l.filter (· ≠ key) = l := by
        refine List.filter_eq_self.2 fun b hb => decide_eq_true ?_
        rintro rfl
        exact ha (hkey ▸ hl b hb)
      have hdrop (l : List κ) : (a :: l).filter (· ≠ key) = l.filter (· ≠ key) :=
        List.filter_cons_of_neg (by simp [hkey])
      rw [List.take_succ_cons, hdrop, hdrop, hall fun b hb => List.mem_of_mem_take hb,
        hall fun b hb => hb, List.take_take, Nat.min_self]
    · have hkeep (l : List κ) : (a :: l).filter (· ≠ key) = a :: l.filter (· ≠ key) :=
        List.filter_cons_of_pos (decide_eq_true hkey)
      rw [List.take_succ_cons, hkeep, hkeep]
      cases n with
      | zero => rfl
      | succ n => rw [List.take_succ_cons, List.take_succ_cons, ih hkeys]

/-- **One more key** in front of the most recent ones. -/
theorem take_recent_cons (keys : List κ) (key : κ) (n : Nat) :
    (recent (key :: keys)).take n = (key :: ((recent keys).take n).filter (· ≠ key)).take n := by
  cases n with
  | zero => rfl
  | succ n =>
    rw [recent, List.take_succ_cons, List.take_succ_cons, take_filter_take (nodup_recent keys)]

/-- If it is one of them, none has to go. -/
theorem take_recent_cons_of_mem {keys : List κ} {key : κ} {n : Nat}
    (h : key ∈ (recent keys).take n) :
    (recent (key :: keys)).take n = key :: ((recent keys).take n).filter (· ≠ key) := by
  have hfewer : (((recent keys).take n).filter (· ≠ key)).length < ((recent keys).take n).length :=
    List.length_filter_lt_length_iff_exists.2 ⟨key, h, by simp⟩
  have hroom : ((recent keys).take n).length ≤ n := List.length_take_le _ _
  rw [take_recent_cons, List.take_of_length_le (by rw [List.length_cons]; omega)]

end Recent

/-! ## What a session serves -/

/-- The formula that a request asks for. -/
def Request.formula? : Request → Option String
  | .parse formula => some formula
  | .evaluateFormula formula _ => some formula
  | .evaluate _ _ => none
  | .render block => some block.func

/-- The formulas of a session that parse, in the order of the requests for them. -/
def parsable (limit : Nat) (requests : List Request) : List String :=
  (requests.filterMap Request.formula?).filter fun formula => (parse limit formula).isOk

theorem parsable_append (limit : Nat) (requests requests' : List Request) :
    parsable limit (requests ++ requests')
      = parsable limit requests ++ parsable limit requests' := by
  rw [parsable, List.filterMap_append, List.filter_append]
  rfl

namespace EngineOver

variable {σ : Type} [RecencyCache σ String SharedTree]

/-- The formula that a request asks for and the tree that it is served with, unless it fails. -/
def serve (engine : EngineOver σ) (request : Request) : Option (String × SharedTree) :=
  request.formula?.bind fun formula => (engine.parse formula).1.toOption.map (formula, ·)

/-- The formulas that a session serves, each with its tree, in the order of the requests. -/
def trace (engine : EngineOver σ) : List Request → List (String × SharedTree)
  | [] => []
  | request :: requests =>
    (engine.serve request).toList ++ (engine.answer request).2.trace requests

/-! ## The invariant -/

/-- An engine keeps what a trace says: the most recent formulas, each with the tree that it was
served with last, and it gave out the numbers of these trees before. -/
structure Follows (engine : EngineOver σ) (trace : List (String × SharedTree)) : Prop where
  capacity : engine.capacity = engine.config.cacheSize
  keys : engine.keys = (recent (trace.map Prod.fst).reverse).take engine.config.cacheSize
  last : ∀ entry ∈ engine.entries, trace.reverse.lookup entry.1 = some entry.2
  numbers : ∀ entry ∈ trace, entry.2.id < engine.created

section Invariant

variable {engine : EngineOver σ} {trace : List (String × SharedTree)} (h : engine.Follows trace)
include h

/-- A tree that is found is the one that its formula was served with last. -/
theorem Follows.of_lookup {formula : String} {tree : SharedTree}
    (hlookup : engine.entries.lookup formula = some tree) :
    trace.reverse.lookup formula = some tree ∧ tree.id < engine.created := by
  have hlast := h.last _ (mem_of_lookup hlookup)
  exact ⟨hlast, h.numbers _ (List.mem_reverse.1 (mem_of_lookup hlast))⟩

/-- A formula served with a tree ends the trace. -/
theorem Follows.of_toFront {engine' : EngineOver σ} {formula : String} {tree : SharedTree}
    (hconfig : engine'.config = engine.config) (hcapacity : engine'.capacity = engine.capacity)
    (hkeys : engine'.keys
      = (recent (formula :: (trace.map Prod.fst).reverse)).take engine.config.cacheSize)
    (hentries : ∀ entry ∈ engine'.entries, entry ∈ toFront engine.entries formula tree)
    (hcreated : engine.created ≤ engine'.created) (hid : tree.id < engine'.created) :
    engine'.Follows (trace ++ [(formula, tree)]) where
  capacity := by rw [hcapacity, hconfig, h.capacity]
  keys := by
    rw [hkeys, hconfig, List.map_append, List.reverse_append]
    rfl
  last := by
    intro entry hentry
    rw [List.reverse_append, List.reverse_singleton, List.singleton_append]
    rcases mem_toFront (hentries entry hentry) with rfl | ⟨hmem, hne⟩
    · exact List.lookup_cons_self
    · rw [List.lookup_cons, beq_false_of_ne hne]
      exact h.last entry hmem
  numbers := by
    intro entry hentry
    rcases List.mem_append.1 hentry with hentry | hentry
    · exact Nat.lt_of_lt_of_le (h.numbers entry hentry) hcreated
    · rw [List.mem_singleton.1 hentry]
      exact hid

/-- **Finding a tree** follows the trace. -/
theorem Follows.of_finds {engine' : EngineOver σ} {formula : String} {tree : SharedTree}
    (hfinds : engine.Finds formula tree engine') :
    engine'.Follows (trace ++ [(formula, tree)]) := by
  -- No number is given out, and the one of the kept tree is in the trace already.
  have hid : tree.id < engine'.created := hfinds.created ▸ (h.of_lookup hfinds.lookup).2
  have hmem : formula ∈ engine.keys := mem_keys_iff.2 ⟨tree, hfinds.lookup⟩
  refine h.of_toFront hfinds.config hfinds.capacity ?_ (fun _ hentry => hfinds.entries ▸ hentry)
    (Nat.le_of_eq hfinds.created.symm) hid
  rw [h.keys] at hmem
  rw [take_recent_cons_of_mem hmem, ← h.keys, EngineOver.keys, hfinds.entries,
    keys_toFront, EngineOver.keys]

/-- **So does making one.** -/
theorem Follows.of_makes {engine' : EngineOver σ} {formula : String} {tree : SharedTree}
    (hmakes : engine.Makes formula tree engine') :
    engine'.Follows (trace ++ [(formula, tree)]) := by
  have hid : tree.id < engine'.created := by
    rw [hmakes.id, hmakes.created]
    exact Nat.lt_succ_self _
  refine h.of_toFront hmakes.config hmakes.capacity ?_
    (fun _ hentry => List.mem_of_mem_take (hmakes.entries ▸ hentry))
    (hmakes.created ▸ Nat.le_succ _) hid
  rw [take_recent_cons, ← h.keys, EngineOver.keys, hmakes.entries, List.map_take, keys_toFront,
    h.capacity, EngineOver.keys]

end Invariant

/-! ## What a request does -/

theorem snd_answer (engine : EngineOver σ) (request : Request) :
    (engine.answer request).2
      = request.formula?.elim engine fun formula => (engine.parse formula).2 := by
  cases request <;> rfl

variable [LawfulRecencyCache σ String SharedTree]

theorem follows_new (config : Config) : (new σ config).Follows [] where
  capacity := by
    rw [capacity, new]
    split
    · next h => exact h.symm
    · next h => exact LawfulRecencyCache.capacity_empty (Nat.pos_of_ne_zero h)
  keys := by
    rw [keys, entries_new]
    exact List.take_nil.symm
  last := by
    rw [entries_new]
    exact List.forall_mem_nil _
  numbers := List.forall_mem_nil _

/-- **A request is served or changes nothing.** -/
theorem serve_cases (engine : EngineOver σ) (request : Request) :
    (∃ formula tree, request.formula? = some formula
        ∧ engine.serve request = some (formula, tree)
        ∧ engine.parse formula = (.ok tree, (engine.answer request).2))
      ∨ (engine.serve request = none ∧ (engine.answer request).2 = engine) := by
  rw [snd_answer, serve]
  cases hformula : request.formula? with
  | none => exact .inr ⟨rfl, rfl⟩
  | some formula =>
    rw [Option.bind_some, Option.elim_some]
    rcases engine.parse_cases formula with
      ⟨tree, engine', heq, -⟩ | ⟨tree, engine', heq, -⟩ | ⟨error, heq, -⟩
    · exact .inl ⟨formula, tree, rfl, by rw [heq]; rfl, by rw [heq]⟩
    · exact .inl ⟨formula, tree, rfl, by rw [heq]; rfl, by rw [heq]⟩
    · exact .inr ⟨by rw [heq]; rfl, by rw [heq]⟩

theorem parse_of_serve {engine : EngineOver σ} {request : Request} {entry : String × SharedTree}
    (h : engine.serve request = some entry) :
    ∃ formula tree, entry = (formula, tree) ∧ (engine.parse formula).1 = .ok tree := by
  rcases engine.serve_cases request with ⟨formula, tree, -, hserve, hparse⟩ | ⟨hserve, -⟩
  · rw [hserve] at h
    cases h
    exact ⟨formula, tree, rfl, by rw [hparse]⟩
  · rw [hserve] at h
    cases h

/-- **A request for a formula that does not parse changes nothing**, nor does one for no formula. -/
theorem IsCoherent.snd_answer_of_error {engine : EngineOver σ} (h : engine.IsCoherent)
    {request : Request} (herror : ∀ formula, request.formula? = some formula →
      ∃ error, FormulaPlot.parse engine.config.maxDepth formula = .error error) :
    (engine.answer request).2 = engine := by
  rcases engine.serve_cases request with ⟨formula, tree, hformula, -, hparse⟩ | ⟨-, hengine⟩
  · obtain ⟨error, herror⟩ := herror formula hformula
    have hexpr := h.expr_parse formula
    rw [hparse, herror] at hexpr
    cases hexpr
  · exact hengine

/-- A coherent engine serves the formulas that parse. -/
theorem IsCoherent.fst_serve {engine : EngineOver σ} (h : engine.IsCoherent) (request : Request) :
    (engine.serve request).toList.map Prod.fst = parsable engine.config.maxDepth [request] := by
  rw [serve]
  cases hformula : request.formula? with
  | none => rw [parsable, List.filterMap_cons_none hformula]; rfl
  | some formula =>
    have hexpr := h.expr_parse formula
    rw [parsable, List.filterMap_cons_some hformula, Option.bind_some]
    rw [List.filter_cons, ← hexpr]
    cases (engine.parse formula).1 <;> rfl

theorem IsCoherent.fst_trace {engine : EngineOver σ} (h : engine.IsCoherent)
    (requests : List Request) :
    (engine.trace requests).map Prod.fst = parsable engine.config.maxDepth requests := by
  induction requests generalizing engine with
  | nil => rfl
  | cons request requests ih =>
    rw [trace, List.map_append, h.fst_serve, ih (h.answer request), config_answer,
      ← parsable_append]
    rfl

/-! ## The step and the run -/

section Follows

variable {engine : EngineOver σ} {trace : List (String × SharedTree)} (h : engine.Follows trace)
include h

/-- **So does every request**, served or not. -/
theorem Follows.answer (request : Request) :
    (engine.answer request).2.Follows (trace ++ (engine.serve request).toList) := by
  rcases engine.serve_cases request with ⟨formula, tree, -, hserve, hparse⟩ | ⟨hserve, hengine⟩
  · rw [hserve]
    rcases engine.parse_cases formula with
      ⟨tree', engine', heq, hfinds⟩ | ⟨tree', engine', heq, hmakes⟩ | ⟨error, heq, -⟩
    · obtain ⟨htree, rfl⟩ := Prod.mk.inj (heq.symm.trans hparse)
      obtain rfl := Except.ok.inj htree
      exact h.of_finds hfinds
    · obtain ⟨htree, rfl⟩ := Prod.mk.inj (heq.symm.trans hparse)
      obtain rfl := Except.ok.inj htree
      exact h.of_makes hmakes
    · cases heq.symm.trans hparse
  · rw [hserve, hengine, Option.toList_none, List.append_nil]
    exact h

/-- **A session follows its trace.** -/
theorem Follows.run (requests : List Request) :
    (engine.run requests).2.Follows (trace ++ engine.trace requests) := by
  induction requests generalizing engine trace with
  | nil =>
    rw [EngineOver.trace, List.append_nil]
    exact h
  | cons request requests ih =>
    have hrun := ih (h.answer request)
    rw [List.append_assoc] at hrun
    exact hrun

/-- **A formula is served the tree that is kept**, or else one with a number never seen before. -/
theorem Follows.tree_parse {formula : String} {tree : SharedTree}
    (hparse : (engine.parse formula).1 = .ok tree) :
    (formula ∈ engine.keys ∧ trace.reverse.lookup formula = some tree)
      ∨ (formula ∉ engine.keys ∧ ∀ entry ∈ trace, entry.2.id ≠ tree.id) := by
  rcases engine.parse_cases formula with
    ⟨tree', engine', heq, hfinds⟩ | ⟨tree', engine', heq, hmakes⟩ | ⟨error, heq, -⟩
  · rw [heq] at hparse
    obtain rfl := Except.ok.inj hparse
    exact .inl ⟨mem_keys_iff.2 ⟨_, hfinds.lookup⟩, (h.of_lookup hfinds.lookup).1⟩
  · rw [heq] at hparse
    obtain rfl := Except.ok.inj hparse
    refine .inr ⟨fun hmem => ?_, fun entry hentry => ?_⟩
    · obtain ⟨kept, hkept⟩ := mem_keys_iff.1 hmem
      cases hmakes.lookup.symm.trans hkept
    · exact Nat.ne_of_lt (hmakes.id ▸ h.numbers entry hentry)
  · rw [heq] at hparse
    cases hparse

end Follows

end EngineOver

/-! ## Sessions -/

/-- **The cache follows the history of a session**, whatever the requests and the cache.

It keeps the formulas that were asked for last and parse, the most recent first, each once, as many
as fit.  A formula is answered the tree of the last request for it exactly when it is kept, and a
new one otherwise.  A request that does not parse changes nothing, and a cache that keeps nothing
shares no tree. -/
theorem cache_follows_history {σ : Type} [RecencyCache σ String SharedTree]
    [LawfulRecencyCache σ String SharedTree] (config : Config) (requests : List Request) :
    let engine := ((EngineOver.new σ config).run requests).2
    let trace := (EngineOver.new σ config).trace requests
    let served := parsable config.maxDepth requests
    trace.map Prod.fst = served
      ∧ engine.keys = (recent served.reverse).take config.cacheSize
      ∧ engine.keys.length ≤ config.cacheSize
      ∧ engine.keys.Nodup
      ∧ (∀ formula tree, (engine.answer (.parse formula)).1 = .tree (.ok tree) →
        (formula ∈ engine.keys
            ↔ ∃ previous, trace.reverse.lookup formula = some previous ∧ previous.id = tree.id)
          ∧ (formula ∈ engine.keys → trace.reverse.lookup formula = some tree)
          ∧ (formula ∉ engine.keys → ∀ entry ∈ trace, entry.2.id ≠ tree.id))
      ∧ (∀ request : Request, (∀ formula, request.formula? = some formula →
            ∃ error, parse config.maxDepth formula = .error error) →
        (engine.answer request).2 = engine)
      ∧ (config.cacheSize = 0 → ∀ request entry, engine.serve request = some entry →
        ∀ earlier ∈ trace, earlier.2.id ≠ entry.2.id) := by
  intro engine trace served
  have hfollows : engine.Follows trace := (EngineOver.follows_new config).run requests
  have hcoherent : engine.IsCoherent :=
    ((EngineOver.isCoherent_new config).unnumbered_run requests).2.1
  have hconfig : engine.config = config :=
    ((EngineOver.isCoherent_new config).unnumbered_run requests).2.2
  have hserved : trace.map Prod.fst = served :=
    (EngineOver.isCoherent_new config).fst_trace requests
  have hkeys : engine.keys = (recent served.reverse).take config.cacheSize := by
    rw [hfollows.keys, hserved, hconfig]
  have hlength : engine.keys.length ≤ config.cacheSize := by
    rw [hkeys]
    exact List.length_take_le _ _
  refine ⟨hserved, hkeys, hlength, ?_, ?_, ?_, ?_⟩
  · rw [hkeys]
    exact (nodup_recent _).sublist (List.take_sublist _ _)
  · intro formula tree hanswer
    have hparse : (engine.parse formula).1 = .ok tree := Answer.tree.inj hanswer
    rcases hfollows.tree_parse hparse with ⟨hmem, hlast⟩ | ⟨hmem, hnew⟩
    · exact ⟨⟨fun _ => ⟨tree, hlast, rfl⟩, fun _ => hmem⟩, fun _ => hlast, absurd hmem⟩
    · refine ⟨⟨fun hkept => absurd hkept hmem, ?_⟩, fun hkept => absurd hkept hmem, fun _ => hnew⟩
      rintro ⟨previous, hprevious, hid⟩
      exact absurd hid (hnew _ (List.mem_reverse.1 (mem_of_lookup hprevious)))
  · intro request herror
    exact hcoherent.snd_answer_of_error (hconfig ▸ herror)
  · intro hzero request entry hserve
    obtain ⟨formula, tree, rfl, hparse⟩ := EngineOver.parse_of_serve hserve
    rcases hfollows.tree_parse hparse with ⟨hmem, -⟩ | ⟨-, hnew⟩
    · rw [hkeys, hzero] at hmem
      cases hmem
    · exact hnew

/-- In a cache for two, `y` makes room: asked for again it gets a new tree, and `x` the old one. -/
theorem cache_follows_history_evicted :
    let requests : List Request :=
      [.parse "x", .parse "y", .parse "x)", .evaluateFormula "x" 0, .parse "z"]
    let engine := ((Engine.new { cacheSize := 2 }).run requests).2
    let trace := (Engine.new { cacheSize := 2 }).trace requests
    engine.keys = ["z", "x"]
      ∧ (engine.answer (.parse "x")).1 = .tree (.ok ⟨0, .identifier "x"⟩)
      ∧ trace.reverse.lookup "x" = some ⟨0, .identifier "x"⟩
      ∧ (engine.answer (.parse "y")).1 = .tree (.ok ⟨3, .identifier "y"⟩)
      ∧ (∀ entry ∈ trace, entry.2.id ≠ 3)
      ∧ (engine.answer (.parse "x)")).2 = engine := by
  intro requests engine trace
  obtain ⟨-, hkeys, -, -, hparse, herror, -⟩ :=
    cache_follows_history (σ := Cache String SharedTree) { cacheSize := 2 } requests
  have hx : (engine.answer (.parse "x")).1 = .tree (.ok ⟨0, .identifier "x"⟩) := rfl
  have hy : (engine.answer (.parse "y")).1 = .tree (.ok ⟨3, .identifier "y"⟩) := rfl
  have hserved : parsable 256 requests = ["x", "y", "x", "z"] := rfl
  have hkept : engine.keys = ["z", "x"] := hkeys.trans (by rw [hserved]; rfl)
  have hmem : "x" ∈ engine.keys := by
    rw [hkept]
    decide
  have hgone : "y" ∉ engine.keys := by
    rw [hkept]
    decide
  refine ⟨hkept, hx, (hparse "x" _ hx).2.1 hmem, hy, (hparse "y" _ hy).2.2 hgone, ?_⟩
  refine herror _ fun formula hformula => ?_
  obtain rfl := Option.some.inj hformula
  exact ⟨_, rfl⟩

end FormulaPlot
