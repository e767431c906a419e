import FormulaPlot.Plot.Sample

/-!
# Proofs/Plot/Samples — one worker or many, the samples are the same

Going through the points one after the other is a loop over a place in their sequence; several
workers share the indices out and put each sample at its index.  Both come to the same table, the
samples at `0, 1, …` in order:

* `Points.toList_collect` — the loop gives what `f` makes of the points from its place on;
* `Parallel.arrange_labelled` — values that come with their indices are in order when all are there,
  whatever order they came in;
* `sample_eq_in_any_order` — so any order of work samples alike, and so does any number of workers.
-/

namespace FormulaPlot

/-! ## One after the other -/

namespace Points

variable {α : Type} (f : Float → α)

theorem next_of_lt {p : Points} (h : p.index < p.domain.division) :
    p.next = (some (p.domain.point p.index), { p with index := p.index + 1 }) := if_pos h

theorem next_of_le {p : Points} (h : p.domain.division ≤ p.index) : p.next = (none, p) :=
  if_neg (Nat.not_lt.2 h)

theorem collect_of_lt {p : Points} (h : p.index < p.domain.division) (made : Array α) :
    p.collect f made
      = collect f { p with index := p.index + 1 } (made.push (f (p.domain.point p.index))) := by
  rw [collect]
  split
  · next x p' hnext =>
    obtain ⟨hx, rfl⟩ := Prod.mk.inj ((next_of_lt h).symm.trans hnext)
    rw [Option.some.inj hx]
  · next hnext => cases (Prod.mk.inj ((next_of_lt h).symm.trans hnext)).1

theorem collect_of_le {p : Points} (h : p.domain.division ≤ p.index) (made : Array α) :
    p.collect f made = made := by
  rw [collect]
  split
  · next hnext => cases (Prod.mk.inj ((next_of_le h).symm.trans hnext)).1
  · rfl

/-- **The loop goes through the points that are left**, in order, and stops behind the last. -/
theorem toList_collect (p : Points) (made : Array α) :
    (p.collect f made).toList
      = made.toList
        ++ (List.range' p.index p.length).map fun i => f (p.domain.point i) := by
  obtain ⟨d, i⟩ := p
  show (collect f ⟨d, i⟩ made).toList
    = made.toList ++ (List.range' i (d.division - i)).map fun i => f (d.point i)
  -- The number of points that are left counts the rounds.
  induction hleft : d.division - i generalizing i made with
  | zero =>
    rw [collect_of_le f (Nat.le_of_sub_eq_zero hleft)]
    exact (List.append_nil _).symm
  | succ n ih =>
    have hlt : i < d.division := by omega
    rw [collect_of_lt f hlt, ih _ (i + 1) (by omega), Array.toList_push, List.append_assoc,
      List.range'_succ, List.map_cons]
    rfl

end Points

/-! ## At once -/

namespace Parallel

variable {α : Type} (f : Nat → α)

/-- **What is in the slots** after some arrivals: the values of the indices that arrived, and what
was there before in the others. -/
theorem getElem?_foldl_labelled (indices : List Nat) (slots : Array (Option α)) (i : Nat) :
    ((labelled f indices).foldl (fun slots a => slots.setIfInBounds a.1 (some a.2)) slots)[i]?
      = if i ∈ indices ∧ i < slots.size then some (some (f i)) else slots[i]? := by
  induction indices generalizing slots with
  | nil => simp [labelled]
  | cons j indices ih =>
    rw [labelled, List.map_cons, List.foldl_cons, ← labelled, ih, Array.size_setIfInBounds,
      Array.getElem?_setIfInBounds]
    by_cases hj : j = i
    · subst hj
      by_cases hlt : j < slots.size <;> simp [hlt]
    · have hne : i ≠ j := Ne.symm hj
      simp [hj, hne]

/-- **The order of arrival does not matter**, as long as every index arrives. -/
theorem arrange_labelled {indices : List Nat} {n : Nat} (h : ∀ i < n, i ∈ indices) :
    arrange n (labelled f indices) = (List.range n).map f := by
  have hslots : (labelled f indices).foldl (fun slots a => slots.setIfInBounds a.1 (some a.2))
      (Array.replicate n none) = ((List.range n).map fun i => some (f i)).toArray := by
    refine Array.ext_getElem? fun i => ?_
    rw [getElem?_foldl_labelled, Array.size_replicate]
    by_cases hlt : i < n
    · simp [h i hlt, hlt]
    · simp [hlt]
  rw [arrange, hslots, List.filterMap_map]
  exact congrFun List.filterMap_eq_map' _

theorem tabulateInOrder_eq {order : List Nat} {n : Nat} (h : order.Perm (List.range n)) :
    tabulateInOrder order n f = (List.range n).map f :=
  arrange_labelled f fun _ hi => h.mem_iff.2 (List.mem_range.2 hi)

/-- Every index falls to some worker. -/
theorem mem_shares {workers n i : Nat} (hworkers : 0 < workers) (hi : i < n) :
    i ∈ (List.range workers).flatMap (share workers n) :=
  List.mem_flatMap.2 ⟨i % workers, List.mem_range.2 (Nat.mod_lt i hworkers),
    List.mem_filter.2 ⟨List.mem_range.2 hi, decide_eq_true rfl⟩⟩

theorem tabulate_eq {workers : Nat} (hworkers : 0 < workers) (n : Nat) :
    tabulate workers n f = (List.range n).map f := by
  rw [tabulate_eq_inOrder]
  exact arrange_labelled f fun _ hi => mem_shares hworkers hi

end Parallel

/-! ## Samples -/

theorem sample_eq_map (ar : Arithmetic) (e : Expr) (d : Domain) :
    sample ar e d = (List.range d.division).map fun i => sampleAt ar e (d.point i) := by
  rw [sample, Points.toList_collect, List.range_eq_range']
  rfl

/-- **Sampling in order and at once agree**, on any domain whatsoever.  There is one sample for each
division; the sample of index `k` is the point there and the value of the tree, or `0` where it has
none; and every order of work that does each index once gives the same samples in the same places,
and so does sharing the indices out among any number of workers. -/
theorem sample_eq_in_any_order (ar : Arithmetic) (e : Expr) (d : Domain) :
    (sample ar e d).length = d.division
      ∧ (∀ k < d.division, (sample ar e d)[k]?
        = some ⟨d.point k, (e.evaluate ar (d.point k)).toOption.getD 0⟩)
      ∧ (∀ order : List Nat, order.Perm (List.range d.division) →
        Parallel.tabulateInOrder order d.division (fun i => sampleAt ar e (d.point i))
          = sample ar e d)
      ∧ ∀ workers, 0 < workers → sampleParallel workers ar e d = sample ar e d := by
  rw [sample_eq_map]
  refine ⟨?_, fun k hk => ?_, fun order horder => ?_, fun workers hworkers => ?_⟩
  · rw [List.length_map, List.length_range]
  · rw [List.getElem?_map, List.getElem?_range hk, Option.map_some, sampleAt]
    cases e.evaluate ar (d.point k) <;> rfl
  · exact Parallel.tabulateInOrder_eq _ horder
  · exact Parallel.tabulate_eq _ hworkers _

/-- A domain with its ends exchanged, its points done from the outside in: where the tree is a
function's name, and has no value, the samples are `0`. -/
theorem sample_eq_in_any_order_exchanged :
    let d : Domain := ⟨2, -2, 4⟩
    let double : Expr := .node .mul (.literal 2) (.identifier "x")
    [3, 0, 2, 1].Perm (List.range 4)
      ∧ Parallel.tabulateInOrder [3, 0, 2, 1] 4 (fun i => sampleAt {} double (d.point i))
        = sample {} double d
      ∧ sampleParallel 3 {} double d = sample {} double d
      ∧ (sample {} double d)[1]? = some ⟨1, 2⟩
      ∧ (sample {} (.identifier "sin") d)[1]? = some ⟨1, 0⟩ := by
  intro d double
  have horder : [3, 0, 2, 1].Perm (List.range 4) := by decide
  obtain ⟨-, hvalues, horders, hworkers⟩ := sample_eq_in_any_order {} double d
  obtain ⟨-, hmissing, -⟩ := sample_eq_in_any_order {} (.identifier "sin") d
  refine ⟨horder, horders _ horder, hworkers 3 (by decide), ?_, ?_⟩
  · rw [hvalues 1 (by decide)]
    decide
  · rw [hmissing 1 (by decide)]
    decide

end FormulaPlot
