/-!
# Plot/Parallel — a table filled by several workers

`tabulate` lists the values of a function at `0, 1, …, n - 1`, with the work shared out among
workers.  Each value comes with its index, so the order in which the values arrive does not matter:
`arrange` puts every value at its index.
-/

namespace FormulaPlot.Parallel

/-- The values that arrived, put at their indices below `n`; an index without a value is left
out. -/
def arrange {α : Type} (n : Nat) (arrivals : List (Nat × α)) : List α :=
  (arrivals.foldl (fun slots a => slots.setIfInBounds a.1 (some a.2))
    (Array.replicate n none)).toList.filterMap id

/-- The values at the listed indices, each with its index. -/
def labelled {α : Type} (f : Nat → α) (indices : List Nat) : List (Nat × α) :=
  indices.map fun i => (i, f i)

/-- The values at `0, 1, …, n - 1`, computed in the listed order. -/
def tabulateInOrder {α : Type} (order : List Nat) (n : Nat) (f : Nat → α) : List α :=
  arrange n (labelled f order)

/-- The indices below `n` that fall to worker `w` of `workers`. -/
def share (workers n w : Nat) : List Nat :=
  (List.range n).filter fun i => i % workers = w

/-- The values at `0, 1, …, n - 1`, computed by several workers at once. -/
def tabulate {α : Type} (workers n : Nat) (f : Nat → α) : List α :=
  let tasks := (List.range workers).map fun w =>
    Task.spawn fun _ => labelled f (share workers n w)
  arrange n (tasks.flatMap Task.get)

/-- **Working at once is working in some order**: the shares one after the other. -/
theorem tabulate_eq_inOrder {α : Type} (workers n : Nat) (f : Nat → α) :
    tabulate workers n f
      = tabulateInOrder ((List.range workers).flatMap (share workers n)) n f := by
  simp only [tabulate, tabulateInOrder, labelled, List.flatMap_map, List.map_flatMap]
  rfl

end FormulaPlot.Parallel
