/-!
# Cache — the most recent values

A cache keeps the values of the keys that were used last, as many as there is room for.  Looking up
a key that has a value, or giving it one, makes it the most recent key; when there are too many, the
least recent one is forgotten.  `RecencyCache` is what a cache offers, `LawfulRecencyCache` what can
be relied on, and `Cache` a cache that keeps its entries in a list.
-/

namespace FormulaPlot

section Interface

variable {κ α : Type} [DecidableEq κ]

/-- Entries with the one of `key` in front, whether there was one before or not. -/
def toFront (entries : List (κ × α)) (key : κ) (value : α) : List (κ × α) :=
  (key, value) :: entries.filter fun entry => entry.1 ≠ key

theorem keys_toFront (entries : List (κ × α)) (key : κ) (value : α) :
    (toFront entries key value).map Prod.fst
      = key :: (entries.map Prod.fst).filter (· ≠ key) := by
  rw [toFront, List.map_cons, List.filter_map]
  rfl

theorem mem_toFront {entries : List (κ × α)} {key : κ} {value : α} {entry : κ × α}
    (h : entry ∈ toFront entries key value) :
    entry = (key, value) ∨ entry ∈ entries ∧ entry.1 ≠ key := by
  rcases List.mem_cons.1 h with h | h
  · exact .inl h
  · obtain ⟨hmem, hne⟩ := List.mem_filter.1 h
    exact .inr ⟨hmem, of_decide_eq_true hne⟩

end Interface

/-! ## What a cache offers -/

/-- Caches of type `σ`, for values of type `α` of keys of type `κ`. -/
class RecencyCache (σ : Type) (κ α : outParam Type) where
  /-- A cache that keeps nothing yet and has room for `capacity` keys. -/
  empty (capacity : Nat) : σ
  /-- The number of keys that there is room for. -/
  capacity : σ → Nat
  /-- The keys with their values, the most recent first. -/
  entries : σ → List (κ × α)
  /-- The value of a key, and the cache after the look-up. -/
  get : σ → κ → Option α × σ
  /-- The cache after a key was given a value. -/
  put : σ → κ → α → σ

/-- **The laws of a cache.**  The room never changes; looking up moves a key that has a value to the
front, and changes nothing if it has none; giving a key a value puts it in front and forgets what is
too much at the end. -/
class LawfulRecencyCache (σ : Type) (κ α : outParam Type) [DecidableEq κ]
    [RecencyCache σ κ α] : Prop where
  capacity_empty {n : Nat} (h : 0 < n) : RecencyCache.capacity (RecencyCache.empty n : σ) = n
  entries_empty {n : Nat} (h : 0 < n) : RecencyCache.entries (RecencyCache.empty n : σ) = []
  fst_get (c : σ) (key : κ) :
    (RecencyCache.get c key).1 = (RecencyCache.entries c).lookup key
  snd_get_of_none {c : σ} {key : κ} (h : (RecencyCache.entries c).lookup key = none) :
    (RecencyCache.get c key).2 = c
  entries_get {c : σ} {key : κ} {value : α}
    (h : (RecencyCache.entries c).lookup key = some value) :
    RecencyCache.entries (RecencyCache.get c key).2 = toFront (RecencyCache.entries c) key value
  capacity_get (c : σ) (key : κ) :
    RecencyCache.capacity (RecencyCache.get c key).2 = RecencyCache.capacity c
  entries_put (c : σ) (key : κ) (value : α) :
    RecencyCache.entries (RecencyCache.put c key value)
      = (toFront (RecencyCache.entries c) key value).take (RecencyCache.capacity c)
  capacity_put (c : σ) (key : κ) (value : α) :
    RecencyCache.capacity (RecencyCache.put c key value) = RecencyCache.capacity c

/-! ## A cache -/

/-- The values of recently used keys in a list, the most recent first. -/
structure Cache (κ α : Type) where
  capacity : Nat
  entries : List (κ × α)

namespace Cache

variable {κ α : Type} [DecidableEq κ]

/-- The value of a key, and the cache with that key in front. -/
def get (c : Cache κ α) (key : κ) : Option α × Cache κ α :=
  match c.entries.lookup key with
  | some value => (some value, { c with entries := toFront c.entries key value })
  | none => (none, c)

/-- The cache with `key` in front, with its value, and no more entries than there is room for. -/
def put (c : Cache κ α) (key : κ) (value : α) : Cache κ α :=
  { c with entries := (toFront c.entries key value).take c.capacity }

instance : RecencyCache (Cache κ α) κ α where
  empty capacity := ⟨capacity, []⟩
  capacity := capacity
  entries := entries
  get := get
  put := put

theorem get_of_lookup {c : Cache κ α} {key : κ} {value : α}
    (h : c.entries.lookup key = some value) :
    c.get key = (some value, { c with entries := toFront c.entries key value }) := by
  rw [get, h]

theorem get_of_lookup_eq_none {c : Cache κ α} {key : κ} (h : c.entries.lookup key = none) :
    c.get key = (none, c) := by
  rw [get, h]

/-- **A list of entries is a lawful cache.** -/
instance : LawfulRecencyCache (Cache κ α) κ α where
  capacity_empty _ := rfl
  entries_empty _ := rfl
  fst_get c key := by
    show (c.get key).1 = c.entries.lookup key
    cases h : c.entries.lookup key with
    | some value => rw [get_of_lookup h]
    | none => rw [get_of_lookup_eq_none h]
  snd_get_of_none {c} key h := congrArg Prod.snd (get_of_lookup_eq_none h)
  entries_get {c} key value h := congrArg (entries ∘ Prod.snd) (get_of_lookup h)
  capacity_get c key := by
    show (c.get key).2.capacity = c.capacity
    cases h : c.entries.lookup key with
    | some value => rw [get_of_lookup h]
    | none => rw [get_of_lookup_eq_none h]
  entries_put _ _ _ := rfl
  capacity_put _ _ _ := rfl

end Cache

end FormulaPlot
