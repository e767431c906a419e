/-!
# Text/Peg — parsing expressions

A parsing expression tells how to go forward in a text: alternatives are tried in order and the
first that works is taken for good, repetition takes as much as it can, and a lookahead goes
nowhere.  A **rule** is an expression with a name; what it matched is kept as a `Pair`, with the
pairs of the rules inside it.

When the whole fails, the place to name is the furthest one where a rule was tried in vain, or,
inside a negative lookahead, with success.  So every attempt keeps the furthest such place
(`Attempt.furthest`), whether it works or not.
-/

namespace FormulaPlot.Text

/-- A parsing expression with rules named by `R`. -/
inductive Peg (R : Type) where
  /-- The characters of `s`. -/
  | literal (s : List Char)
  /-- Any one character. -/
  | any
  /-- Nothing, at the start of the text. -/
  | start
  /-- Nothing, at the end of the text. -/
  | finish
  | seq (first second : Peg R)
  /-- The first expression, or else the second. -/
  | choice (first second : Peg R)
  /-- As often as it works; what is repeated must go forward. -/
  | many (e : Peg R)
  /-- Nothing, where the expression does not work. -/
  | absent (e : Peg R)
  | rule (name : R) (body : Peg R)

/-- A place in a text: the number of characters before it, and the characters behind it. -/
structure Cursor where
  place : Nat
  rest : List Char
  deriving Repr, DecidableEq

/-- What a rule matched. -/
structure Pair (R : Type) where
  name : R
  text : List Char
  inner : List (Pair R)

/-- What comes of trying an expression: how far it goes, with the pairs of its rules, if it works;
and the furthest place to name if the whole fails. -/
structure Attempt (R : Type) where
  outcome : Option (Cursor × List (Pair R))
  furthest : Nat

namespace Attempt

variable {R : Type}

/-- An attempt that works, without a rule to keep or to name. -/
def pass (c : Cursor) : Attempt R := ⟨some (c, []), 0⟩

/-- One that does not. -/
def fail : Attempt R := ⟨none, 0⟩

/-- The attempt behind one that works. -/
def andThen (a : Attempt R) (next : Cursor → Attempt R) : Attempt R :=
  match a.outcome with
  | none => a
  | some (c, pairs) =>
    let b := next c
    ⟨b.outcome.map fun r => (r.1, pairs ++ r.2), max a.furthest b.furthest⟩

/-- The attempt in place of one that does not work. -/
def orElse (a b : Attempt R) : Attempt R :=
  match a.outcome with
  | some _ => a
  | none => ⟨b.outcome, max a.furthest b.furthest⟩

section AndThen

variable {next : Cursor → Attempt R}

theorem andThen_some (c : Cursor) (pairs : List (Pair R)) (far : Nat) :
    (⟨some (c, pairs), far⟩ : Attempt R).andThen next
      = ⟨(next c).outcome.map fun r => (r.1, pairs ++ r.2), max far (next c).furthest⟩ := rfl

theorem andThen_none (far : Nat) :
    (⟨none, far⟩ : Attempt R).andThen next = ⟨none, far⟩ := rfl

@[simp] theorem andThen_pass (c : Cursor) : (pass c).andThen next = next c := by
  simp [pass, andThen]

@[simp] theorem andThen_fail : (fail : Attempt R).andThen next = fail := rfl

end AndThen

theorem orElse_none (far : Nat) (b : Attempt R) :
    (⟨none, far⟩ : Attempt R).orElse b = ⟨b.outcome, max far b.furthest⟩ := rfl

theorem orElse_some (r : Cursor × List (Pair R)) (far : Nat) (b : Attempt R) :
    (⟨some r, far⟩ : Attempt R).orElse b = ⟨some r, far⟩ := rfl

@[simp] theorem orElse_fail (b : Attempt R) : fail.orElse b = b := by
  simp [fail, orElse]

end Attempt

namespace Peg

variable {R : Type}

/-- A step taken as often as it works and goes forward. -/
def repeatFrom (step : Cursor → Attempt R) (c : Cursor) : Attempt R :=
  let a := step c
  match a.outcome with
  | none => ⟨some (c, []), a.furthest⟩
  | some (c', _) =>
    if c'.rest.length < c.rest.length then a.andThen fun _ => repeatFrom step c' else a
termination_by c.rest.length

/-- Tries an expression at a place, inside a negative lookahead or not. -/
def apply : Peg R → Bool → Cursor → Attempt R
  | literal s, _, c =>
    if s.isPrefixOf c.rest then .pass ⟨c.place + s.length, c.rest.drop s.length⟩ else .fail
  | any, _, c =>
    match c.rest with
    | [] => .fail
    | _ :: rest => .pass ⟨c.place + 1, rest⟩
  | start, _, c => if c.place = 0 then .pass c else .fail
  | finish, _, c => if c.rest = [] then .pass c else .fail
  | seq first second, negative, c => (first.apply negative c).andThen (second.apply negative)
  | choice first second, negative, c => (first.apply negative c).orElse (second.apply negative c)
  | many e, negative, c => repeatFrom (e.apply negative) c
  | absent e, negative, c =>
    let a := e.apply (!negative) c
    ⟨if a.outcome.isNone then some (c, []) else none, a.furthest⟩
  | rule name body, negative, c =>
    let a := body.apply negative c
    ⟨a.outcome.map fun r => (r.1, [⟨name, c.rest.take (r.1.place - c.place), r.2⟩]),
      if a.outcome.isSome = negative then max a.furthest c.place else a.furthest⟩

/-- The pairs of a whole text, or the number of characters before the place of the fault. -/
def run (e : Peg R) (text : List Char) : Except Nat (List (Pair R)) :=
  let a := e.apply false ⟨0, text⟩
  match a.outcome with
  | some (_, pairs) => .ok pairs
  | none => .error a.furthest

/-! ## Single expressions -/

section Apply

variable {e first second : Peg R} {negative : Bool} {c c' : Cursor} {pairs : List (Pair R)}
  {far : Nat}

theorem apply_seq : (seq first second).apply negative c
    = (first.apply negative c).andThen (second.apply negative) := rfl

theorem apply_start_seq (e : Peg R) (negative : Bool) (text : List Char) :
    (seq start e).apply negative ⟨0, text⟩ = e.apply negative ⟨0, text⟩ :=
  Attempt.andThen_pass _

theorem apply_choice : (choice first second).apply negative c
    = (first.apply negative c).orElse (second.apply negative c) := rfl

theorem apply_literal_append (negative : Bool) (n : Nat) (s t : List Char) :
    (literal s : Peg R).apply negative ⟨n, s ++ t⟩ = .pass ⟨n + s.length, t⟩ := by
  have hdrop : (s ++ t).drop s.length = t := List.drop_left
  rw [apply, hdrop]
  exact if_pos (List.isPrefixOf_iff_prefix.2 (List.prefix_append s t))

theorem apply_literal_of_not {s : List Char} (h : ¬ s <+: c.rest) :
    (literal s : Peg R).apply negative c = .fail :=
  if_neg fun hs => h (List.isPrefixOf_iff_prefix.1 hs)

theorem apply_absent_of_none (h : e.apply (!negative) c = ⟨none, far⟩) :
    (absent e).apply negative c = ⟨some (c, []), far⟩ := by
  rw [apply, h]
  rfl

theorem apply_absent_of_some (h : e.apply (!negative) c = ⟨some (c', pairs), far⟩) :
    (absent e).apply negative c = ⟨none, far⟩ := by
  rw [apply, h]
  rfl

/-- A rule that works keeps what it matched; inside a negative lookahead it is named. -/
theorem apply_rule_of_some (name : R) {n : Nat} {l s : List Char}
    (h : e.apply negative ⟨n, l ++ s⟩ = ⟨some (⟨n + l.length, s⟩, pairs), far⟩) :
    (rule name e).apply negative ⟨n, l ++ s⟩
      = ⟨some (⟨n + l.length, s⟩, [⟨name, l, pairs⟩]), if negative then max far n else far⟩ := by
  have htext : (l ++ s).take (n + l.length - n) = l := by
    rw [Nat.add_sub_cancel_left, List.take_left]
  simp only [apply, h, Option.map_some, htext]
  cases negative <;> rfl

/-- One that does not is named outside. -/
theorem apply_rule_of_none (name : R) (h : e.apply negative c = ⟨none, far⟩) :
    (rule name e).apply negative c = ⟨none, if negative then far else max far c.place⟩ := by
  rw [apply, h]
  cases negative <;> rfl

/-- A text that a rule takes, up to some place. -/
theorem exists_run_rule (name : R) {text : List Char}
    (h : e.apply false ⟨0, text⟩ = ⟨some (c', pairs), far⟩) :
    ∃ taken, (rule name e).run text = .ok [⟨name, taken, pairs⟩] := by
  refine ⟨text.take (c'.place - 0), ?_⟩
  simp only [run, apply, h, Option.map_some]

/-- A text that a rule does not take. -/
theorem run_rule_of_none (name : R) {text : List Char} (h : e.apply false ⟨0, text⟩ = ⟨none, far⟩) :
    (rule name e).run text = .error far := by
  rw [run, apply_rule_of_none name h]
  exact congrArg Except.error (Nat.max_zero far)

end Apply

/-! ## Repetition -/

section Repeat

variable {step : Cursor → Attempt R} {c : Cursor} {far : Nat}

/-- **Repetition ends** where the step does not work. -/
theorem repeatFrom_of_none (h : step c = ⟨none, far⟩) :
    repeatFrom step c = ⟨some (c, []), far⟩ := by rw [repeatFrom, h]

/-- **It goes on** from where the step goes to. -/
theorem repeatFrom_of_some {c' : Cursor} {pairs : List (Pair R)}
    (h : step c = ⟨some (c', pairs), far⟩) (hshorter : c'.rest.length < c.rest.length) :
    repeatFrom step c
      = ⟨(repeatFrom step c').outcome.map fun r => (r.1, pairs ++ r.2),
          max far (repeatFrom step c').furthest⟩ := by
  rw [repeatFrom, h]
  exact if_pos hshorter

end Repeat

/-! ## Stretches of characters -/

/-- The expression takes one character, which has `p`, and names nothing. -/
structure Takes (e : Peg R) (p : Char → Bool) : Prop where
  nil (negative : Bool) (n : Nat) : e.apply negative ⟨n, []⟩ = .fail
  cons (negative : Bool) (n : Nat) (c : Char) (s : List Char) :
    e.apply negative ⟨n, c :: s⟩ = if p c then .pass ⟨n + 1, s⟩ else .fail

variable {e : Peg R} {p : Char → Bool}

theorem Takes.apply_of_head (h : e.Takes p) {s : List Char} (hs : ∀ c ∈ s.head?, p c = false)
    (negative : Bool) (n : Nat) : e.apply negative ⟨n, s⟩ = .fail := by
  cases s with
  | nil => exact h.nil negative n
  | cons c s => rw [h.cons, hs c rfl, if_neg Bool.false_ne_true]

/-- **Repeated**, it takes a whole stretch of such characters. -/
theorem Takes.many_apply (h : e.Takes p) {l s : List Char} (hl : ∀ c ∈ l, p c = true)
    (hs : ∀ c ∈ s.head?, p c = false) (negative : Bool) (n : Nat) :
    (many e).apply negative ⟨n, l ++ s⟩ = .pass ⟨n + l.length, s⟩ := by
  rw [apply]
  induction l generalizing n with
  | nil => exact repeatFrom_of_none (h.apply_of_head hs negative n)
  | cons c l ih =>
    obtain ⟨hc, hl⟩ := List.forall_mem_cons.1 hl
    have hstep : e.apply negative ⟨n, c :: (l ++ s)⟩ = .pass ⟨n + 1, l ++ s⟩ := by
      rw [h.cons, hc, if_pos rfl]
    rw [List.cons_append, repeatFrom_of_some hstep (Nat.lt_succ_self _), ih hl, Nat.add_assoc,
      Nat.add_comm 1]
    rfl

theorem takes_literal_or {a b : Char} :
    (choice (literal [a]) (literal [b]) : Peg R).Takes fun c => a == c || b == c where
  nil _ _ := rfl
  cons negative n c s := by
    simp only [apply, List.isPrefixOf, Bool.and_true]
    cases a == c <;> cases b == c <;> rfl

end Peg

end FormulaPlot.Text
