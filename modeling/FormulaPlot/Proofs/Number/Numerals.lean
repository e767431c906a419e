import FormulaPlot.Number.Numeral
import Mathlib

/-!
# Proofs/Number/Numerals — the numerals that a text can be

A numeral is well formed if its parts are what the grammar has in their places
(`Numeral.IsWellFormed`).  These are the numerals that are split off the front of texts:

* `Numeral.isWellFormed_of_split?` — what is split off is well formed;
* `Numeral.IsWellFormed.split?_chars` — of its own spelling a well-formed numeral leaves nothing;
* `read?_chars` — which is read as the number that the numeral spells.
-/

namespace FormulaPlot

/-! ## Digits and letters -/

theorem isDigit_iff {c : Char} : c.isDigit = true ↔ 48 ≤ c.toNat ∧ c.toNat ≤ 57 := by
  simp [Char.isDigit, UInt32.le_iff_toNat_le, ← Char.toNat_val]

theorem isAlpha_iff {c : Char} :
    c.isAlpha = true ↔ (65 ≤ c.toNat ∧ c.toNat ≤ 90) ∨ (97 ≤ c.toNat ∧ c.toNat ≤ 122) := by
  simp [Char.isAlpha, Char.isUpper, Char.isLower, UInt32.le_iff_toNat_le, ← Char.toNat_val]

theorem isAlpha_eq_false_of_isDigit {c : Char} (h : c.isDigit = true) : c.isAlpha = false := by
  rw [isDigit_iff] at h
  rw [Bool.eq_false_iff, ne_eq, isAlpha_iff]
  omega

namespace Number

/-! ## Well-formed numerals -/

/-- The parts of an exponent are those that the grammar has. -/
@[mk_iff]
structure Exponent.IsWellFormed (e : Exponent) : Prop where
  mark : e.mark = 'e' ∨ e.mark = 'E'
  sign : ∀ c ∈ e.sign, c = '+' ∨ c = '-'
  digits : ∀ c ∈ e.digits, c.isDigit = true
  nonempty : e.digits ≠ []

/-- The parts of a numeral are those that the grammar has; it has a digit in front of its
exponent. -/
@[mk_iff]
structure Numeral.IsWellFormed (n : Numeral) : Prop where
  whole : ∀ c ∈ n.whole, c.isDigit = true
  fraction : ∀ c ∈ n.fraction.getD [], c.isDigit = true
  nonempty : n.whole ≠ [] ∨ n.fraction.getD [] ≠ []
  exponent : ∀ e ∈ n.exponent, e.IsWellFormed

instance (e : Exponent) : Decidable e.IsWellFormed :=
  decidable_of_iff ((e.mark = 'e' ∨ e.mark = 'E')
      ∧ e.sign.all (fun c => c == '+' || c == '-') = true
      ∧ e.digits.all Char.isDigit = true ∧ e.digits ≠ []) (by
    simp [Exponent.isWellFormed_iff, Option.all_eq_true])

instance (n : Numeral) : Decidable n.IsWellFormed :=
  decidable_of_iff (n.whole.all Char.isDigit = true
      ∧ (n.fraction.getD []).all Char.isDigit = true
      ∧ (n.whole ≠ [] ∨ n.fraction.getD [] ≠ [])
      ∧ n.exponent.all (fun e => decide e.IsWellFormed) = true) (by
    simp [Numeral.isWellFormed_iff, Option.all_eq_true])

namespace Numeral

/-- What stands in front of the exponent. -/
def significand (n : Numeral) : List Char := n.whole ++ n.fraction.elim [] ('.' :: ·)

theorem chars_eq (n : Numeral) : n.chars = n.significand ++ n.exponent.elim [] Exponent.chars := rfl

/-- The numeral without its exponent. -/
def plain (n : Numeral) : Numeral := { n with exponent := none }

theorem chars_plain (n : Numeral) : n.plain.chars = n.significand := List.append_nil _

theorem IsWellFormed.plain {n : Numeral} (h : n.IsWellFormed) : n.plain.IsWellFormed :=
  { h with exponent := fun _ he => absurd he (Option.not_mem_none _) }

/-- There are digits and points in front of the exponent. -/
theorem IsWellFormed.forall_significand {n : Numeral} (h : n.IsWellFormed) :
    ∀ c ∈ n.significand, c.isDigit = true ∨ c = '.' := by
  intro c hc
  rcases List.mem_append.1 hc with hc | hc
  · exact .inl (h.whole c hc)
  · have hdigits := h.fraction
    cases hfraction : n.fraction with
    | none => rw [hfraction] at hc; cases hc
    | some t =>
      rw [hfraction] at hc hdigits
      exact (List.mem_cons.1 hc).symm.imp_left (hdigits c)

theorem IsWellFormed.significand_ne_nil {n : Numeral} (h : n.IsWellFormed) :
    n.significand ≠ [] := by
  intro hnil
  obtain ⟨hwhole, hfraction⟩ := List.append_eq_nil_iff.1 hnil
  cases hpoint : n.fraction with
  | none => exact h.nonempty.elim (absurd hwhole) fun hne => hne (by rw [hpoint]; rfl)
  | some t => rw [hpoint] at hfraction; cases hfraction

end Numeral

/-! ## Splitting a numeral off -/

theorem takeWhile_isDigit_append {s t : List Char} (hs : ∀ c ∈ s, c.isDigit = true)
    (ht : ∀ c ∈ t.head?, c.isDigit = false) : (s ++ t).takeWhile Char.isDigit = s := by
  rw [List.takeWhile_append_of_pos hs]
  cases t with
  | nil => exact List.append_nil s
  | cons c t => rw [List.takeWhile_cons_of_neg (by simp [ht c rfl]), List.append_nil]

theorem dropWhile_isDigit_append {s t : List Char} (hs : ∀ c ∈ s, c.isDigit = true)
    (ht : ∀ c ∈ t.head?, c.isDigit = false) : (s ++ t).dropWhile Char.isDigit = t := by
  rw [List.dropWhile_append_of_pos hs]
  cases t with
  | nil => rfl
  | cons c t => exact List.dropWhile_cons_of_neg (by simp [ht c rfl])

theorem takeWhile_isDigit_self {s : List Char} (hs : ∀ c ∈ s, c.isDigit = true) :
    s.takeWhile Char.isDigit = s := List.takeWhile_eq_self_iff.2 hs

/-- A digit is no sign. -/
theorem splitSign_of_isDigit {s : List Char} (h : ∀ c ∈ s.head?, c ≠ '+' ∧ c ≠ '-') :
    splitSign s = (none, s) := by
  unfold splitSign
  split
  · exact absurd rfl (h '+' rfl).1
  · exact absurd rfl (h '-' rfl).2
  · rfl

theorem ne_sign_of_isDigit {c : Char} (h : c.isDigit = true) : c ≠ '+' ∧ c ≠ '-' := by
  constructor <;> rintro rfl <;> exact absurd h (by decide)

/-- **A well-formed exponent** is split off as a whole. -/
theorem Exponent.split?_chars {e : Exponent} (h : e.IsWellFormed) :
    Exponent.split? e.chars = some (e, []) := by
  have hsign : splitSign (e.sign.toList ++ e.digits) = (e.sign, e.digits) := by
    cases hsign : e.sign with
    | none =>
      exact splitSign_of_isDigit fun c hc =>
        ne_sign_of_isDigit (h.digits c (List.mem_of_mem_head? hc))
    | some c =>
      rcases h.sign c hsign with rfl | rfl <;> rfl
  have htake := takeWhile_isDigit_self h.digits
  have hdrop : e.digits.dropWhile Char.isDigit = [] := List.dropWhile_eq_nil_iff.2 h.digits
  simp only [Exponent.split?, Exponent.chars, hsign, htake, hdrop, h.mark, h.nonempty, true_and,
    ne_eq, not_false_eq_true, if_true]

/-- An exponent mark without digits behind it is no exponent. -/
theorem Exponent.split?_mark (c : Char) : Exponent.split? [c] = none := by
  simp [Exponent.split?, splitSign]

theorem splitFraction_append_of_isDigit {f : Option (List Char)} {t : List Char}
    (hf : ∀ c ∈ f.getD [], c.isDigit = true) (ht : ∀ c ∈ t.head?, c.isDigit = false ∧ c ≠ '.') :
    splitFraction (f.elim [] ('.' :: ·) ++ t) = (f, t) := by
  cases f with
  | none =>
    rw [Option.elim_none, List.nil_append]
    unfold splitFraction
    split
    · exact absurd rfl (ht '.' rfl).2
    · rfl
  | some s =>
    have hdigits : ∀ c ∈ s, c.isDigit = true := hf
    have hhead (c : Char) (hc : c ∈ t.head?) := (ht c hc).1
    rw [Option.elim_some, List.cons_append, splitFraction, takeWhile_isDigit_append hdigits hhead,
      dropWhile_isDigit_append hdigits hhead]

namespace Numeral

/-- **What is in front of an exponent** is split off as a whole, and then the exponent is. -/
theorem split?_significand_append {n : Numeral} (h : n.IsWellFormed) {t : List Char}
    (ht : ∀ c ∈ t.head?, c.isDigit = false ∧ c ≠ '.') :
    split? (n.significand ++ t)
      = match Exponent.split? t with
        | some (e, rest) => some (⟨n.whole, n.fraction, some e⟩, rest)
        | none => some (n.plain, t) := by
  have hhead : ∀ c ∈ (n.fraction.elim [] ('.' :: ·) ++ t).head?, c.isDigit = false := by
    intro c hc
    cases hfraction : n.fraction with
    | none => rw [hfraction] at hc; exact (ht c hc).1
    | some s => rw [hfraction] at hc; exact Option.some.inj hc ▸ rfl
  have hdigits : ¬ (n.whole = [] ∧ n.fraction.getD [] = []) := fun ⟨hwhole, hfraction⟩ =>
    h.nonempty.elim (absurd hwhole) (absurd hfraction)
  rw [significand, List.append_assoc]
  simp only [split?, takeWhile_isDigit_append h.whole hhead, dropWhile_isDigit_append h.whole hhead,
    splitFraction_append_of_isDigit h.fraction ht, if_neg hdigits]
  rfl

/-- **A well-formed numeral** is split off as a whole. -/
theorem IsWellFormed.split?_chars {n : Numeral} (h : n.IsWellFormed) :
    split? n.chars = some (n, []) := by
  cases hexp : n.exponent with
  | none =>
    have hsplit := split?_significand_append h (t := []) (by simp)
    rw [chars_eq, hexp, Option.elim_none, hsplit]
    exact congrArg (fun e => some (Numeral.mk n.whole n.fraction e, [])) hexp.symm
  | some e =>
    have he := h.exponent e hexp
    have hmark : ∀ c ∈ e.chars.head?, c.isDigit = false ∧ c ≠ '.' := by
      intro c hc
      obtain rfl : e.mark = c := Option.some.inj hc
      rcases he.mark with hmark | hmark <;> rw [hmark] <;> decide
    rw [chars_eq, hexp, Option.elim_some, split?_significand_append h hmark,
      Exponent.split?_chars he]
    exact congrArg (fun e => some (Numeral.mk n.whole n.fraction e, [])) hexp.symm

/-- Digits on their own are a numeral. -/
theorem isWellFormed_digits {s : List Char} (h : ∀ c ∈ s, c.isDigit = true) (hne : s ≠ []) :
    (Numeral.mk s none none).IsWellFormed where
  whole := h
  fraction := List.forall_mem_nil _
  nonempty := .inl hne
  exponent _ he := absurd he (Option.not_mem_none _)

theorem chars_digits (s : List Char) : (Numeral.mk s none none).chars = s := by
  rw [chars, Option.elim_none, Option.elim_none, List.append_nil, List.append_nil]

theorem split?_digits {s : List Char} (h : ∀ c ∈ s, c.isDigit = true) (hne : s ≠ []) :
    split? s = some (⟨s, none, none⟩, []) := by
  have hsplit := (isWellFormed_digits h hne).split?_chars
  rwa [chars_digits] at hsplit

/-- So are digits with a point and more digits behind them. -/
theorem split?_decimals {s t : List Char} (hs : ∀ c ∈ s, c.isDigit = true) (hne : s ≠ [])
    (ht : ∀ c ∈ t, c.isDigit = true) :
    split? (s ++ '.' :: t) = some (⟨s, some t, none⟩, []) := by
  have hwell : (Numeral.mk s (some t) none).IsWellFormed :=
    ⟨hs, ht, .inl hne, fun _ he => absurd he (Option.not_mem_none _)⟩
  have hsplit := hwell.split?_chars
  rwa [chars_eq, Option.elim_none, List.append_nil] at hsplit

end Numeral

theorem Exponent.isWellFormed_of_split? {s rest : List Char} {e : Exponent}
    (h : Exponent.split? s = some (e, rest)) : e.IsWellFormed := by
  cases s with
  | nil => cases h
  | cons c s =>
    simp only [Exponent.split?, Option.ite_none_right_eq_some, Option.some.injEq,
      Prod.mk.injEq] at h
    obtain ⟨⟨hmark, hne⟩, rfl, -⟩ := h
    refine ⟨hmark, fun d hd => ?_, fun _ => List.mem_takeWhile_imp, hne⟩
    unfold splitSign at hd
    grind

/-- **What is split off** the front of a text is a well-formed numeral. -/
theorem Numeral.isWellFormed_of_split? {s rest : List Char} {n : Numeral}
    (h : Numeral.split? s = some (n, rest)) : n.IsWellFormed := by
  have hfraction (t : List Char) : ∀ c ∈ (splitFraction t).1.getD [], c.isDigit = true := by
    unfold splitFraction
    split
    · exact fun _ => List.mem_takeWhile_imp
    · exact List.forall_mem_nil _
  simp only [Numeral.split?] at h
  split at h
  · cases h
  · next hdigits =>
    have hne := (Decidable.not_and_iff_or_not.1 hdigits)
    split at h
    · next e rest' he =>
      obtain ⟨rfl, -⟩ := Prod.mk.inj (Option.some.inj h)
      refine ⟨fun _ => List.mem_takeWhile_imp, hfraction _, hne, fun e' he' => ?_⟩
      exact Option.some.inj he' ▸ Exponent.isWellFormed_of_split? he
    · obtain ⟨rfl, -⟩ := Prod.mk.inj (Option.some.inj h)
      exact ⟨fun _ => List.mem_takeWhile_imp, hfraction _, hne,
        fun _ he => absurd he (Option.not_mem_none _)⟩

/-! ## Reading a numeral -/

/-- A numeral starts with a digit or a point. -/
theorem Numeral.IsWellFormed.exists_cons {n : Numeral} (h : n.IsWellFormed) :
    ∃ c s, n.chars = c :: s ∧ (c.isDigit = true ∨ c = '.') := by
  obtain ⟨c, s, hcons⟩ := List.exists_cons_of_ne_nil h.significand_ne_nil
  refine ⟨c, s ++ n.exponent.elim [] Exponent.chars, by rw [chars_eq, hcons]; rfl, ?_⟩
  exact h.forall_significand c (by rw [hcons]; exact List.mem_cons_self)

/-- It ends with a digit or a point. -/
theorem Numeral.IsWellFormed.getLast_chars {n : Numeral} (h : n.IsWellFormed) {c : Char}
    (hc : c ∈ n.chars.getLast?) : c.isDigit = true ∨ c = '.' := by
  cases hexp : n.exponent with
  | none =>
    rw [chars_eq, hexp, Option.elim_none, List.append_nil] at hc
    exact h.forall_significand c (List.mem_of_mem_getLast? hc)
  | some e =>
    have he := h.exponent e hexp
    rw [chars_eq, hexp, Option.elim_some, Exponent.chars, ← List.cons_append, ← List.append_assoc,
      List.getLast?_append_of_ne_nil _ he.nonempty] at hc
    exact .inl (he.digits c (List.mem_of_mem_getLast? hc))

/-- It is made of digits, points, exponent marks and signs. -/
theorem Numeral.IsWellFormed.mem_chars {n : Numeral} (h : n.IsWellFormed) {c : Char}
    (hc : c ∈ n.chars) :
    c.isDigit = true ∨ c = '.' ∨ (c = 'e' ∨ c = 'E') ∨ (c = '+' ∨ c = '-') := by
  rw [chars_eq] at hc
  rcases List.mem_append.1 hc with hc | hc
  · exact (h.forall_significand c hc).imp_right .inl
  · cases hexp : n.exponent with
    | none => rw [hexp] at hc; cases hc
    | some e =>
      have he := h.exponent e hexp
      rw [hexp] at hc
      rcases List.mem_cons.1 hc with rfl | hc
      · exact .inr (.inr (.inl he.mark))
      · rcases List.mem_append.1 hc with hc | hc
        · exact .inr (.inr (.inr (he.sign c (Option.mem_toList.1 hc))))
        · exact .inl (he.digits c hc)

/-- A text that starts with a digit or a point spells no word. -/
theorem spells_eq_false {word : String} (hword : ∀ d ∈ word.toList.head?, d.isAlpha = true)
    {c : Char} (hc : c.isDigit = true ∨ c = '.') (s : List Char) :
    spells word (c :: s) = false := by
  refine beq_false_of_ne fun heq => ?_
  have hletter : c.isAlpha = true := by
    rw [← Char.isAlpha_toLower_eq_isAlpha]
    exact hword _ (heq ▸ rfl)
  rcases hc with hc | rfl
  · rw [isAlpha_eq_false_of_isDigit hc] at hletter
    cases hletter
  · cases hletter

/-- **A well-formed numeral is read** as the number that it spells. -/
theorem read?_chars {n : Numeral} (h : n.IsWellFormed) :
    read? n.chars = some n.value.toFloat := by
  obtain ⟨c, s, hcons, hc⟩ := h.exists_cons
  have hsign : splitSign n.chars = (none, n.chars) := by
    refine splitSign_of_isDigit fun d hd => ?_
    rw [hcons] at hd
    obtain rfl : c = d := Option.some.inj hd
    rcases hc with hc | rfl
    · exact ne_sign_of_isDigit hc
    · decide
  have hinf : spells "inf" n.chars = false := hcons ▸ spells_eq_false (by simp) hc s
  have hinfinity : spells "infinity" n.chars = false := hcons ▸ spells_eq_false (by simp) hc s
  have hnan : spells "nan" n.chars = false := hcons ▸ spells_eq_false (by simp) hc s
  have hread : readUnsigned? n.chars = some n.value.toFloat := by
    rw [readUnsigned?, hinf, hinfinity, hnan, h.split?_chars]
    simp
  simp only [read?, hsign, hread]
  simp [withSign]

end Number

end FormulaPlot
