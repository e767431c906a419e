import FormulaPlot.Number.Shortest
import FormulaPlot.Proofs.Number.Nearest
import FormulaPlot.Proofs.Number.Numerals

/-!
# Proofs/Number/RoundTrip — a number reads back from its text

The text of a finite number without a sign is a numeral written out, and the decimal that it spells
rounds to the number (`readFront?_chars`).  For the digits that the search for the shortest numeral
finds this is what the search asks for; for the exact decimal, which stands by for a search that
finds nothing, it holds because a double's own magnitude rounds to it.
-/

namespace FormulaPlot.Number

/-! ## Decimals -/

/-- Within the cutoffs a decimal rounds from its exact value. -/
theorem Decimal.toFloat_eq_nearest {d : Decimal} (hpos : d.digits ≠ 0)
    (hlow : -(400 + d.digits.log2 : Int) ≤ d.exponent) (hhigh : d.exponent ≤ 400) :
    d.toFloat = nearest (scaled 10 d.digits d.exponent) (scaled 10 1 (-d.exponent)) := by
  have htiny : ¬ (d.digits = 0 || d.exponent < -(400 + d.digits.log2 : Int)) = true := by
    simp [hpos]
    omega
  rw [toFloat, if_neg htiny, if_neg (by omega)]

/-- A decimal past the cutoff rounds to no finite double. -/
theorem Decimal.exponent_le {d : Decimal} (hpos : d.digits ≠ 0)
    (hfinite : d.toFloat.isFinite = true) : d.exponent ≤ 400 := by
  by_contra hlt
  have htiny : ¬ (d.digits = 0 || d.exponent < -(400 + d.digits.log2 : Int)) = true := by
    simp [hpos]
    omega
  have hinfinite : (nearest (scaled 10 1 401) 1).isFinite = false := by decide +kernel
  rw [toFloat, if_neg htiny, if_pos (by omega), hinfinite] at hfinite
  cases hfinite

theorem digits_exactDecimal_pos {x : Float} (h : 0 < mantissa x) : 0 < (exactDecimal x).digits :=
  scaled_pos (by decide) (scaled_pos two_pos h _) _

/-- **The exact decimal is exact.** -/
theorem value_exactDecimal (x : Float) :
    ((exactDecimal x).digits : ℚ) * 10 ^ (exactDecimal x).exponent = magnitude x := by
  simp only [exactDecimal, magnitude]
  obtain ⟨j, hj | hj⟩ := Int.eq_nat_or_neg (exponent x)
  · rw [hj, scaled_neg, scaled_of_nonneg, min_eq_right (by omega), zpow_zero, mul_one]
    push_cast
    rfl
  · rw [hj, neg_neg, scaled_neg, scaled_of_nonneg, min_eq_left (by omega), zpow_neg, zpow_neg,
      zpow_natCast, zpow_natCast, show (10 : ℚ) = 5 * 2 by norm_num, mul_pow]
    push_cast
    field_simp

/-- Its many digits keep it off the lower cutoff. -/
theorem neg_log2_digits_le_exponent (x : Float) (h : 0 < mantissa x) :
    -((exactDecimal x).digits.log2 : ℤ) ≤ (exactDecimal x).exponent := by
  obtain ⟨j, hj | hj⟩ := Int.eq_nat_or_neg (exponent x)
  · simp only [exactDecimal, hj]
    omega
  · have hdigits : (exactDecimal x).digits = mantissa x * 5 ^ j := by
      simp only [exactDecimal, hj, neg_neg, scaled_neg, scaled_of_nonneg]
    have hpow : 2 ^ j ≤ mantissa x * 5 ^ j :=
      (Nat.pow_le_pow_left (by decide) j).trans (Nat.le_mul_of_pos_left _ h)
    have hlog : j ≤ (mantissa x * 5 ^ j).log2 :=
      (Nat.le_log2 (Nat.pos_iff_ne_zero.1 (Nat.mul_pos h (Nat.pow_pos (by decide))))).2 hpow
    rw [hdigits]
    simp only [exactDecimal, hj]
    omega

/-- **The exact decimal rounds to its double.** -/
theorem toFloat_exactDecimal {x : Float} (hfinite : x.isFinite = true)
    (hsign : isNegative x = false) (hpos : 0 < mantissa x) : (exactDecimal x).toFloat = x := by
  have hlow := neg_log2_digits_le_exponent x hpos
  have hhigh : (exactDecimal x).exponent ≤ 0 := min_le_right _ _
  rw [Decimal.toFloat_eq_nearest (Nat.pos_iff_ne_zero.1 (digits_exactDecimal_pos hpos))
    (by omega) (by omega)]
  refine nearest_eq_self hfinite hsign (scaled_pos (by decide) one_pos _) ?_
  rw [cast_scaled_div (by decide), Nat.cast_one, div_one, Nat.cast_ofNat, value_exactDecimal]

/-- **The shortest decimal rounds to its double.** -/
theorem toFloat_shortest {x : Float} (hfinite : x.isFinite = true)
    (hsign : isNegative x = false) (hpos : 0 < mantissa x) : (shortest x).toFloat = x := by
  simp only [shortest]
  cases hsearch : (List.range 17).findSome? _ with
  | none => exact toFloat_exactDecimal hfinite hsign hpos
  | some d =>
    obtain ⟨n, -, hfind⟩ := List.exists_of_findSome?_eq_some hsearch
    have hbits := List.find?_some hfind
    rw [abs_eq_self hsign] at hbits
    exact Float.toBits_inj.1 (eq_of_beq hbits)

/-! ## Numerals written out -/

theorem isDigit_toDigits (n : Nat) : ∀ c ∈ Nat.toDigits 10 n, c.isDigit = true :=
  fun _ hc => Nat.isDigit_of_mem_toDigits (by decide) (by decide) hc

/-- The digits behind the point. -/
theorem length_leftpad_toDigits {n k : Nat} (hk : 0 < k) (h : n < 10 ^ k) :
    ((Nat.toDigits 10 n).leftpad k '0').length = k := by
  have hle : (Nat.toDigits 10 n).length ≤ k := (Nat.length_toDigits_le_iff (by decide) hk).2 h
  rw [List.length_leftpad, max_eq_left hle]

theorem isDigit_leftpad (n k : Nat) :
    ∀ c ∈ (Nat.toDigits 10 n).leftpad k '0', c.isDigit = true := by
  intro c hc
  rcases List.mem_append.1 hc with hc | hc
  · rw [List.eq_of_mem_replicate hc]
    rfl
  · exact isDigit_toDigits n c hc

theorem ofDigitChars_leftpad (n k : Nat) :
    Nat.ofDigitChars 10 ((Nat.toDigits 10 n).leftpad k '0') 0 = n := by
  rw [List.leftpad, Nat.ofDigitChars_append, Nat.ofDigitChars_replicate_zero, Nat.mul_zero,
    Nat.ofDigitChars_ten_toDigits]

theorem readFront?_of_split? {s rest : List Char} {n : Numeral}
    (h : Numeral.split? s = some (n, rest)) : readFront? s = some n.value.toFloat := by
  rw [readFront?, h]
  rfl

/-- A whole decimal stays the same when its exponent is multiplied out. -/
theorem toFloat_multiplied_out {d : Decimal} (hlow : 0 ≤ d.exponent) (hhigh : d.exponent ≤ 400) :
    (Decimal.mk (scaled 10 d.digits d.exponent) 0).toFloat = d.toFloat := by
  rcases Nat.eq_zero_or_pos d.digits with hzero | hpos
  · have hscaled : scaled 10 d.digits d.exponent = 0 := by rw [hzero, scaled, Nat.zero_mul]
    rw [hscaled, Decimal.toFloat, Decimal.toFloat, if_pos (by simp), if_pos (by simp [hzero])]
  · have hscaled := scaled_pos (by decide : 0 < 10) hpos d.exponent
    rw [Decimal.toFloat_eq_nearest (Nat.pos_iff_ne_zero.1 hpos) (by omega) hhigh,
      Decimal.toFloat_eq_nearest (Nat.pos_iff_ne_zero.1 hscaled) (by simp) (by simp)]
    rw [scaled_of_nonpos 10 1 (by omega : -d.exponent ≤ 0), neg_zero,
      scaled_of_nonpos 10 1 le_rfl, scaled_of_nonpos 10 _ le_rfl]

/-- **A decimal written out reads back** as the double that it rounds to. -/
theorem readFront?_positional {d : Decimal} (hhigh : d.exponent ≤ 400) :
    readFront? d.positional = some d.toFloat := by
  rcases le_or_gt 0 d.exponent with hexp | hexp
  · have hsplit := Numeral.split?_digits (isDigit_toDigits (scaled 10 d.digits d.exponent))
      Nat.toDigits_ne_nil
    rw [Decimal.positional, if_pos hexp, readFront?_of_split? hsplit, Numeral.value,
      ← toFloat_multiplied_out hexp hhigh, Option.getD_none, List.append_nil,
      Nat.ofDigitChars_ten_toDigits]
    rfl
  · obtain ⟨k, hk⟩ := Int.eq_ofNat_of_zero_le (show 0 ≤ -d.exponent by omega)
    have hk0 : 0 < k := by omega
    have hunit : scaled 10 1 k = 10 ^ k := by rw [scaled_of_nonneg, one_mul]
    have hlt : d.digits % 10 ^ k < 10 ^ k := Nat.mod_lt _ (Nat.pow_pos (by decide))
    have hsplit := Numeral.split?_decimals (isDigit_toDigits (d.digits / 10 ^ k))
      Nat.toDigits_ne_nil (isDigit_leftpad (d.digits % 10 ^ k) k)
    have hdigits : Nat.ofDigitChars 10 (Nat.toDigits 10 (d.digits / 10 ^ k)
        ++ (Nat.toDigits 10 (d.digits % 10 ^ k)).leftpad k '0') 0 = d.digits := by
      rw [Nat.ofDigitChars_append, Nat.ofDigitChars_ten_toDigits,
        Nat.ofDigitChars_eq_ofDigitChars_zero, length_leftpad_toDigits hk0 hlt,
        ofDigitChars_leftpad, Nat.div_add_mod]
    rw [Decimal.positional, if_neg (by omega)]
    simp only [hk, hunit, Int.toNat_natCast]
    rw [readFront?_of_split? hsplit, Numeral.value, Option.getD_some,
      length_leftpad_toDigits hk0 hlt, hdigits, Option.elim_none, zero_sub, ← hk, neg_neg]

/-- A decimal written out starts with a digit, and has nothing but digits and points. -/
theorem chars_positional (d : Decimal) :
    (∃ c t, d.positional = c :: t ∧ c.isDigit = true)
      ∧ ∀ c ∈ d.positional, c.isDigit = true ∨ c = '.' := by
  have hhead (n : Nat) (t : List Char) :
      ∃ c u, Nat.toDigits 10 n ++ t = c :: u ∧ c.isDigit = true := by
    obtain ⟨c, u, hcons⟩ := List.exists_cons_of_ne_nil (@Nat.toDigits_ne_nil n 10)
    refine ⟨c, u ++ t, by rw [hcons, List.cons_append], isDigit_toDigits n c ?_⟩
    rw [hcons]
    exact List.mem_cons_self
  rw [Decimal.positional]
  split
  · refine ⟨by simpa using hhead (scaled 10 d.digits d.exponent) [], fun c hc => ?_⟩
    exact .inl (isDigit_toDigits _ c hc)
  · refine ⟨hhead _ _, fun c hc => ?_⟩
    rcases List.mem_append.1 hc with hc | hc
    · exact .inl (isDigit_toDigits _ c hc)
    · rcases List.mem_cons.1 hc with rfl | hc
      · exact .inr rfl
      · exact .inl (isDigit_leftpad _ _ c hc)

/-! ## The text of a number -/

section Chars

variable {x : Float} (hfinite : x.isFinite = true) (hsign : isNegative x = false)
include hfinite hsign

theorem chars_eq_positional :
    chars x = if mantissa x = 0 then ['0'] else (shortest x).positional := by
  rw [chars, isNaN_of_isFinite hfinite, hsign, magnitudeChars, isInf_of_isFinite hfinite]
  rfl

/-- **The text of a number reads back as the number.** -/
theorem readFront?_chars : readFront? (chars x) = some x := by
  rw [chars_eq_positional hfinite hsign]
  split
  · next hzero =>
    rw [eq_zero_of_mantissa_eq_zero hsign hzero]
    rfl
  · next hne =>
    have hfloat := toFloat_shortest hfinite hsign (Nat.pos_of_ne_zero hne)
    have hdigits : (shortest x).digits ≠ 0 := by
      intro hzero
      rw [Decimal.toFloat, if_pos (by simp [hzero])] at hfloat
      exact hne (hfloat ▸ rfl)
    -- Past the cutoff a decimal would round to infinity, which is not finite.
    have hhigh := Decimal.exponent_le hdigits (by rw [hfloat]; exact hfinite)
    rw [readFront?_positional hhigh, hfloat]

/-- It starts with a digit, and has nothing but digits and points. -/
theorem chars_chars : (∃ c t, chars x = c :: t ∧ c.isDigit = true)
      ∧ ∀ c ∈ chars x, c.isDigit = true ∨ c = '.' := by
  rw [chars_eq_positional hfinite hsign]
  split
  · refine ⟨⟨'0', [], rfl, rfl⟩, fun c hc => .inl ?_⟩
    rw [List.mem_singleton.1 hc]
    rfl
  · exact chars_positional (shortest x)

end Chars

end FormulaPlot.Number
