import FormulaPlot.Proofs.Number.Numerals
import FormulaPlot.Text.Offset

/-!
# Proofs/Number/LongestNumeral — the numeral read is the longest one

Of a text that starts with a digit, or with a point and a digit, the longest numeral at its front is
read.  Here numerals are texts, of the form `(D+ ('.' D*)? | '.' D+) ([eE] [+-]? D+)?`
(`IsSpelling`), and the text they are taken off is looked at twice: as characters, which `split?`
cuts up, and as bytes, in which `numeralEnd?` counts.  Both stop in the same place:

* `Numeral.exists_split?_append` — what is split off is no shorter than a numeral at the front;
* `numeralEnd?_bytes` — the bytes counted are those of the characters split off;
* `readFront?_longest` — the front that is read, and that there is one.

A byte of a character beyond ASCII is no byte of an ASCII character (`Text.encode_cases`), so
whatever stands behind the numeral, counting bytes ends between two characters.
-/

namespace FormulaPlot

/-! ## Bytes of texts -/

namespace Text

/-- The bytes of a text in UTF-8. -/
def bytes (s : List Char) : List UInt8 := s.flatMap String.utf8EncodeChar

theorem bytes_toList (text : String) : bytes text.toList = text.toUTF8.data.toList := by
  have hencode : (String.ofList text.toList).toByteArray.data.toList = bytes text.toList := by
    rw [String.toByteArray_ofList, List.utf8Encode, List.toList_data_toByteArray, bytes]
  rw [← hencode, String.ofList_toList, String.toUTF8_eq_toByteArray]

theorem bytes_append (s t : List Char) : bytes (s ++ t) = bytes s ++ bytes t :=
  List.flatMap_append

theorem length_bytes (s : List Char) : (bytes s).length = byteSize s := by
  induction s with
  | nil => rfl
  | cons c s ih =>
    rw [bytes, List.flatMap_cons, List.length_append, String.length_utf8EncodeChar, byteSize_cons,
      ← ih, bytes]

/-- What is left behind the bytes of a text. -/
theorem drop_bytes_append (s t : List Char) : (bytes (s ++ t)).drop (byteSize s) = bytes t := by
  rw [bytes_append, ← length_bytes, List.drop_left]

/-- The byte behind those of a text. -/
theorem getElem?_bytes_append (s t : List Char) :
    (bytes (s ++ t))[byteSize s]? = (bytes t).head? := by
  rw [← drop_bytes_append s t, List.head?_drop]

/-- **A character is one byte, its code, or starts with a byte beyond ASCII.** -/
theorem encode_cases (c : Char) :
    (c.toNat < 128 ∧ String.utf8EncodeChar c = [c.toUInt8])
      ∨ (128 ≤ c.toNat ∧ ∃ b rest, String.utf8EncodeChar c = b :: rest ∧ 128 ≤ b.toNat) := by
  by_cases hc : c.toNat < 128
  · have hsize : c.utf8Size = 1 :=
      Char.utf8Size_eq_one_iff.2 (UInt32.le_iff_toNat_le.2 (Nat.le_of_lt_succ hc))
    exact .inl ⟨hc, String.utf8EncodeChar_eq_singleton hsize⟩
  · have hvalue : ¬ c.val.toNat ≤ 127 := fun h => hc (Nat.lt_succ_of_le h)
    refine .inr ⟨Nat.le_of_not_lt hc, ?_⟩
    simp only [String.utf8EncodeChar, if_neg hvalue]
    split
    · exact ⟨_, _, rfl, by rw [UInt8.toNat_ofNat']; omega⟩
    · split
      · exact ⟨_, _, rfl, by rw [UInt8.toNat_ofNat']; omega⟩
      · exact ⟨_, _, rfl, by rw [UInt8.toNat_ofNat']; omega⟩

theorem toNat_toUInt8 {c : Char} (hc : c.toNat < 128) : c.toUInt8.toNat = c.toNat := by
  rw [Char.toUInt8, UInt32.toNat_toUInt8]
  exact Nat.mod_eq_of_lt (Nat.lt_trans hc (by decide))

/-- **An ASCII character starts a text exactly if its byte does.** -/
theorem head?_bytes_eq_some_iff {d : Char} (hd : d.toNat < 128) (s : List Char) :
    (bytes s).head? = some d.toUInt8 ↔ s.head? = some d := by
  cases s with
  | nil => exact iff_of_false nofun nofun
  | cons c s =>
    rw [bytes, List.flatMap_cons, List.head?_cons, Option.some.injEq]
    rcases encode_cases c with ⟨hc, hencode⟩ | ⟨hc, b, rest, hencode, hb⟩
    · rw [hencode]
      refine ⟨fun h => ?_, fun h => h ▸ rfl⟩
      have hcode : c.toNat = d.toNat := by
        rw [← toNat_toUInt8 hc, ← toNat_toUInt8 hd, Option.some.inj h]
      rw [← Char.ofNat_toNat c, hcode, Char.ofNat_toNat]
    · rw [hencode]
      refine iff_of_false (fun h => ?_) fun h => ?_
      · rw [Option.some.inj h, toNat_toUInt8 hd] at hb
        omega
      · rw [h] at hc
        omega

end Text

namespace Number

/-! ## Numerals as texts -/

/-- What stands in front of an exponent: `D+ ('.' D*)? | '.' D+` with `D` a digit. -/
inductive IsSignificand : List Char → Prop
  | whole {s : List Char} (digits : ∀ c ∈ s, c.isDigit = true) (nonempty : s ≠ []) :
      IsSignificand s
  | point {s t : List Char} (digits : ∀ c ∈ s, c.isDigit = true) (nonempty : s ≠ [])
      (fraction : ∀ c ∈ t, c.isDigit = true) : IsSignificand (s ++ '.' :: t)
  | fraction {t : List Char} (digits : ∀ c ∈ t, c.isDigit = true) (nonempty : t ≠ []) :
      IsSignificand ('.' :: t)

/-- An exponent: `[eE] [+-]? D+`. -/
inductive IsExponent : List Char → Prop
  | intro {c : Char} {sign s : List Char} (mark : c = 'e' ∨ c = 'E')
      (signs : sign = [] ∨ sign = ['+'] ∨ sign = ['-']) (digits : ∀ c ∈ s, c.isDigit = true)
      (nonempty : s ≠ []) : IsExponent (c :: (sign ++ s))

/-- A numeral: `(D+ ('.' D*)? | '.' D+) ([eE] [+-]? D+)?`. -/
inductive IsSpelling : List Char → Prop
  | plain {s : List Char} (significand : IsSignificand s) : IsSpelling s
  | scaled {s t : List Char} (significand : IsSignificand s) (exponent : IsExponent t) :
      IsSpelling (s ++ t)

/-- Whether a numeral can start here: a digit, or a point and a digit. -/
inductive StartsNumeral : List Char → Prop
  | digit {c : Char} {s : List Char} (digit : c.isDigit = true) : StartsNumeral (c :: s)
  | point {c : Char} {s : List Char} (digit : c.isDigit = true) : StartsNumeral ('.' :: c :: s)

theorem isSignificand_iff {s : List Char} :
    IsSignificand s ↔ ∃ n : Numeral, n.IsWellFormed ∧ n.exponent = none ∧ n.significand = s := by
  constructor
  · rintro (⟨digits, nonempty⟩ | ⟨digits, nonempty, fraction⟩ | ⟨digits, nonempty⟩)
    · exact ⟨_, Numeral.isWellFormed_digits digits nonempty, rfl, List.append_nil s⟩
    · exact ⟨⟨_, some _, none⟩, ⟨digits, fraction, .inl nonempty, nofun⟩, rfl, rfl⟩
    · exact ⟨⟨[], some _, none⟩, ⟨List.forall_mem_nil _, digits, .inr nonempty, nofun⟩, rfl, rfl⟩
  · rintro ⟨⟨whole, fraction, exponent⟩, h, -, rfl⟩
    cases fraction with
    | none =>
      have hne : whole ≠ [] := h.nonempty.resolve_right fun hne => hne rfl
      have hchars : (Numeral.mk whole none exponent).significand = whole := List.append_nil whole
      rw [hchars]
      exact .whole h.whole hne
    | some t =>
      by_cases hne : whole = []
      · subst hne
        exact .fraction h.fraction (h.nonempty.resolve_left fun hne => hne rfl)
      · exact .point h.whole hne h.fraction

theorem isExponent_iff {s : List Char} :
    IsExponent s ↔ ∃ e : Exponent, e.IsWellFormed ∧ e.chars = s := by
  constructor
  · rintro ⟨mark, signs, digits, nonempty⟩
    rcases signs with rfl | rfl | rfl
    · exact ⟨⟨_, none, _⟩, ⟨mark, nofun, digits, nonempty⟩, rfl⟩
    · exact ⟨⟨_, some '+', _⟩, ⟨mark, by simp, digits, nonempty⟩, rfl⟩
    · exact ⟨⟨_, some '-', _⟩, ⟨mark, by simp, digits, nonempty⟩, rfl⟩
  · rintro ⟨⟨mark, sign, digits⟩, h, rfl⟩
    refine .intro h.mark ?_ h.digits h.nonempty
    cases sign with
    | none => exact .inl rfl
    | some c => rcases h.sign c rfl with rfl | rfl <;> simp

/-- **A text is a numeral** exactly if it spells a well-formed one. -/
theorem isSpelling_iff {s : List Char} :
    IsSpelling s ↔ ∃ n : Numeral, n.IsWellFormed ∧ n.chars = s := by
  constructor
  · rintro (significand | ⟨significand, exponent⟩)
    · obtain ⟨n, h, hexponent, rfl⟩ := isSignificand_iff.1 significand
      exact ⟨n, h, by rw [Numeral.chars_eq, hexponent, Option.elim_none, List.append_nil]⟩
    · obtain ⟨n, h, -, rfl⟩ := isSignificand_iff.1 significand
      obtain ⟨e, he, rfl⟩ := isExponent_iff.1 exponent
      exact ⟨{ n with exponent := some e },
        { h with exponent := fun _ hmem => Option.some.inj hmem ▸ he }, rfl⟩
  · rintro ⟨n, h, rfl⟩
    have hsignificand : IsSignificand n.significand :=
      isSignificand_iff.2 ⟨n.plain, h.plain, rfl, rfl⟩
    rw [Numeral.chars_eq]
    cases hexponent : n.exponent with
    | none =>
      rw [Option.elim_none, List.append_nil]
      exact .plain hsignificand
    | some e => exact .scaled hsignificand (isExponent_iff.2 ⟨e, h.exponent e hexponent, rfl⟩)

/-! ## The longest one -/

/-- Digits at the front of a text are among the first ones of all. -/
theorem prefix_takeWhile_append {s : List Char} (hs : ∀ c ∈ s, c.isDigit = true)
    (t : List Char) : s <+: (s ++ t).takeWhile Char.isDigit := by
  rw [List.takeWhile_append_of_pos hs]
  exact List.prefix_append s _

/-- An exponent at the front of a text is no longer than the one split off. -/
theorem Exponent.exists_split?_append {e : Exponent} (h : e.IsWellFormed) (t : List Char) :
    ∃ e' rest, Exponent.split? (e.chars ++ t) = some (e', rest) ∧ e.chars <+: e'.chars := by
  have hsign : splitSign (e.sign.toList ++ e.digits ++ t) = (e.sign, e.digits ++ t) := by
    cases hsign : e.sign with
    | none =>
      refine splitSign_of_isDigit fun c hc => ne_sign_of_isDigit (h.digits c ?_)
      obtain ⟨d, s, hcons⟩ := List.exists_cons_of_ne_nil h.nonempty
      rw [hcons] at hc ⊢
      exact Option.some.inj hc ▸ List.mem_cons_self
    | some c => rcases h.sign c hsign with rfl | rfl <;> rfl
  have hpre := prefix_takeWhile_append h.digits t
  have hne : (e.digits ++ t).takeWhile Char.isDigit ≠ [] := fun hnil =>
    h.nonempty (List.prefix_nil.1 (hnil ▸ hpre))
  refine ⟨⟨e.mark, e.sign, (e.digits ++ t).takeWhile Char.isDigit⟩,
    (e.digits ++ t).dropWhile Char.isDigit, ?_, ?_⟩
  · simp only [Exponent.split?, Exponent.chars, List.cons_append, hsign, h.mark, true_and,
      if_pos hne]
  · exact List.cons_prefix_cons.2 ⟨rfl, (List.prefix_append_right_inj _).2 hpre⟩

namespace Numeral

/-- **What is split off**: the digits at the front of the text, the point and digits behind them,
and the exponent behind those. -/
theorem map_chars_split? {s rest : List Char} {fraction : Option (List Char)}
    (h : splitFraction (s.dropWhile Char.isDigit) = (fraction, rest)) :
    (split? s).map (fun n => n.1.chars)
      = if s.takeWhile Char.isDigit = [] ∧ fraction.getD [] = [] then none
        else some (s.takeWhile Char.isDigit ++ fraction.elim [] ('.' :: ·)
          ++ (Exponent.split? rest).elim [] fun e => e.1.chars) := by
  simp only [split?, h]
  split
  · rfl
  · cases Exponent.split? rest <;> rfl

theorem exists_split?_of_splitFraction {s rest : List Char} {fraction : Option (List Char)}
    (h : splitFraction (s.dropWhile Char.isDigit) = (fraction, rest))
    (hdigits : ¬ (s.takeWhile Char.isDigit = [] ∧ fraction.getD [] = [])) :
    ∃ m rest', split? s = some (m, rest')
      ∧ s.takeWhile Char.isDigit ++ fraction.elim [] ('.' :: ·) <+: m.chars := by
  have hchars := map_chars_split? h
  rw [if_neg hdigits, Option.map_eq_some_iff] at hchars
  obtain ⟨⟨m, rest'⟩, hsplit, hm⟩ := hchars
  exact ⟨m, rest', hsplit, hm ▸ List.prefix_append _ _⟩

/-- What stands in front of an exponent at the front of a text is no longer than what is split
off. -/
theorem exists_split?_significand_append {n : Numeral} (h : n.IsWellFormed) (t : List Char) :
    ∃ m rest, split? (n.significand ++ t) = some (m, rest) ∧ n.significand <+: m.chars := by
  cases hfraction : n.fraction with
  | none =>
    have hne : n.whole ≠ [] := h.nonempty.resolve_right fun hne => hne (by rw [hfraction]; rfl)
    have hpre := prefix_takeWhile_append h.whole t
    have hdigits : (n.whole ++ t).takeWhile Char.isDigit ≠ [] := fun hnil =>
      hne (List.prefix_nil.1 (hnil ▸ hpre))
    rw [significand, hfraction, Option.elim_none, List.append_nil]
    obtain ⟨m, rest, hsplit, hlonger⟩ :=
      exists_split?_of_splitFraction (s := n.whole ++ t) rfl fun hnil => hdigits hnil.1
    exact ⟨m, rest, hsplit, (hpre.trans (List.prefix_append _ _)).trans hlonger⟩
  | some f =>
    have hf : ∀ c ∈ f, c.isDigit = true := fun c hc => h.fraction c (by rwa [hfraction])
    have hpoint : ∀ c ∈ ('.' :: (f ++ t)).head?, c.isDigit = false := by
      rintro c ⟨⟩
      rfl
    have hpre := prefix_takeWhile_append hf t
    have htake := takeWhile_isDigit_append h.whole hpoint
    have hdigits : ¬ ((n.whole ++ '.' :: (f ++ t)).takeWhile Char.isDigit = []
        ∧ (f ++ t).takeWhile Char.isDigit = []) := by
      rintro ⟨hwhole, hdigits⟩
      rw [htake] at hwhole
      refine h.nonempty.elim (absurd hwhole) fun hne => hne ?_
      rw [hfraction]
      exact List.prefix_nil.1 (hdigits ▸ hpre)
    rw [significand, hfraction, Option.elim_some, List.append_assoc, List.cons_append]
    obtain ⟨m, rest, hsplit, hlonger⟩ := exists_split?_of_splitFraction
      (congrArg splitFraction (dropWhile_isDigit_append h.whole hpoint)) hdigits
    rw [htake] at hlonger
    refine ⟨m, rest, hsplit, List.IsPrefix.trans ?_ hlonger⟩
    exact (List.prefix_append_right_inj _).2 (List.cons_prefix_cons.2 ⟨rfl, hpre⟩)

/-- **What is split off is no shorter than a numeral at the front.** -/
theorem exists_split?_append {n : Numeral} (h : n.IsWellFormed) (t : List Char) :
    ∃ m rest, split? (n.chars ++ t) = some (m, rest) ∧ n.chars <+: m.chars := by
  cases hexponent : n.exponent with
  | none =>
    rw [chars_eq, hexponent, Option.elim_none, List.append_nil]
    exact exists_split?_significand_append h t
  | some e =>
    have he := h.exponent e hexponent
    obtain ⟨e', rest, hsplit, hpre⟩ := Exponent.exists_split?_append he t
    have hmark : ∀ c ∈ (e.chars ++ t).head?, c.isDigit = false ∧ c ≠ '.' := by
      intro c hc
      obtain rfl : e.mark = c := Option.some.inj hc
      rcases he.mark with hmark | hmark <;> rw [hmark] <;> decide
    rw [chars_eq, hexponent, Option.elim_some, List.append_assoc,
      split?_significand_append h hmark, hsplit]
    exact ⟨_, _, rfl, (List.prefix_append_right_inj _).2 hpre⟩

/-- **The numeral split off is the longest one** at the front of the text. -/
theorem prefix_chars_of_split? {s rest q : List Char} {n : Numeral}
    (h : split? s = some (n, rest)) (hpre : q <+: s) (hq : IsSpelling q) : q <+: n.chars := by
  obtain ⟨t, rfl⟩ := hpre
  obtain ⟨m, hm, rfl⟩ := isSpelling_iff.1 hq
  obtain ⟨m', rest', hsplit, hlonger⟩ := exists_split?_append hm t
  obtain ⟨rfl, -⟩ := Prod.mk.inj (Option.some.inj (hsplit.symm.trans h))
  exact hlonger

end Numeral

/-- A numeral starts as numerals can. -/
theorem IsSpelling.startsNumeral_append {s : List Char} (h : IsSpelling s) (t : List Char) :
    StartsNumeral (s ++ t) := by
  have hdigits {s : List Char} (hs : ∀ c ∈ s, c.isDigit = true) (hne : s ≠ []) :
      ∃ c u, s = c :: u ∧ c.isDigit = true := by
    obtain ⟨c, u, rfl⟩ := List.exists_cons_of_ne_nil hne
    exact ⟨c, u, rfl, hs c List.mem_cons_self⟩
  have hsignificand {s : List Char} (hs : IsSignificand s) (t : List Char) :
      StartsNumeral (s ++ t) := by
    rcases hs with ⟨digits, nonempty⟩ | ⟨digits, nonempty, -⟩ | ⟨digits, nonempty⟩
    · obtain ⟨c, u, rfl, hc⟩ := hdigits digits nonempty
      exact .digit hc
    · obtain ⟨c, u, rfl, hc⟩ := hdigits digits nonempty
      exact .digit hc
    · obtain ⟨c, u, rfl, hc⟩ := hdigits digits nonempty
      exact .point hc
  rcases h with significand | ⟨significand, -⟩
  · exact hsignificand significand t
  · rw [List.append_assoc]
    exact hsignificand significand _

/-- **A numeral is split off exactly where one can start.** -/
theorem exists_split?_iff {s : List Char} :
    (∃ n rest, Numeral.split? s = some (n, rest)) ↔ StartsNumeral s := by
  constructor
  · rintro ⟨n, rest, h⟩
    have hspelling : IsSpelling n.chars :=
      isSpelling_iff.2 ⟨n, Numeral.isWellFormed_of_split? h, rfl⟩
    exact Numeral.chars_append_of_split? h ▸ hspelling.startsNumeral_append rest
  · rintro (hdigit | hdigit)
    · obtain ⟨m, rest, h, -⟩ := Numeral.exists_split?_append
        (Numeral.isWellFormed_digits (List.forall_mem_singleton.2 hdigit) (List.cons_ne_nil _ _)) _
      exact ⟨m, rest, h⟩
    · have hwell : (Numeral.mk [] (some [_]) none).IsWellFormed :=
        ⟨List.forall_mem_nil _, List.forall_mem_singleton.2 hdigit, .inr (List.cons_ne_nil _ _),
          nofun⟩
      obtain ⟨m, rest, h, -⟩ := Numeral.exists_split?_append hwell _
      exact ⟨m, rest, h⟩

/-! ## Counting bytes -/

/-- Whether a byte is that of an ASCII digit. -/
def isDigitByte (b : UInt8) : Bool := '0'.toUInt8 ≤ b && b ≤ '9'.toUInt8

/-- The index behind the digits that start at index `j`. -/
def digitsEnd (bytes : List UInt8) (j : Nat) : Nat :=
  j + ((bytes.drop j).takeWhile isDigitByte).length

/-- The index behind the sign at index `j`, if there is one there. -/
def signEnd (bytes : List UInt8) (j : Nat) : Nat :=
  if bytes[j]? = some '+'.toUInt8 ∨ bytes[j]? = some '-'.toUInt8 then j + 1 else j

/-- The index behind the exponent at index `j`, or `j` if there is none with a digit in it. -/
def exponentEnd (bytes : List UInt8) (j : Nat) : Nat :=
  if bytes[j]? = some 'e'.toUInt8 ∨ bytes[j]? = some 'E'.toUInt8 then
    let digits := signEnd bytes (j + 1)
    if digits < digitsEnd bytes digits then digitsEnd bytes digits else j
  else j

/-- The index behind the numeral that some bytes start with, found by counting. -/
def numeralEnd? (bytes : List UInt8) : Option Nat :=
  let whole := digitsEnd bytes 0
  if bytes[whole]? = some '.'.toUInt8 then
    let fraction := digitsEnd bytes (whole + 1)
    if whole + (fraction - whole - 1) = 0 then none else some (exponentEnd bytes fraction)
  else if whole = 0 then none
  else some (exponentEnd bytes whole)

example : numeralEnd? "1.5.2".toUTF8.data.toList = some 3
    ∧ numeralEnd? "7e+π".toUTF8.data.toList = some 1
    ∧ numeralEnd? ".e3".toUTF8.data.toList = none := by decide

/-- A byte of a digit is a digit's. -/
theorem isDigitByte_toUInt8 {c : Char} (hc : c.toNat < 128) :
    isDigitByte c.toUInt8 = c.isDigit := by
  rw [Bool.eq_iff_iff, isDigit_iff]
  simp only [isDigitByte, Bool.and_eq_true, decide_eq_true_eq, UInt8.le_iff_toNat_le,
    Text.toNat_toUInt8 hc]
  exact Iff.rfl

theorem isDigitByte_eq_false {b : UInt8} (hb : 128 ≤ b.toNat) : isDigitByte b = false := by
  rw [Bool.eq_false_iff]
  simp only [isDigitByte, ne_eq, Bool.and_eq_true, decide_eq_true_eq, UInt8.le_iff_toNat_le]
  rintro ⟨-, hle⟩
  exact absurd (Nat.le_trans hb hle) (by decide)

/-- **The bytes of the digits** at the front of a text are the digits' bytes. -/
theorem takeWhile_isDigitByte (s : List Char) :
    (Text.bytes s).takeWhile isDigitByte = Text.bytes (s.takeWhile Char.isDigit) := by
  induction s with
  | nil => rfl
  | cons c s ih =>
    have hcons : Text.bytes (c :: s) = String.utf8EncodeChar c ++ Text.bytes s := rfl
    rw [hcons]
    rcases Text.encode_cases c with ⟨hc, hencode⟩ | ⟨hc, b, rest, hencode, hb⟩
    · rw [hencode, List.singleton_append, List.takeWhile_cons, isDigitByte_toUInt8 hc,
        List.takeWhile_cons]
      split
      · rw [ih, Text.bytes, Text.bytes, List.flatMap_cons, hencode, List.singleton_append]
      · rfl
    · have hdigit : ¬ c.isDigit = true := fun h => by
        have hrange := isDigit_iff.1 h
        omega
      rw [hencode, List.cons_append, List.takeWhile_cons_of_neg (by simp [isDigitByte_eq_false hb]),
        List.takeWhile_cons_of_neg hdigit]
      rfl

section Counting

variable (s t : List Char)

theorem digitsEnd_bytes :
    digitsEnd (Text.bytes (s ++ t)) (Text.byteSize s)
      = Text.byteSize (s ++ t.takeWhile Char.isDigit) := by
  rw [digitsEnd, Text.drop_bytes_append, takeWhile_isDigitByte, Text.length_bytes,
    Text.byteSize_append]

/-- An ASCII character behind a text stands there exactly if its byte does. -/
theorem getElem?_bytes_iff {d : Char} (hd : d.toNat < 128) :
    (Text.bytes (s ++ t))[Text.byteSize s]? = some d.toUInt8 ↔ t.head? = some d := by
  rw [Text.getElem?_bytes_append, Text.head?_bytes_eq_some_iff hd]

theorem signEnd_bytes :
    signEnd (Text.bytes (s ++ t)) (Text.byteSize s)
      = Text.byteSize (s ++ (splitSign t).1.toList) := by
  have hplus := getElem?_bytes_iff s t (d := '+') (by decide)
  have hminus := getElem?_bytes_iff s t (d := '-') (by decide)
  simp only [signEnd, hplus, hminus]
  by_cases hsign : t.head? = some '+' ∨ t.head? = some '-'
  · rw [if_pos hsign]
    rcases hsign with hsign | hsign <;> obtain ⟨u, rfl⟩ := List.head?_eq_some_iff.1 hsign <;>
      rw [Text.byteSize_append] <;> rfl
  · have hnone : splitSign t = (none, t) := splitSign_of_isDigit fun c hc =>
      ⟨fun h => hsign (.inl (h ▸ hc)), fun h => hsign (.inr (h ▸ hc))⟩
    rw [if_neg hsign, hnone, Option.toList_none, List.append_nil]

/-- **The bytes of an exponent** are those of the one split off. -/
theorem exponentEnd_bytes :
    exponentEnd (Text.bytes (s ++ t)) (Text.byteSize s)
      = Text.byteSize (s ++ (Exponent.split? t).elim [] fun e => e.1.chars) := by
  have hlower := getElem?_bytes_iff s t (d := 'e') (by decide)
  have hupper := getElem?_bytes_iff s t (d := 'E') (by decide)
  simp only [exponentEnd, hlower, hupper]
  cases t with
  | nil => simp [Exponent.split?]
  | cons c u =>
    simp only [List.head?_cons, Option.some.injEq]
    by_cases hmark : c = 'e' ∨ c = 'E'
    · have hone : Text.byteSize s + 1 = Text.byteSize (s ++ [c]) := by
        rcases hmark with rfl | rfl <;> rw [Text.byteSize_append] <;> rfl
      have hsign := signEnd_bytes (s ++ [c]) u
      have hdigits := digitsEnd_bytes (s ++ [c] ++ (splitSign u).1.toList) (splitSign u).2
      rw [List.append_assoc (s ++ [c]), splitSign_append, ← List.append_cons] at hdigits
      rw [← List.append_cons] at hsign
      rw [if_pos hmark, hone, hsign, hdigits, Text.byteSize_append _ (List.takeWhile _ _)]
      by_cases hnil : (splitSign u).2.takeWhile Char.isDigit = []
      · simp [Exponent.split?, hnil]
      · have hpos := Text.length_le_byteSize ((splitSign u).2.takeWhile Char.isDigit)
        have hlength := List.length_pos_iff.2 hnil
        rw [if_pos (by omega)]
        simp only [Exponent.split?, Exponent.chars, hmark, hnil, ne_eq, not_false_eq_true, and_self,
          if_true, Option.elim_some, List.append_assoc, List.cons_append, List.nil_append,
          Text.byteSize_append, Text.byteSize_cons]
        omega
    · rw [if_neg hmark]
      simp [Exponent.split?, hmark]

theorem byteSize_eq_zero_iff : Text.byteSize s = 0 ↔ s = [] := by
  refine ⟨fun h => List.length_eq_zero_iff.1 ?_, fun h => h ▸ rfl⟩
  exact Nat.le_zero.1 (h ▸ Text.length_le_byteSize s)

/-! The digits that a text starts with, and what is behind them. -/

theorem digitsEnd_bytes_zero :
    digitsEnd (Text.bytes s) 0 = Text.byteSize (s.takeWhile Char.isDigit) :=
  digitsEnd_bytes [] s

theorem getElem?_bytes_point_iff :
    (Text.bytes s)[Text.byteSize (s.takeWhile Char.isDigit)]? = some '.'.toUInt8
      ↔ (s.dropWhile Char.isDigit).head? = some '.' := by
  have hpoint := getElem?_bytes_iff (s.takeWhile Char.isDigit) (s.dropWhile Char.isDigit)
    (d := '.') (by decide)
  rwa [List.takeWhile_append_dropWhile] at hpoint

variable {s t}

theorem numeralEnd?_bytes_of_point (ht : s.dropWhile Char.isDigit = '.' :: t) :
    numeralEnd? (Text.bytes s)
      = ((Numeral.split? s).map fun n => n.1.chars).map Text.byteSize := by
  have hs : s.takeWhile Char.isDigit ++ '.' :: t = s := ht ▸ List.takeWhile_append_dropWhile
  have hhead : (s.dropWhile Char.isDigit).head? = some '.' := by rw [ht]; rfl
  have hfraction : splitFraction (s.dropWhile Char.isDigit)
      = (some (t.takeWhile Char.isDigit), t.dropWhile Char.isDigit) := by rw [ht]; rfl
  rw [Numeral.map_chars_split? hfraction, Option.getD_some, Option.elim_some]
  simp only [numeralEnd?, digitsEnd_bytes_zero, getElem?_bytes_point_iff, if_pos hhead]
  generalize s.takeWhile Char.isDigit = whole at hs ⊢
  have hone : Text.byteSize whole + 1 = Text.byteSize (whole ++ ['.']) := by
    rw [Text.byteSize_append]; rfl
  have hdigits := digitsEnd_bytes (whole ++ ['.']) t
  have hexponent := exponentEnd_bytes (whole ++ '.' :: t.takeWhile Char.isDigit)
    (t.dropWhile Char.isDigit)
  rw [← List.append_cons, hs, ← hone, ← List.append_cons] at hdigits
  rw [List.append_assoc, List.cons_append, List.takeWhile_append_dropWhile, hs] at hexponent
  -- A digit is counted for each byte on either side of the point, so none if both are empty.
  have hcount : Text.byteSize whole
      + (Text.byteSize (whole ++ '.' :: t.takeWhile Char.isDigit) - Text.byteSize whole - 1) = 0
        ↔ whole = [] ∧ t.takeWhile Char.isDigit = [] := by
    rw [← byteSize_eq_zero_iff, ← byteSize_eq_zero_iff, Text.byteSize_append, Text.byteSize_cons]
    have hpoint : '.'.utf8Size = 1 := rfl
    omega
  simp only [hdigits, hexponent, hcount, apply_ite (Option.map Text.byteSize), Option.map_none,
    Option.map_some]

theorem numeralEnd?_bytes_of_no_point (h : (s.dropWhile Char.isDigit).head? ≠ some '.') :
    numeralEnd? (Text.bytes s)
      = ((Numeral.split? s).map fun n => n.1.chars).map Text.byteSize := by
  have hfraction :
      splitFraction (s.dropWhile Char.isDigit) = (none, s.dropWhile Char.isDigit) := by
    unfold splitFraction
    split
    · next hcons => exact absurd (by rw [hcons]; rfl) h
    · rfl
  have hexponent := exponentEnd_bytes (s.takeWhile Char.isDigit) (s.dropWhile Char.isDigit)
  rw [List.takeWhile_append_dropWhile] at hexponent
  rw [Numeral.map_chars_split? hfraction, Option.getD_none, Option.elim_none, List.append_nil]
  simp only [numeralEnd?, digitsEnd_bytes_zero, getElem?_bytes_point_iff, if_neg h, hexponent,
    byteSize_eq_zero_iff, and_true, apply_ite (Option.map Text.byteSize), Option.map_none,
    Option.map_some]

/-- **The bytes counted are those of the numeral split off.** -/
theorem numeralEnd?_bytes (s : List Char) :
    numeralEnd? (Text.bytes s)
      = ((Numeral.split? s).map fun n => n.1.chars).map Text.byteSize := by
  by_cases hhead : (s.dropWhile Char.isDigit).head? = some '.'
  · obtain ⟨t, ht⟩ := List.head?_eq_some_iff.1 hhead
    exact numeralEnd?_bytes_of_point ht
  · exact numeralEnd?_bytes_of_no_point hhead

end Counting

/-! ## The front that is read -/

/-- **The longest numeral at the front of a text is read.**  A text in which no numeral can start
has none at its front, for either way of looking for it.  In any other, counting bytes ends behind
whole characters, at a numeral that every numeral at the front of the text is a part of; it spells a
number, and that is what is read. -/
theorem readFront?_longest (text : String) :
    (¬ StartsNumeral text.toList ∧ numeralEnd? text.toUTF8.data.toList = none
        ∧ readFront? text.toList = none)
      ∨ (StartsNumeral text.toList ∧ ∃ (front rest : String) (v : Float),
        text = front ++ rest ∧ numeralEnd? text.toUTF8.data.toList = some front.utf8ByteSize
          ∧ IsSpelling front.toList
          ∧ (∀ q, q <+: text.toList → IsSpelling q → q <+: front.toList)
          ∧ read? front.toList = some v ∧ readFront? text.toList = some v) := by
  rw [← Text.bytes_toList, numeralEnd?_bytes, Option.map_map]
  cases hsplit : Numeral.split? text.toList with
  | none =>
    refine .inl ⟨fun hstarts => ?_, rfl, by rw [readFront?, hsplit]; rfl⟩
    obtain ⟨n, rest, hn⟩ := exists_split?_iff.2 hstarts
    cases hn.symm.trans hsplit
  | some found =>
    obtain ⟨n, rest⟩ := found
    have hwell := Numeral.isWellFormed_of_split? hsplit
    refine .inr ⟨exists_split?_iff.1 ⟨n, rest, hsplit⟩, String.ofList n.chars, String.ofList rest,
      n.value.toFloat, ?_⟩
    rw [String.toList_ofList, ← String.ofList_append, Numeral.chars_append_of_split? hsplit,
      String.ofList_toList, ← Text.byteSize_toList, String.toList_ofList]
    exact ⟨rfl, rfl, isSpelling_iff.2 ⟨n, hwell, rfl⟩,
      fun q => Numeral.prefix_chars_of_split? hsplit, read?_chars hwell,
      by rw [readFront?, hsplit]; rfl⟩

/-- A numeral with all its parts, in front of an accented letter and a second point, and a shorter
numeral at its front. -/
theorem readFront?_longest_accented :
    let text : String := "12.5e-3é.7"
    "12.5".toList <+: text.toList ∧ IsSpelling "12.5".toList
      ∧ ∃ front rest : String, text = front ++ rest ∧ front.utf8ByteSize = 7
        ∧ "12.5".toList <+: front.toList ∧ read? front.toList = some 0.0125
        ∧ readFront? text.toList = some 0.0125 := by
  intro text
  have hpre : "12.5".toList <+: text.toList := by decide
  have hspelling : IsSpelling "12.5".toList :=
    isSpelling_iff.2 ⟨⟨['1', '2'], some ['5'], none⟩, by decide, rfl⟩
  have hbytes : numeralEnd? text.toUTF8.data.toList = some 7 := by decide
  have hvalue : readFront? text.toList = some 0.0125 := by decide +kernel
  refine ⟨hpre, hspelling, ?_⟩
  rcases readFront?_longest text with
    ⟨-, hend, -⟩ | ⟨-, front, rest, v, htext, hend, -, hlongest, hread, hfront⟩
  · cases hbytes.symm.trans hend
  · obtain rfl : 0.0125 = v := Option.some.inj (hvalue.symm.trans hfront)
    exact ⟨front, rest, htext, Option.some.inj (hend.symm.trans hbytes),
      hlongest _ hpre hspelling, hread, hfront⟩

end Number

end FormulaPlot
