/-
The numerals that the compiler and `tonumber` read alike.

The compiler has no value for an integer that is out of range, where `tonumber` has one.  The
conversion of hexadecimal floats, which both use, asks for neither digits nor their being unsigned,
and has no room for an integer part from 2^64 on; and to the host a vertical tab is no space.

* `LiteralAgrees`, `literal_agrees_iff` — the literals with the value that `tonumber` gives;
* `Misread`, `text_agrees_iff` — the texts that are converted iff they are numerals;
* `numerals_agree_iff` — **the numerals and the bytes that both sides read as they should**.
-/

import Tcvm.NumeralText

namespace Tcvm

open Utf8Text

/-! ### What `tonumber` accepts -/

/-- A hexadecimal float has a point or a mark. -/
theorem any_mark_iff (hex : List Char) :
    (hex.any fun c => c == '.' || c == 'p' || c == 'P') = true ↔
      (realParts isBinaryMark hex).2.1.isSome ∨ (realParts isBinaryMark hex).2.2.isSome := by
  have hchar : ∀ c : Char, (c == '.' || c == 'p' || c == 'P') = (isPoint c || isBinaryMark c) :=
    fun c => Bool.or_assoc _ _ _
  simp only [hchar, List.any_eq_true, Bool.or_eq_true]
  constructor
  · rintro ⟨c, hc, hmark⟩
    by_contra hnone
    have hwhole := realParts_whole hnone
    obtain ⟨hmarkfree, -⟩ := splitFirst_spec isBinaryMark hex
    obtain ⟨hpointfree, -⟩ := splitFirst_spec isPoint (splitFirst isBinaryMark hex).1
    have hint : (splitFirst isPoint (splitFirst isBinaryMark hex).1).1 = hex :=
      congrArg Prod.fst hwhole
    obtain ⟨-, ⟨-, hs⟩ | ⟨m, e, hsome, -, -⟩⟩ := splitFirst_spec isBinaryMark hex
    · rw [hs] at hint hmarkfree hpointfree
      rw [hint] at hpointfree
      rcases hmark with hpoint | hbinary
      · exact absurd hpoint (by rw [hpointfree c hc]; exact Bool.false_ne_true)
      · exact absurd hbinary (by rw [hmarkfree c hc]; exact Bool.false_ne_true)
    · have hexp : (splitFirst isBinaryMark hex).2 = none := congrArg (fun t => t.2.2) hwhole
      exact absurd (hexp.symm.trans hsome) (by simp)
  · rintro (hfrac | hexp)
    · obtain ⟨-, ⟨hnone, -⟩ | ⟨c, frac, -, hc, heq⟩⟩ :=
        splitFirst_spec isPoint (splitFirst isBinaryMark hex).1
      · rw [realParts, hnone] at hfrac
        cases hfrac
      · have hmem : c ∈ (splitFirst isBinaryMark hex).1 := by
          rw [← heq]
          simp
        refine ⟨c, ?_, Or.inl hc⟩
        obtain ⟨-, ⟨-, hs⟩ | ⟨m, e, -, -, hs⟩⟩ := splitFirst_spec isBinaryMark hex
        · exact hs ▸ hmem
        · rw [← hs]
          exact List.mem_append_left _ hmem
    · obtain ⟨-, ⟨hnone, -⟩ | ⟨m, e, -, hm, heq⟩⟩ := splitFirst_spec isBinaryMark hex
      · rw [realParts, hnone] at hexp
        cases hexp
      · refine ⟨m, ?_, Or.inr hm⟩
        rw [← heq]
        simp

theorem strToNumber_eq (powi : ℤ → UInt64) (text : List Char) :
    strToNumber powi text =
      if trimMatches isAsciiWhitespace text = [] then none
      else
        match stripHex (numeralBody text) with
        | some hex =>
            if hex = [] then none
            else if hex.any fun c => c == '.' || c == 'p' || c == 'P' then
              (parseHexFloat powi (numeralBody text)).map fun f => Value.float
                (if (takeSign (trimMatches isAsciiWhitespace text)).1 then Binary64.neg f else f)
            else if hex.all isHexDigit then
              some (Value.integer (if (takeSign (trimMatches isAsciiWhitespace text)).1 then
                -wrapDigits hex else wrapDigits hex))
            else none
        | none =>
            if !(numeralBody text).all isDecimalChar || !(numeralBody text).any isDecDigit then none
            else
              match i64FromStr 10 (trimMatches isAsciiWhitespace text) with
              | some i => some (Value.integer i)
              | none => (f64FromStr (trimMatches isAsciiWhitespace text)).map Value.float := rfl

/-- A hexadecimal text is converted iff the host converts its parts. -/
theorem strToNumber_hex_isSome_iff (powi : ℤ → UInt64) {text hex : List Char}
    (h : stripHex (numeralBody text) = some hex) :
    (strToNumber powi text).isSome ↔
      if (realParts isBinaryMark hex).2.1.isSome ∨ (realParts isBinaryMark hex).2.2.isSome then
        HexAccepted (realParts isBinaryMark hex)
      else hex ≠ [] ∧ ∀ c ∈ hex, isHexDigit c = true := by
  have hne : trimMatches isAsciiWhitespace text ≠ [] := by
    intro hnil
    rw [numeralBody, hnil] at h
    cases h
  rw [strToNumber_eq, if_neg hne, h]
  dsimp only
  by_cases hempty : hex = []
  · subst hempty
    exact ⟨fun hsome => (by cases hsome), fun hnil => absurd rfl hnil.1⟩
  · rw [if_neg hempty]
    by_cases hmark : (hex.any fun c => c == '.' || c == 'p' || c == 'P') = true
    · rw [if_pos hmark, if_pos ((any_mark_iff hex).1 hmark), Option.isSome_map]
      exact parseHexFloat_isSome_iff powi h
    · rw [if_neg hmark, if_neg fun hreal => hmark ((any_mark_iff hex).2 hreal)]
      split
      case isTrue hall => exact ⟨fun _ => ⟨hempty, List.all_eq_true.1 hall⟩, fun _ => rfl⟩
      case isFalse hall =>
        exact ⟨fun hsome => (by cases hsome), fun hd => absurd (List.all_eq_true.2 hd.2) hall⟩

/-- The characters of decimal numerals, with a digit among them. -/
theorem decimal_chars {s : List Char} (h : ProperParts isDecDigit (realParts isExpMark s)) :
    s.all isDecimalChar = true ∧ s.any isDecDigit = true := by
  have hdigit : ∀ c, isDecDigit c = true → isDecimalChar c = true := by
    intro c hc
    rw [isDecimalChar, hc]
    rfl
  have hinteger : ∀ e, SpellsInteger e → ∀ c ∈ e, isDecimalChar c = true := by
    rintro e ⟨sign, digits, rfl, hsign, -, hdigits⟩ c hc
    rcases List.mem_append.1 hc with hc | hc
    · rcases hsign with rfl | rfl | rfl
      · exact nomatch hc
      · exact List.mem_singleton.1 hc ▸ rfl
      · exact List.mem_singleton.1 hc ▸ rfl
    · exact hdigit c (hdigits c hc)
  constructor
  · refine List.all_eq_true.2 fun c hc => ?_
    rcases @mem_realParts isExpMark _ _ hc with hmem | rfl | hm | ⟨e, he, hmem⟩
    · exact hdigit c (h.digits c hmem)
    · rfl
    · rcases Bool.or_eq_true_iff.1 hm with hc | hc
      · exact beq_iff_eq.1 hc ▸ rfl
      · exact beq_iff_eq.1 hc ▸ rfl
    · exact hinteger e (h.exponent e he) c hmem
  · rw [List.any_eq_true]
    rcases (spellsDecimal_iff s).2 h with ⟨hne, hdigits⟩ | hreal
    · obtain ⟨c, t, rfl⟩ := List.exists_cons_of_ne_nil hne
      exact ⟨c, List.mem_cons_self, hdigits c List.mem_cons_self⟩
    · obtain ⟨int, point, frac, tail, rfl, hdigits, hne, -⟩ := hreal
      obtain ⟨c, t, hct⟩ := List.exists_cons_of_ne_nil hne
      have hmem : c ∈ int ++ frac := hct ▸ List.mem_cons_self
      refine ⟨c, ?_, hdigits c hmem⟩
      rcases List.mem_append.1 hmem with hint | hfrac
      · simp [hint]
      · simp [hfrac]

theorem f64FromStr_eq (s : List Char) :
    f64FromStr s = f64Unsigned (takeSign s).1 (takeSign s).2 := by
  rcases takeSign_cases s with ⟨digits, rfl, hsign⟩ | ⟨digits, rfl, hsign⟩ | ⟨hsign, hhead⟩
  · rfl
  · rfl
  · rw [hsign]
    unfold f64FromStr
    split
    case h_1 => exact absurd rfl (hhead '-' rfl).1
    case h_2 => exact absurd rfl (hhead '+' rfl).2
    case h_3 => rfl

/-- Decimal characters are no name of a number. -/
theorem f64Unsigned_decimal (negative : Bool) {s : List Char} (h : s.all isDecimalChar = true) :
    f64Unsigned negative s = parseDecimal negative s := by
  -- each of the names has an `n`, which is in no numeral
  have hfree : 'n' ∉ s.map Char.toLower := by
    intro hmem
    obtain ⟨c, hc, hlower⟩ := List.mem_map.1 hmem
    have hdecimal := List.all_eq_true.1 h c hc
    by_cases hupper : c.val ≥ 'A'.val ∧ c.val ≤ 'Z'.val
    · have hE : c = 'E' := by
        obtain ⟨hlow, hhigh⟩ := hupper
        have hlow : 65 ≤ c.toNat := UInt32.le_iff_toNat_le.1 hlow
        have hhigh : c.toNat ≤ 90 := UInt32.le_iff_toNat_le.1 hhigh
        simp only [isDecimalChar, Bool.or_eq_true, beq_iff_eq, isDecDigit_iff, ← Char.toNat_inj]
          at hdecimal ⊢
        simp only [Char.reduceToNat] at hdecimal ⊢
        omega
      rw [hE] at hlower
      exact absurd hlower (by decide)
    · have hsame : c.toLower = c := dif_neg hupper
      rw [hsame] at hlower
      rw [hlower] at hdecimal
      exact absurd hdecimal (by decide)
  have hspecial : parseSpecial negative s = none := by
    have hne : ∀ name : String, 'n' ∈ name.toList → String.ofList (s.map Char.toLower) ≠ name := by
      intro name hn heq
      rw [← heq, String.toList_ofList] at hn
      exact hfree hn
    unfold parseSpecial
    rw [if_neg (not_or.2 ⟨hne _ (by decide), hne _ (by decide)⟩), if_neg (hne _ (by decide))]
  rw [f64Unsigned, hspecial]
  rfl

/-- A decimal text is converted iff its parts are those of a numeral. -/
theorem strToNumber_decimal_isSome_iff (powi : ℤ → UInt64) {text : List Char}
    (h : stripHex (numeralBody text) = none) :
    (strToNumber powi text).isSome ↔
      ProperParts isDecDigit (realParts isExpMark (numeralBody text)) := by
  rw [strToNumber_eq, h]
  dsimp only
  by_cases hempty : trimMatches isAsciiWhitespace text = []
  · rw [if_pos hempty, numeralBody, hempty]
    exact ⟨fun hsome => (by cases hsome), fun hproper => absurd rfl hproper.some_digit⟩
  · rw [if_neg hempty]
    split
    case isTrue hbad =>
      refine ⟨fun hsome => (by cases hsome), fun hproper => ?_⟩
      obtain ⟨hall, hany⟩ := decimal_chars hproper
      rw [hall, hany] at hbad
      cases hbad
    case isFalse hgood =>
      simp only [Bool.or_eq_true, Bool.not_eq_true', not_or, Bool.not_eq_false] at hgood
      have hfloat : (f64FromStr (trimMatches isAsciiWhitespace text)).isSome ↔
          ProperParts isDecDigit (realParts isExpMark (numeralBody text)) := by
        rw [f64FromStr_eq, ← numeralBody, f64Unsigned_decimal _ hgood.1, parseDecimal_isSome_iff]
      cases hint : i64FromStr 10 (trimMatches isAsciiWhitespace text) with
      | none => rw [← hfloat, Option.isSome_map]
      | some i =>
          -- what is an integer is a float, too
          refine ⟨fun _ => ?_, fun _ => rfl⟩
          have hsome : (parseSigned 10 (-2 ^ 63) (2 ^ 63 - 1)
              (trimMatches isAsciiWhitespace text)).isSome := by
            rw [← Option.isSome_map, ← i64FromStr, hint]
            rfl
          obtain ⟨hspells, -⟩ := parseSigned_isSome_iff.1 hsome
          rw [spellsInteger_iff, parseDigits_isSome_iff] at hspells
          exact (spellsDecimal_iff _).1 (Or.inl hspells)

/-! ### Literals -/

/-- The sixteen digits and the exponent that the host has room for. -/
structure HexFits (parts : List Char × Option (List Char) × Option (List Char)) : Prop where
  whole : digitsValue 16 parts.1 < 2 ^ 64
  exponent : ∀ e ∈ parts.2.2, -2 ^ 31 ≤ signedValue e ∧ signedValue e < 2 ^ 31

/-- The literals that have a value. -/
def LiteralFits : NumeralToken → List Char → Prop
  | NumeralToken.int, s => digitsValue 10 s < 2 ^ 63
  | NumeralToken.hexInt, s => ∀ digits ∈ stripHex s, digitsValue 16 digits < 2 ^ 63
  | NumeralToken.float, _ => True
  | NumeralToken.hexFloat, s => ∀ hex ∈ stripHex s, HexFits (realParts isBinaryMark hex)

/-- The type of a numeral, and the value of an integer: beyond the range, a decimal one is a float,
a hexadecimal one wraps. -/
def HasNumeralType : NumeralToken → List Char → Value → Prop
  | NumeralToken.int, s, v =>
      v = if digitsValue 10 s < 2 ^ 63 then Value.integer (Int64.ofInt (digitsValue 10 s))
        else Value.float (ofDecimal false (digitsValue 10 s) 0)
  | NumeralToken.hexInt, s, v =>
      ∀ digits ∈ stripHex s, v = Value.integer (Int64.ofInt (digitsValue 16 digits))
  | _, _, v => ∃ f, v = Value.float f

/-- The literal has the value that `tonumber` gives its text, of the type it should have. -/
def LiteralAgrees (powi : ℤ → UInt64) (token : NumeralToken) (s : List Char) : Prop :=
  ∃ v, literalValue powi token s = some v ∧ strToNumber powi s = some v ∧ HasNumeralType token s v

theorem i32FromStr_isSome_iff {e : List Char} (h : SpellsInteger e) :
    (i32FromStr e).isSome ↔ -2 ^ 31 ≤ signedValue e ∧ signedValue e < 2 ^ 31 := by
  rw [i32FromStr, parseSigned_isSome_iff, and_iff_right h]
  exact and_congr_right fun _ => Int.le_sub_one_iff

/-- The parts of a numeral are converted iff there is room for them. -/
theorem hexAccepted_iff {parts : List Char × Option (List Char) × Option (List Char)}
    (h : ProperParts isHexDigit parts) : HexAccepted parts ↔ HexFits parts := by
  have hfrac : ∀ c ∈ parts.2.1.getD [], isHexDigit c = true := fun c hc =>
    h.digits c (List.mem_append_right _ hc)
  have hint : ∀ c ∈ parts.1, isHexDigit c = true := fun c hc =>
    h.digits c (List.mem_append_left _ hc)
  constructor
  · rintro ⟨hwhole, -, hexp⟩
    refine ⟨?_, fun e he => (i32FromStr_isSome_iff (h.exponent e he)).1 (hexp e he)⟩
    rcases hwhole with hnil | hsome
    · rw [hnil]
      exact Nat.two_pow_pos 64
    · obtain ⟨digits, hdigits | hplus, -, -, hlt⟩ := u64FromStr_isSome_iff.1 hsome
      · exact hdigits ▸ hlt
      · exact absurd (hint '+' (hplus ▸ List.mem_cons_self)) (by decide)
  · rintro ⟨hlt, hexp⟩
    refine ⟨?_, hfrac, fun e he => (i32FromStr_isSome_iff (h.exponent e he)).2 (hexp e he)⟩
    by_cases hnil : parts.1 = []
    · exact Or.inl hnil
    · exact Or.inr (u64FromStr_isSome_iff.2 ⟨parts.1, Or.inl rfl, hnil, hint, hlt⟩)

theorem Spells.trimmed {token : NumeralToken} {s : List Char} (h : Spells token s) :
    trimMatches isAsciiWhitespace s = s ∧ takeSign s = (false, s) := by
  obtain ⟨hne, hchars, hhead⟩ := h.chars
  have hspace : ∀ c ∈ s, isAsciiWhitespace c = false := by
    intro c hc
    rw [Bool.eq_false_iff]
    exact fun hspace => Bool.eq_false_iff.1 (hchars c hc).not_space
      ((isSpace_iff c).2 (Or.inl hspace))
  refine ⟨?_, takeSign_of_head hhead⟩
  have htrim := @trimMatches_append isAsciiWhitespace [] s [] (fun c hc => (nomatch hc)) hne
    (fun c hc => hspace c (List.mem_of_mem_head? hc))
    (fun c hc => hspace c (List.mem_of_mem_getLast? hc))
  rwa [List.nil_append, List.append_nil] at htrim

/-- A numeral is converted as it is. -/
theorem Spells.strToNumber_eq {token : NumeralToken} {s : List Char} (h : Spells token s)
    (powi : ℤ → UInt64) :
    strToNumber powi s =
      match stripHex s with
      | some hex =>
          if hex = [] then none
          else if hex.any fun c => c == '.' || c == 'p' || c == 'P' then
            (parseHexFloat powi s).map Value.float
          else if hex.all isHexDigit then some (Value.integer (wrapDigits hex))
          else none
      | none =>
          if !s.all isDecimalChar || !s.any isDecDigit then none
          else
            match i64FromStr 10 s with
            | some i => some (Value.integer i)
            | none => (f64FromStr s).map Value.float := by
  obtain ⟨htrim, hsign⟩ := h.trimmed
  have hbody : numeralBody s = s := by rw [numeralBody, htrim, hsign]
  rw [Tcvm.strToNumber_eq, hbody, htrim, hsign, if_neg h.chars.1]
  rfl

/-- The digits in arithmetic that wraps. -/
theorem wrapDigits_eq (digits : List Char) :
    wrapDigits digits = Int64.ofInt (digitsValue 16 digits) := by
  have hloop : ∀ (ds : List Char) (n : ℕ),
      ds.foldl (fun acc c => acc * 16 + UInt64.ofNat (digitOf c)) (UInt64.ofNat n) =
        UInt64.ofNat (ds.foldl (fun n c => 16 * n + digitOf c) n) := by
    intro ds
    induction ds with
    | nil => exact fun n => rfl
    | cons c ds ih =>
        intro n
        rw [List.foldl_cons, List.foldl_cons, ← ih]
        congr 1
        rw [UInt64.ofNat_add, UInt64.ofNat_mul, UInt64.mul_comm]
        rfl
  have hcast : ∀ n : ℕ, (UInt64.ofNat n).toInt64 = Int64.ofInt n := by
    intro n
    apply Int64.toBitVec_inj.1
    simp
  rw [wrapDigits, digitsValue, ← hcast, ← hloop]
  rfl

theorem stripHex_none {s : List Char} (h : s.all isDecimalChar = true) : stripHex s = none := by
  cases hstrip : stripHex s with
  | none => rfl
  | some hex =>
      rcases stripHex_eq_some hstrip with rfl | rfl
      · exact absurd (List.all_eq_true.1 h 'x' (by simp)) (by decide)
      · exact absurd (List.all_eq_true.1 h 'X' (by simp)) (by decide)

/-- Digits in the range of an integer. -/
theorem i64FromStr_digits {radix : ℕ} {s : List Char} (hne : s ≠ [])
    (hdigits : ∀ c ∈ s, isDigitIn radix c = true) (hhead : ∀ c ∈ s.head?, c ≠ '-' ∧ c ≠ '+') :
    i64FromStr radix s = if digitsValue radix s < 2 ^ 63 then
      some (Int64.ofInt (digitsValue radix s)) else none := by
  rw [i64FromStr, parseSigned_unsigned _ _ _ hhead, parseDigits_eq hne hdigits, Option.bind_some]
  by_cases hlt : digitsValue radix s < 2 ^ 63
  · rw [if_pos hlt, if_pos (by omega)]
    rfl
  · rw [if_neg hlt, if_neg (by omega)]
    rfl

theorem int_agrees_iff (powi : ℤ → UInt64) {s : List Char} (h : Spells NumeralToken.int s) :
    LiteralAgrees powi NumeralToken.int s ↔ LiteralFits NumeralToken.int s := by
  have hproper := (spellsDecimal_iff s).1 (Or.inl h)
  obtain ⟨hall, hany⟩ := decimal_chars hproper
  have hint := @i64FromStr_digits 10 s h.1 h.2 h.chars.2.2
  have hstr := h.strToNumber_eq powi
  rw [stripHex_none hall, hall, hany] at hstr
  simp only [LiteralFits]
  constructor
  · rintro ⟨v, hliteral, -⟩
    by_contra hlarge
    rw [literalValue, parseInt, hint, if_neg hlarge] at hliteral
    cases hliteral
  · intro hlt
    refine ⟨Value.integer (Int64.ofInt (digitsValue 10 s)), ?_, ?_, (if_pos hlt).symm⟩
    · rw [literalValue, parseInt, hint, if_pos hlt]
      rfl
    · rw [hstr, hint, if_pos hlt]
      rfl

theorem hexInt_agrees_iff (powi : ℤ → UInt64) {s : List Char} (h : Spells NumeralToken.hexInt s) :
    LiteralAgrees powi NumeralToken.hexInt s ↔ LiteralFits NumeralToken.hexInt s := by
  have hstr := h.strToNumber_eq powi
  have hhead := h.chars.2.2
  obtain ⟨digits, hstrip, hne, hdigits⟩ := h
  have hsign : ∀ c ∈ digits.head?, c ≠ '-' ∧ c ≠ '+' := by
    intro c hc
    have hdigit := hdigits c (List.mem_of_mem_head? hc)
    constructor <;> rintro rfl <;> exact absurd hdigit (by decide)
  have hint := @i64FromStr_digits 16 digits hne hdigits hsign
  have hliteral : literalValue powi NumeralToken.hexInt s =
      (if digitsValue 16 digits < 2 ^ 63 then
        some (Int64.ofInt (digitsValue 16 digits)) else none).map Value.integer := by
    rw [literalValue, parseHexInt, hstrip, ← hint]
    rfl
  have hmark : (digits.any fun c => c == '.' || c == 'p' || c == 'P') = false := by
    rw [Bool.eq_false_iff, Ne, any_mark_iff, realParts_digits hex_apart hdigits]
    rintro (h | h) <;> cases h
  constructor
  · rintro ⟨v, hv, -⟩ ds hds
    obtain rfl := Option.some.inj (hstrip.symm.trans hds)
    by_contra hlarge
    rw [hliteral, if_neg hlarge] at hv
    cases hv
  · intro hlt
    refine ⟨Value.integer (Int64.ofInt (digitsValue 16 digits)), ?_, ?_, fun ds hds => ?_⟩
    · rw [hliteral, if_pos (hlt digits hstrip)]
      rfl
    · rw [hstr, hstrip]
      dsimp only
      rw [if_neg hne, hmark, if_neg Bool.false_ne_true, if_pos (List.all_eq_true.2 hdigits),
        wrapDigits_eq]
    · obtain rfl := Option.some.inj (hstrip.symm.trans hds)
      rfl

theorem float_agrees (powi : ℤ → UInt64) {s : List Char} (h : Spells NumeralToken.float s) :
    LiteralAgrees powi NumeralToken.float s := by
  have hproper := (spellsDecimal_iff s).1 (Or.inr h)
  obtain ⟨hall, hany⟩ := decimal_chars hproper
  have hstr := h.strToNumber_eq powi
  rw [stripHex_none hall, hall, hany] at hstr
  have hint : i64FromStr 10 s = none := by
    rw [i64FromStr, Option.map_eq_none_iff, ← Option.not_isSome_iff_eq_none]
    intro hsome
    obtain ⟨hspells, -⟩ := parseSigned_isSome_iff.1 hsome
    rw [spellsInteger_iff, h.trimmed.2, parseDigits_isSome_iff] at hspells
    obtain ⟨-, hmark⟩ := (spellsReal_iff dec_apart rfl s).1 h
    rw [realParts_digits dec_apart hspells.2] at hmark
    rcases hmark with hmark | hmark <;> cases hmark
  have hsome : (f64FromStr s).isSome := by
    rw [f64FromStr_eq, h.trimmed.2, f64Unsigned_decimal _ hall, parseDecimal_isSome_iff]
    exact hproper
  obtain ⟨f, hf⟩ := Option.isSome_iff_exists.1 hsome
  refine ⟨Value.float f, ?_, ?_, f, rfl⟩
  · rw [literalValue, parseFloat, hf]
    rfl
  · rw [hstr, hint, hf]
    rfl

theorem hexFloat_agrees_iff (powi : ℤ → UInt64) {s : List Char}
    (h : Spells NumeralToken.hexFloat s) :
    LiteralAgrees powi NumeralToken.hexFloat s ↔ LiteralFits NumeralToken.hexFloat s := by
  have hstr := h.strToNumber_eq powi
  obtain ⟨hex, hstrip, hreal⟩ := h
  obtain ⟨hproper, hmark⟩ := (spellsReal_iff hex_apart rfl hex).1 hreal
  have hsome := (parseHexFloat_isSome_iff powi hstrip).trans (hexAccepted_iff hproper)
  have hne : hex ≠ [] := by
    rintro rfl
    exact absurd hmark (by decide)
  rw [hstrip] at hstr
  dsimp only at hstr
  rw [if_neg hne, if_pos ((any_mark_iff hex).2 hmark)] at hstr
  constructor
  · rintro ⟨v, hliteral, -⟩ d hd
    obtain rfl := Option.some.inj (hstrip.symm.trans hd)
    refine hsome.1 ?_
    rw [literalValue] at hliteral
    rw [← Option.isSome_map, hliteral]
    rfl
  · intro hfits
    obtain ⟨f, hf⟩ := Option.isSome_iff_exists.1 (hsome.2 (hfits hex hstrip))
    refine ⟨Value.float f, ?_, ?_, f, rfl⟩
    · rw [literalValue, hf]
      rfl
    · rw [hstr, hf]
      rfl

/-- **The literals with the value that `tonumber` gives their texts.** -/
theorem literal_agrees_iff (powi : ℤ → UInt64) {token : NumeralToken} {s : List Char}
    (h : Spells token s) : LiteralAgrees powi token s ↔ LiteralFits token s := by
  cases token with
  | int => exact int_agrees_iff powi h
  | hexInt => exact hexInt_agrees_iff powi h
  | float => exact iff_of_true (float_agrees powi h) trivial
  | hexFloat => exact hexFloat_agrees_iff powi h

/-! ### Texts -/

/-- The texts that are read wrongly. -/
inductive Misread (text : List Char) : Prop
  /-- A numeral next to a vertical tab. -/
  | verticalTab (htab : '\x0b' ∈ text) (hnumeral : IsNumeralText text)
  /-- A point or a mark without digits. -/
  | noDigits {hex : List Char} (hstrip : stripHex (numeralBody text) = some hex)
      (hmark : (realParts isBinaryMark hex).2.1.isSome ∨ (realParts isBinaryMark hex).2.2.isSome)
      (hnone : (realParts isBinaryMark hex).1 = [] ∧
        (realParts isBinaryMark hex).2.1.getD [] = [])
      (hexp : ∀ e ∈ (realParts isBinaryMark hex).2.2,
        SpellsInteger e ∧ -2 ^ 31 ≤ signedValue e ∧ signedValue e < 2 ^ 31)
  /-- A plus behind the `0x` of a hexadecimal float. -/
  | secondSign {hex digits : List Char} (hstrip : stripHex (numeralBody text) = some hex)
      (hmark : (realParts isBinaryMark hex).2.1.isSome ∨ (realParts isBinaryMark hex).2.2.isSome)
      (hplus : (realParts isBinaryMark hex).1 = '+' :: digits) (hne : digits ≠ [])
      (hdigits : ∀ c ∈ digits ++ (realParts isBinaryMark hex).2.1.getD [], isHexDigit c = true)
      (hlt : digitsValue 16 digits < 2 ^ 64)
      (hexp : ∀ e ∈ (realParts isBinaryMark hex).2.2,
        SpellsInteger e ∧ -2 ^ 31 ≤ signedValue e ∧ signedValue e < 2 ^ 31)
  /-- A hexadecimal float with more digits than fit into a word, or a larger exponent. -/
  | tooLarge {hex : List Char} (hstrip : stripHex (numeralBody text) = some hex)
      (hreal : SpellsReal isHexDigit isBinaryMark hex)
      (hlarge : ¬ HexFits (realParts isBinaryMark hex))

theorem i32FromStr_spells {e : List Char} (h : (i32FromStr e).isSome) :
    SpellsInteger e ∧ -2 ^ 31 ≤ signedValue e ∧ signedValue e < 2 ^ 31 := by
  have hspells := (parseSigned_isSome_iff.1 h).1
  exact ⟨hspells, (i32FromStr_isSome_iff hspells).1 h⟩

/-- The parts that are converted are those of a numeral, have no digits, or a sign. -/
theorem HexAccepted.cases {parts : List Char × Option (List Char) × Option (List Char)}
    (h : HexAccepted parts) :
    ProperParts isHexDigit parts ∨ parts.1 = [] ∧ parts.2.1.getD [] = [] ∨
      ∃ digits, parts.1 = '+' :: digits ∧ digits ≠ [] ∧ digitsValue 16 digits < 2 ^ 64 ∧
        ∀ c ∈ digits ++ parts.2.1.getD [], isHexDigit c = true := by
  have hexp : ∀ e ∈ parts.2.2, SpellsInteger e := fun e he =>
    (i32FromStr_spells (h.exponent e he)).1
  rcases h.whole with hnil | hsome
  · by_cases hfrac : parts.2.1.getD [] = []
    · exact Or.inr (Or.inl ⟨hnil, hfrac⟩)
    · refine Or.inl ⟨?_, ?_, hexp⟩
      · rw [hnil]
        exact h.frac
      · rw [hnil]
        exact hfrac
  · obtain ⟨digits, hdigits | hplus, hne, hall, hlt⟩ := u64FromStr_isSome_iff.1 hsome
    · refine Or.inl ⟨?_, ?_, hexp⟩
      · rw [hdigits]
        exact List.forall_mem_append.2 ⟨hall, h.frac⟩
      · exact fun hnil => hne (hdigits ▸ (List.append_eq_nil_iff.1 hnil).1)
    · exact Or.inr (Or.inr ⟨digits, hplus, hne, hlt, List.forall_mem_append.2 ⟨hall, h.frac⟩⟩)

theorem spells_of_strip {token : NumeralToken} {s hex : List Char} (hstrip : stripHex s = some hex)
    (h : Spells token s) :
    hex ≠ [] ∧ (∀ c ∈ hex, isHexDigit c = true) ∨ SpellsReal isHexDigit isBinaryMark hex := by
  have hdecimal : ¬ (Spells NumeralToken.int s ∨ Spells NumeralToken.float s) := by
    intro hspells
    obtain ⟨hall, -⟩ := decimal_chars ((spellsDecimal_iff s).1 hspells)
    exact absurd ((stripHex_none hall).symm.trans hstrip) (by simp)
  cases token with
  | int => exact absurd (Or.inl h) hdecimal
  | float => exact absurd (Or.inr h) hdecimal
  | hexInt =>
      obtain ⟨digits, hdigits, hproper⟩ := h
      obtain rfl := Option.some.inj (hstrip.symm.trans hdigits)
      exact Or.inl hproper
  | hexFloat =>
      obtain ⟨digits, hdigits, hreal⟩ := h
      obtain rfl := Option.some.inj (hstrip.symm.trans hdigits)
      exact Or.inr hreal

/-- What is converted has no vertical tab. -/
theorem no_tab_of_isSome (powi : ℤ → UInt64) {text : List Char}
    (h : (strToNumber powi text).isSome) : '\x0b' ∉ text := by
  have hbody : ∀ c ∈ numeralBody text, IsNumeralChar c := by
    cases hstrip : stripHex (numeralBody text) with
    | none =>
        have hproper := (strToNumber_decimal_isSome_iff powi hstrip).1 h
        exact chars_of_parts (fun c => isExpMark_char)
          (fun c hc => Or.inl (isHexDigit_of_dec (hproper.digits c hc))) hproper.exponent
    | some hex =>
        have hhex := (strToNumber_hex_isSome_iff powi hstrip).1 h
        split at hhex
        case isFalse => exact chars_of_strip hstrip fun c hc => Or.inl (hhex.2 c hc)
        case isTrue =>
          refine chars_of_strip hstrip (chars_of_parts (fun c => isBinaryMark_char) ?_
            fun e he => (i32FromStr_spells (hhex.exponent e he)).1)
          intro c hc
          rcases hhex.cases with hproper | ⟨hint, hfrac⟩ | ⟨digits, hplus, -, -, hdigits⟩
          · exact Or.inl (hproper.digits c hc)
          · rw [hint, hfrac] at hc
            exact nomatch hc
          · rw [hplus] at hc
            rcases List.mem_cons.1 hc with rfl | hc
            · exact Or.inr (by decide)
            · exact Or.inl (hdigits c hc)
  intro hmem
  obtain ⟨left, right, htext, hside⟩ := trimMatches_spec isAsciiWhitespace text
  obtain ⟨sign, hsign, hcases⟩ := takeSign_spec (trimMatches isAsciiWhitespace text)
  rw [htext, hsign] at hmem
  have htab : isSpace '\x0b' = true := by decide
  rcases List.mem_append.1 hmem with hmem | hmem
  · rcases List.mem_append.1 hmem with hmem | hmem
    · exact absurd (hside _ (List.mem_append_left _ hmem)) (by decide)
    · rcases List.mem_append.1 hmem with hmem | hmem
      · rcases hcases with rfl | rfl | rfl
        · exact nomatch hmem
        · exact absurd (List.mem_singleton.1 hmem) (by decide)
        · exact absurd (List.mem_singleton.1 hmem) (by decide)
      · exact absurd htab (by rw [(hbody _ hmem).not_space]; exact Bool.false_ne_true)
  · exact absurd (hside _ (List.mem_append_right _ hmem)) (by decide)

theorem not_isNumeralText (powi : ℤ → UInt64) {text hex : List Char}
    (hsome : (strToNumber powi text).isSome) (hstrip : stripHex (numeralBody text) = some hex)
    (hmark : (realParts isBinaryMark hex).2.1.isSome ∨ (realParts isBinaryMark hex).2.2.isSome)
    (hbad : ¬ ProperParts isHexDigit (realParts isBinaryMark hex)) : ¬ IsNumeralText text := by
  intro hnumeral
  obtain ⟨token, hspells⟩ := body_of_isNumeralText (no_tab_of_isSome powi hsome) hnumeral
  rcases spells_of_strip hstrip hspells with ⟨-, hdigits⟩ | hreal
  · rw [realParts_digits hex_apart hdigits] at hmark
    rcases hmark with hmark | hmark <;> exact nomatch hmark
  · exact hbad ((spellsReal_iff hex_apart rfl hex).1 hreal).1

/-- A text that is read wrongly is converted or a numeral, but not both. -/
theorem Misread.disagrees (powi : ℤ → UInt64) {text : List Char} (h : Misread text) :
    ¬ ((strToNumber powi text).isSome ↔ IsNumeralText text) := by
  intro hagree
  cases h with
  | verticalTab htab hnumeral => exact no_tab_of_isSome powi (hagree.2 hnumeral) htab
  | noDigits hstrip hmark hnone hexp =>
      have hsome := (strToNumber_hex_isSome_iff powi hstrip).2 (by
        rw [if_pos hmark]
        exact ⟨Or.inl hnone.1, fun c hc => (by rw [hnone.2] at hc; exact nomatch hc),
          fun e he => (i32FromStr_isSome_iff (hexp e he).1).2 (hexp e he).2⟩)
      refine not_isNumeralText powi hsome hstrip hmark (fun hproper => ?_) (hagree.1 hsome)
      exact hproper.some_digit (by rw [hnone.1, hnone.2]; rfl)
  | secondSign hstrip hmark hplus hne hdigits hlt hexp =>
      have hall := List.forall_mem_append.1 hdigits
      have hsome := (strToNumber_hex_isSome_iff powi hstrip).2 (by
        rw [if_pos hmark]
        exact ⟨Or.inr (u64FromStr_isSome_iff.2 ⟨_, Or.inr hplus, hne, hall.1, hlt⟩), hall.2,
          fun e he => (i32FromStr_isSome_iff (hexp e he).1).2 (hexp e he).2⟩)
      refine not_isNumeralText powi hsome hstrip hmark (fun hproper => ?_) (hagree.1 hsome)
      have hsign := hproper.digits '+' (by rw [hplus]; exact List.mem_cons_self)
      exact absurd hsign (by decide)
  | tooLarge hstrip hreal hlarge =>
      have hnumeral : IsNumeralText _ :=
        isNumeralText_of_body (show Spells NumeralToken.hexFloat _ from ⟨_, hstrip, hreal⟩)
      obtain ⟨hproper, hmark⟩ := (spellsReal_iff hex_apart rfl _).1 hreal
      have haccepted := (strToNumber_hex_isSome_iff powi hstrip).1 (hagree.2 hnumeral)
      rw [if_pos hmark] at haccepted
      exact hlarge ((hexAccepted_iff hproper).1 haccepted)

theorem numeral_of_isSome (powi : ℤ → UInt64) {text : List Char} (hread : ¬ Misread text)
    (h : (strToNumber powi text).isSome) : IsNumeralText text := by
  cases hstrip : stripHex (numeralBody text) with
  | none =>
      have hproper := (strToNumber_decimal_isSome_iff powi hstrip).1 h
      rcases (spellsDecimal_iff _).2 hproper with hspells | hspells
      · exact isNumeralText_of_body hspells
      · exact isNumeralText_of_body hspells
  | some hex =>
      have hhex := (strToNumber_hex_isSome_iff powi hstrip).1 h
      split at hhex
      case isFalse =>
        exact isNumeralText_of_body (show Spells NumeralToken.hexInt _ from ⟨hex, hstrip, hhex⟩)
      case isTrue hmark =>
        have hexp := fun e he => i32FromStr_spells (hhex.exponent e he)
        rcases hhex.cases with hproper | hnone | ⟨digits, hplus, hne, hlt, hdigits⟩
        · have hreal := (spellsReal_iff hex_apart rfl hex).2 ⟨hproper, hmark⟩
          exact isNumeralText_of_body
            (show Spells NumeralToken.hexFloat _ from ⟨hex, hstrip, hreal⟩)
        · exact absurd (Misread.noDigits hstrip hmark hnone hexp) hread
        · exact absurd (Misread.secondSign hstrip hmark hplus hne hdigits hlt hexp) hread

theorem isSome_of_numeral (powi : ℤ → UInt64) {text : List Char} (hread : ¬ Misread text)
    (h : IsNumeralText text) : (strToNumber powi text).isSome := by
  have htab : '\x0b' ∉ text := fun htab => hread (Misread.verticalTab htab h)
  obtain ⟨token, hspells⟩ := body_of_isNumeralText htab h
  cases hstrip : stripHex (numeralBody text) with
  | none =>
      rw [strToNumber_decimal_isSome_iff powi hstrip, ← spellsDecimal_iff]
      cases token with
      | int => exact Or.inl hspells
      | float => exact Or.inr hspells
      | hexInt =>
          obtain ⟨digits, hsome, -⟩ := hspells
          exact absurd (hstrip.symm.trans hsome) (by simp)
      | hexFloat =>
          obtain ⟨digits, hsome, -⟩ := hspells
          exact absurd (hstrip.symm.trans hsome) (by simp)
  | some hex =>
      rw [strToNumber_hex_isSome_iff powi hstrip]
      rcases spells_of_strip hstrip hspells with hinteger | hreal
      · rw [realParts_digits hex_apart hinteger.2, if_neg (by rintro (h | h) <;> exact nomatch h)]
        exact hinteger
      · obtain ⟨hproper, hmark⟩ := (spellsReal_iff hex_apart rfl hex).1 hreal
        rw [if_pos hmark, hexAccepted_iff hproper]
        by_contra hlarge
        exact hread (Misread.tooLarge hstrip hreal hlarge)

/-- **The texts that are converted iff they are numerals.** -/
theorem text_agrees_iff (powi : ℤ → UInt64) (text : List Char) :
    ((strToNumber powi text).isSome ↔ IsNumeralText text) ↔ ¬ Misread text := by
  constructor
  · exact fun hagree hmisread => hmisread.disagrees powi hagree
  · exact fun hread => ⟨numeral_of_isSome powi hread, isSome_of_numeral powi hread⟩

/-! ### Bytes -/

/-- `str::from_utf8`. -/
def decodeUtf8 (b : LuaString) : Option (List Char) :=
  (String.fromUTF8? b.toByteArray).map String.toList

/-- `str_to_number`. -/
def strToNumberBytes (powi : ℤ → UInt64) (b : LuaString) : Option Value :=
  (decodeUtf8 b).bind (strToNumber powi)

theorem decodeUtf8_eq_some_iff {b : LuaString} {text : List Char} :
    decodeUtf8 b = some text ↔ b = utf8Bytes text := by
  have hencode : (utf8Bytes text).toByteArray = text.utf8Encode := rfl
  have hinj : ∀ c d : LuaString, c.toByteArray = d.toByteArray → c = d := by
    intro c d h
    have hdata := congrArg (fun a : ByteArray => a.data.toList) h
    simpa using hdata
  rw [decodeUtf8, Option.map_eq_some_iff]
  constructor
  · rintro ⟨s, hs, rfl⟩
    rw [String.fromUTF8?] at hs
    split at hs
    case isFalse => exact nomatch hs
    case isTrue h =>
      obtain rfl := Option.some.inj hs
      refine hinj _ _ ?_
      rw [hencode, String.utf8Encode_toList]
      rfl
  · rintro rfl
    have hvalid : ByteArray.IsValidUTF8 (utf8Bytes text).toByteArray := ⟨text, hencode⟩
    refine ⟨String.ofList text, ?_, String.toList_ofList⟩
    rw [String.fromUTF8?, dif_pos hvalid]
    rfl

/-- **The numerals and the bytes that the compiler and `tonumber` read as they should.** -/
theorem numerals_agree_iff (powi : ℤ → UInt64) :
    (∀ token s, Spells token s → (LiteralAgrees powi token s ↔ LiteralFits token s)) ∧
      ∀ b : LuaString,
        ((strToNumberBytes powi b).isSome ↔ ∃ text, b = utf8Bytes text ∧ IsNumeralText text) ↔
          ¬ ∃ text, b = utf8Bytes text ∧ Misread text := by
  refine ⟨fun token s h => literal_agrees_iff powi h, fun b => ?_⟩
  cases hdecode : decodeUtf8 b with
  | none =>
      have hinvalid : ∀ (P : List Char → Prop), ¬ ∃ text, b = utf8Bytes text ∧ P text := by
        rintro P ⟨text, hb, -⟩
        exact absurd (hdecode.symm.trans (decodeUtf8_eq_some_iff.2 hb)) (by simp)
      have hnone : ¬ (strToNumberBytes powi b).isSome := by
        rw [strToNumberBytes, hdecode]
        exact Bool.false_ne_true
      exact iff_of_true (iff_of_false hnone (hinvalid _)) (hinvalid _)
  | some text =>
      have hb := decodeUtf8_eq_some_iff.1 hdecode
      have hone : ∀ (P : List Char → Prop), (∃ t, b = utf8Bytes t ∧ P t) ↔ P text := by
        refine fun P => ⟨fun ⟨t, ht, hP⟩ => ?_, fun hP => ⟨text, hb, hP⟩⟩
        rwa [utf8Bytes_inj (hb.symm.trans ht)]
      rw [strToNumberBytes, hdecode, Option.bind_some, hone, hone]
      exact text_agrees_iff powi text

theorem spells_int_of_all {s : List Char} (hne : s ≠ []) (h : s.all isDecDigit = true) :
    Spells NumeralToken.int s :=
  ⟨hne, List.all_eq_true.1 h⟩

/-- A literal within the range of an integer. -/
theorem numerals_agree_at :
    LiteralAgrees (fun _ => 0) NumeralToken.int "42".toList :=
  ((numerals_agree_iff fun _ => 0).1 NumeralToken.int "42".toList
    (spells_int_of_all (by decide) (by decide))).2
    (show digitsValue 10 "42".toList < 2 ^ 63 by decide)

/-- 2^63 is no literal, and a point alone is a number. -/
theorem numerals_differ :
    (Spells NumeralToken.int "9223372036854775808".toList ∧
      literalValue (fun _ => 0) NumeralToken.int "9223372036854775808".toList = none ∧
      strToNumber (fun _ => 0) "9223372036854775808".toList =
        some (Value.float 0x43E0000000000000)) ∧
    (strToNumberBytes (fun _ => 0) (utf8Bytes "0x.".toList)).isSome ∧
      ¬ IsNumeralText "0x.".toList := by
  have hsome : (strToNumber (fun _ => 0) "0x.".toList).isSome := by decide +kernel
  refine ⟨⟨spells_int_of_all (by decide) (by decide), by decide +kernel, by decide +kernel⟩,
    ?_, ?_⟩
  · rw [strToNumberBytes, decodeUtf8_eq_some_iff.2 rfl]
    exact hsome
  · exact not_isNumeralText _ hsome (show stripHex _ = some ['.'] from rfl) (Or.inl rfl)
      fun hproper => hproper.some_digit rfl

end Tcvm
