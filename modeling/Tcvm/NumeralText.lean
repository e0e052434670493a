/-
The spellings of numerals.

A numeral is taken apart at the mark of its exponent and at its point.  The functions of the host
convert parts that are digits; what is a numeral between spaces is left when the spaces and a sign
are taken off.

* `SpellsReal`, `Spells`, `IsNumeralText` — the numerals, and the texts that are one;
* `spellsReal_iff`, `spellsDecimal_iff` — numerals by their parts;
* `parseHexFloat_isSome_iff`, `parseDecimal_isSome_iff` — what the conversions accept;
* `body_of_isNumeralText` — the numeral in a text.
-/

import Tcvm.QuotedFormat

namespace Tcvm

open Utf8Text

/-! ### Spellings -/

/-- A decimal integer with an optional sign. -/
def SpellsInteger (s : List Char) : Prop :=
  ∃ sign digits, s = sign ++ digits ∧ (sign = [] ∨ sign = ['+'] ∨ sign = ['-']) ∧ digits ≠ [] ∧
    ∀ c ∈ digits, isDecDigit c = true

/-- Digits with a point, an exponent or both, and a digit in front of or behind the point. -/
def SpellsReal (digit mark : Char → Bool) (s : List Char) : Prop :=
  ∃ int point frac tail, s = int ++ point ++ frac ++ tail ∧ (∀ c ∈ int ++ frac, digit c = true) ∧
    int ++ frac ≠ [] ∧ (point = [] ∧ frac = [] ∨ point = ['.']) ∧
    (tail = [] ∧ point = ['.'] ∨ ∃ m e, tail = m :: e ∧ mark m = true ∧ SpellsInteger e)

/-- The spellings of a token. -/
def Spells : NumeralToken → List Char → Prop
  | NumeralToken.int, s => s ≠ [] ∧ ∀ c ∈ s, isDecDigit c = true
  | NumeralToken.hexInt, s =>
      ∃ digits, stripHex s = some digits ∧ digits ≠ [] ∧ ∀ c ∈ digits, isHexDigit c = true
  | NumeralToken.float, s => SpellsReal isDecDigit isExpMark s
  | NumeralToken.hexFloat, s =>
      ∃ hex, stripHex s = some hex ∧ SpellsReal isHexDigit isBinaryMark hex

/-- A numeral with a sign, between spaces. -/
def IsNumeralText (text : List Char) : Prop :=
  ∃ left sign token s right, text = left ++ sign ++ s ++ right ∧
    (∀ c ∈ left ++ right, isSpace c = true) ∧ (sign = [] ∨ sign = ['+'] ∨ sign = ['-']) ∧
    Spells token s

/-! ### Taking a numeral apart -/

theorem splitFirst_none {p : Char → Bool} {s : List Char} (h : ∀ c ∈ s, p c = false) :
    splitFirst p s = (s, none) := by
  induction s with
  | nil => rfl
  | cons c s ih =>
      have htail := ih fun d hd => h d (List.mem_cons_of_mem _ hd)
      rw [splitFirst, h c List.mem_cons_self, if_neg Bool.false_ne_true]
      exact Prod.ext (congrArg (fun t => c :: t.1) htail) (congrArg (fun t => t.2) htail)

theorem splitFirst_some {p : Char → Bool} {a : List Char} (h : ∀ c ∈ a, p c = false) {c : Char}
    (hc : p c = true) (b : List Char) : splitFirst p (a ++ c :: b) = (a, some b) := by
  induction a with
  | nil => rw [List.nil_append, splitFirst, if_pos hc]
  | cons d a ih =>
      have htail := ih fun d hd => h d (List.mem_cons_of_mem _ hd)
      rw [List.cons_append, splitFirst, h d List.mem_cons_self, if_neg Bool.false_ne_true]
      exact Prod.ext (congrArg (fun t => d :: t.1) htail) (congrArg (fun t => t.2) htail)

theorem splitFirst_spec (p : Char → Bool) (s : List Char) :
    (∀ c ∈ (splitFirst p s).1, p c = false) ∧
      ((splitFirst p s).2 = none ∧ (splitFirst p s).1 = s ∨
        ∃ c b, (splitFirst p s).2 = some b ∧ p c = true ∧ (splitFirst p s).1 ++ c :: b = s) := by
  induction s with
  | nil => exact ⟨fun c hc => (nomatch hc), Or.inl ⟨rfl, rfl⟩⟩
  | cons c s ih =>
      obtain ⟨hfree, hsplit⟩ := ih
      rw [splitFirst]
      cases hc : p c with
      | true => exact ⟨fun d hd => (nomatch hd), Or.inr ⟨c, s, rfl, hc, rfl⟩⟩
      | false =>
          rw [if_neg Bool.false_ne_true]
          refine ⟨fun d hd => ?_, ?_⟩
          · rcases List.mem_cons.1 hd with rfl | hd
            · exact hc
            · exact hfree d hd
          · rcases hsplit with ⟨hnone, heq⟩ | ⟨m, b, hsome, hm, heq⟩
            · exact Or.inl ⟨hnone, congrArg (c :: ·) heq⟩
            · exact Or.inr ⟨m, b, hsome, hm, congrArg (c :: ·) heq⟩

def isPoint (c : Char) : Bool := c == '.'

/-- The parts of a number: in front of the point, behind it, and behind the mark. -/
def realParts (mark : Char → Bool) (s : List Char) :
    List Char × Option (List Char) × Option (List Char) :=
  ((splitFirst isPoint (splitFirst mark s).1).1, (splitFirst isPoint (splitFirst mark s).1).2,
    (splitFirst mark s).2)

/-- What the parts of a numeral are. -/
structure ProperParts (digit : Char → Bool)
    (parts : List Char × Option (List Char) × Option (List Char)) : Prop where
  digits : ∀ c ∈ parts.1 ++ parts.2.1.getD [], digit c = true
  some_digit : parts.1 ++ parts.2.1.getD [] ≠ []
  exponent : ∀ e ∈ parts.2.2, SpellsInteger e

/-- **The parts of a numeral are digits, and a decimal integer behind the mark.** -/
theorem spellsReal_iff {digit mark : Char → Bool}
    (hdigit : ∀ c, digit c = true → mark c = false ∧ isPoint c = false) (hpoint : mark '.' = false)
    (s : List Char) :
    SpellsReal digit mark s ↔
      ProperParts digit (realParts mark s) ∧
        ((realParts mark s).2.1.isSome ∨ (realParts mark s).2.2.isSome) := by
  constructor
  · rintro ⟨int, point, frac, tail, rfl, hdigits, hne, hpt, htail⟩
    have hfree : ∀ c ∈ int ++ point ++ frac, mark c = false := by
      intro c hc
      rcases List.mem_append.1 hc with hc | hc
      · rcases List.mem_append.1 hc with hc | hc
        · exact (hdigit c (hdigits c (List.mem_append_left _ hc))).1
        · rcases hpt with ⟨rfl, -⟩ | rfl
          · exact nomatch hc
          · exact List.mem_singleton.1 hc ▸ hpoint
      · exact (hdigit c (hdigits c (List.mem_append_right _ hc))).1
    have hmantissa : splitFirst isPoint (int ++ point ++ frac) =
        (int, if point = [] then none else some frac) := by
      have hint : ∀ c ∈ int, isPoint c = false := fun c hc =>
        (hdigit c (hdigits c (List.mem_append_left _ hc))).2
      rcases hpt with ⟨rfl, rfl⟩ | rfl
      · rw [List.append_nil, List.append_nil, if_pos rfl]
        exact splitFirst_none hint
      · rw [List.append_assoc, if_neg (List.cons_ne_nil _ _)]
        exact splitFirst_some hint rfl frac
    have hfrac : (if point = [] then none else some frac).getD [] = frac := by
      rcases hpt with ⟨rfl, rfl⟩ | rfl <;> rfl
    rcases htail with ⟨rfl, rfl⟩ | ⟨m, e, rfl, hm, he⟩
    · have hparts : realParts mark (int ++ ['.'] ++ frac ++ []) = (int, some frac, none) := by
        rw [realParts, List.append_nil, splitFirst_none hfree, hmantissa]
        rfl
      rw [hparts]
      exact ⟨⟨hdigits, hne, fun e he => (nomatch he)⟩, Or.inl rfl⟩
    · have hparts : realParts mark (int ++ point ++ frac ++ m :: e) =
          (int, if point = [] then none else some frac, some e) := by
        rw [realParts, splitFirst_some hfree hm, hmantissa]
      rw [hparts]
      refine ⟨⟨?_, ?_, ?_⟩, Or.inr rfl⟩
      · rw [hfrac]
        exact hdigits
      · rw [hfrac]
        exact hne
      · intro d hd
        cases hd
        exact he
  · rintro ⟨⟨hdigits, hne, hexp⟩, hmark⟩
    obtain ⟨-, hsplit⟩ := splitFirst_spec mark s
    obtain ⟨-, hmantissa⟩ := splitFirst_spec isPoint (splitFirst mark s).1
    have hleft : ∃ point,
        (realParts mark s).1 ++ point ++ (realParts mark s).2.1.getD [] = (splitFirst mark s).1 ∧
          ((realParts mark s).2.1 = none ∧ point = [] ∧ (realParts mark s).2.1.getD [] = [] ∨
            point = ['.']) := by
      simp only [realParts]
      rcases hmantissa with ⟨hnone, heq⟩ | ⟨c, frac, hsome, hc, heq⟩
      · rw [hnone]
        exact ⟨[], by simpa using heq, Or.inl ⟨rfl, rfl, rfl⟩⟩
      · obtain rfl : c = '.' := beq_iff_eq.1 hc
        rw [hsome]
        exact ⟨['.'], by simpa using heq, Or.inr rfl⟩
    obtain ⟨point, hpoints, hpt⟩ := hleft
    rcases hsplit with ⟨hnone, heq⟩ | ⟨m, e, hsome, hm, heq⟩
    · refine ⟨_, point, _, [], ?_, hdigits, hne, hpt.imp_left And.right, Or.inl ⟨rfl, ?_⟩⟩
      · rw [List.append_nil, hpoints, heq]
      · rcases hpt with ⟨hfrac, -⟩ | hdot
        · rw [hfrac, realParts, hnone] at hmark
          simp at hmark
        · exact hdot
    · refine ⟨_, point, _, m :: e, ?_, hdigits, hne, hpt.imp_left And.right,
        Or.inr ⟨m, e, rfl, hm, hexp e hsome⟩⟩
      rw [hpoints, heq]

/-- The characters of a number are in its parts, or in between. -/
theorem mem_realParts {mark : Char → Bool} {s : List Char} {c : Char} (hc : c ∈ s) :
    c ∈ (realParts mark s).1 ++ (realParts mark s).2.1.getD [] ∨ c = '.' ∨ mark c = true ∨
      ∃ e ∈ (realParts mark s).2.2, c ∈ e := by
  have hleft : c ∈ (splitFirst mark s).1 →
      c ∈ (realParts mark s).1 ++ (realParts mark s).2.1.getD [] ∨ c = '.' := by
    intro hmem
    obtain ⟨-, ⟨hnone, heq⟩ | ⟨d, frac, hsome, hd, heq⟩⟩ :=
      splitFirst_spec isPoint (splitFirst mark s).1
    · exact Or.inl (List.mem_append_left _ (heq.symm ▸ hmem))
    · rw [← heq] at hmem
      rcases List.mem_append.1 hmem with hmem | hmem
      · exact Or.inl (List.mem_append_left _ hmem)
      · rcases List.mem_cons.1 hmem with rfl | hmem
        · exact Or.inr (beq_iff_eq.1 hd)
        · refine Or.inl (List.mem_append_right _ ?_)
          rw [realParts, hsome]
          exact hmem
  obtain ⟨-, ⟨-, heq⟩ | ⟨m, e, hsome, hm, heq⟩⟩ := splitFirst_spec mark s
  · exact (hleft (heq.symm ▸ hc)).imp_right Or.inl
  · rw [← heq] at hc
    rcases List.mem_append.1 hc with hc | hc
    · exact (hleft hc).imp_right Or.inl
    · rcases List.mem_cons.1 hc with rfl | hc
      · exact Or.inr (Or.inr (Or.inl hm))
      · exact Or.inr (Or.inr (Or.inr ⟨e, hsome, hc⟩))

/-- With neither point nor mark, the first part is all. -/
theorem realParts_whole {mark : Char → Bool} {s : List Char}
    (h : ¬ ((realParts mark s).2.1.isSome ∨ (realParts mark s).2.2.isSome)) :
    realParts mark s = (s, none, none) := by
  obtain ⟨hpoint, hmark⟩ := not_or.1 h
  have hpoint := Option.not_isSome_iff_eq_none.1 hpoint
  have hmark := Option.not_isSome_iff_eq_none.1 hmark
  obtain ⟨-, ⟨-, hs⟩ | ⟨m, e, hsome, -, -⟩⟩ := splitFirst_spec mark s
  · obtain ⟨-, ⟨-, hall⟩ | ⟨d, frac, hsome, -, -⟩⟩ := splitFirst_spec isPoint (splitFirst mark s).1
    · exact Prod.ext (hall.trans hs) (Prod.ext hpoint hmark)
    · exact absurd (hpoint.symm.trans hsome) (by simp)
  · exact absurd (hmark.symm.trans hsome) (by simp)

/-- Digits are the first part. -/
theorem realParts_digits {digit mark : Char → Bool}
    (hdigit : ∀ c, digit c = true → mark c = false ∧ isPoint c = false) {s : List Char}
    (h : ∀ c ∈ s, digit c = true) : realParts mark s = (s, none, none) := by
  rw [realParts, splitFirst_none fun c hc => (hdigit c (h c hc)).1,
    splitFirst_none fun c hc => (hdigit c (h c hc)).2]

/-! ### What the conversions accept -/

/-- The value of a decimal integer with an optional sign. -/
def signedValue (s : List Char) : ℤ :=
  if (takeSign s).1 then -digitsValue 10 (takeSign s).2 else digitsValue 10 (takeSign s).2

theorem takeSign_cases (s : List Char) :
    (∃ digits, s = '-' :: digits ∧ takeSign s = (true, digits)) ∨
      (∃ digits, s = '+' :: digits ∧ takeSign s = (false, digits)) ∨
        takeSign s = (false, s) ∧ ∀ c ∈ s.head?, c ≠ '-' ∧ c ≠ '+' := by
  cases s with
  | nil => exact Or.inr (Or.inr ⟨rfl, fun c hc => (nomatch hc)⟩)
  | cons c s =>
      by_cases hminus : c = '-'
      · subst hminus
        exact Or.inl ⟨s, rfl, rfl⟩
      · by_cases hplus : c = '+'
        · subst hplus
          exact Or.inr (Or.inl ⟨s, rfl, rfl⟩)
        · refine Or.inr (Or.inr ⟨?_, fun d hd => ?_⟩)
          · unfold takeSign
            split
            case h_1 heq => exact absurd (List.cons.inj heq).1 hplus
            case h_2 heq => exact absurd (List.cons.inj heq).1 hminus
            case h_3 => rfl
          · cases hd
            exact ⟨hminus, hplus⟩

theorem takeSign_of_head {s : List Char} (h : ∀ c ∈ s.head?, c ≠ '-' ∧ c ≠ '+') :
    takeSign s = (false, s) := by
  rcases takeSign_cases s with ⟨digits, rfl, -⟩ | ⟨digits, rfl, -⟩ | ⟨hsign, -⟩
  · exact absurd rfl (h '-' rfl).1
  · exact absurd rfl (h '+' rfl).2
  · exact hsign

/-- A signed number is the digits behind the sign. -/
theorem parseSigned_eq (radix : ℕ) (least greatest : ℤ) (s : List Char) :
    parseSigned radix least greatest s = (parseDigits radix (takeSign s).2).bind fun n =>
      let z : ℤ := if (takeSign s).1 then -n else n
      if least ≤ z ∧ z ≤ greatest then some z else none := by
  rcases takeSign_cases s with ⟨digits, rfl, hsign⟩ | ⟨digits, rfl, hsign⟩ | ⟨hsign, hhead⟩
  · rfl
  · rfl
  · rw [parseSigned_unsigned radix least greatest hhead, hsign]
    rfl

theorem parseDigits_isSome_iff {radix : ℕ} {s : List Char} :
    (parseDigits radix s).isSome ↔ s ≠ [] ∧ ∀ c ∈ s, isDigitIn radix c = true := by
  rw [parseDigits]
  split
  case isTrue h => simpa using h
  case isFalse h => simpa using h

theorem parseDigits_value {radix n : ℕ} {s : List Char} (h : parseDigits radix s = some n) :
    n = digitsValue radix s := by
  rw [parseDigits] at h
  split at h
  · exact (Option.some.inj h).symm
  · cases h

/-- A decimal integer is digits behind a sign. -/
theorem spellsInteger_iff (s : List Char) :
    SpellsInteger s ↔ (parseDigits 10 (takeSign s).2).isSome := by
  rw [parseDigits_isSome_iff]
  constructor
  · rintro ⟨sign, digits, rfl, hsign, hne, hdigits⟩
    rcases hsign with rfl | rfl | rfl
    · rw [List.nil_append, takeSign_of_head]
      · exact ⟨hne, hdigits⟩
      · rintro c hc
        have hdigit := hdigits c (List.mem_of_mem_head? hc)
        constructor <;> rintro rfl <;> exact absurd hdigit (by decide)
    · exact ⟨hne, hdigits⟩
    · exact ⟨hne, hdigits⟩
  · rintro ⟨hne, hdigits⟩
    rcases takeSign_cases s with ⟨digits, rfl, -⟩ | ⟨digits, rfl, -⟩ | ⟨hsign, -⟩
    · exact ⟨['-'], digits, rfl, Or.inr (Or.inr rfl), hne, hdigits⟩
    · exact ⟨['+'], digits, rfl, Or.inr (Or.inl rfl), hne, hdigits⟩
    · rw [hsign] at hne hdigits
      exact ⟨[], s, rfl, Or.inl rfl, hne, hdigits⟩

/-- An integer is accepted iff it is between the bounds. -/
theorem parseSigned_isSome_iff {least greatest : ℤ} {s : List Char} :
    (parseSigned 10 least greatest s).isSome ↔
      SpellsInteger s ∧ least ≤ signedValue s ∧ signedValue s ≤ greatest := by
  rw [spellsInteger_iff, parseSigned_eq, signedValue]
  cases h : parseDigits 10 (takeSign s).2 with
  | none => simp
  | some n =>
      rw [← parseDigits_value h, Option.bind_some]
      dsimp only
      generalize (if (takeSign s).1 = true then -(n : ℤ) else n) = z
      split
      case isTrue hin => exact ⟨fun _ => ⟨rfl, hin⟩, fun _ => rfl⟩
      case isFalse hout => exact ⟨fun h => (nomatch h), fun h => absurd h.2 hout⟩

theorem parseExponent_eq (e : List Char) :
    parseExponent (some e) = (parseDigits 10 (takeSign e).2).map fun n : ℕ =>
      if (takeSign e).1 then -(n : ℤ) else (n : ℤ) := by
  rcases takeSign_cases e with ⟨digits, rfl, hsign⟩ | ⟨digits, rfl, hsign⟩ | ⟨hsign, hhead⟩
  · rfl
  · rfl
  · rw [hsign]
    unfold parseExponent
    split
    case h_1 heq => exact nomatch heq
    case h_2 heq =>
      cases heq
      exact absurd rfl (hhead '-' rfl).1
    case h_3 heq =>
      cases heq
      exact absurd rfl (hhead '+' rfl).2
    case h_4 heq =>
      cases heq
      rfl

theorem parseExponent_isSome_iff (exponent : Option (List Char)) :
    (parseExponent exponent).isSome ↔ ∀ e ∈ exponent, SpellsInteger e := by
  cases exponent with
  | none => exact ⟨fun _ e he => (nomatch he), fun _ => rfl⟩
  | some e =>
      rw [parseExponent_eq, Option.isSome_map, ← spellsInteger_iff]
      exact ⟨fun h d hd => Option.some.inj hd ▸ h, fun h => h e rfl⟩

/-- **Decimal numbers are accepted iff their parts are those of a numeral.** -/
theorem parseDecimal_isSome_iff (negative : Bool) (s : List Char) :
    (parseDecimal negative s).isSome ↔ ProperParts isDecDigit (realParts isExpMark s) := by
  have hrw : parseDecimal negative s =
      if (realParts isExpMark s).1 ++ (realParts isExpMark s).2.1.getD [] != [] &&
          ((realParts isExpMark s).1 ++ (realParts isExpMark s).2.1.getD []).all isDecDigit then
        (parseExponent (realParts isExpMark s).2.2).map fun e =>
          ofDecimal negative
            (digitsValue 10 ((realParts isExpMark s).1 ++ (realParts isExpMark s).2.1.getD []))
            (e - ((realParts isExpMark s).2.1.getD []).length)
      else none := rfl
  rw [hrw]
  split
  case isTrue h =>
    rw [Bool.and_eq_true, bne_iff_ne, List.all_eq_true] at h
    rw [Option.isSome_map, parseExponent_isSome_iff]
    exact ⟨fun hexp => ⟨h.2, h.1, hexp⟩, ProperParts.exponent⟩
  case isFalse h =>
    rw [Bool.and_eq_true, bne_iff_ne, List.all_eq_true] at h
    refine ⟨fun hnone => (nomatch hnone), fun hproper => ?_⟩
    exact absurd ⟨hproper.some_digit, hproper.digits⟩ h

theorem u64FromStr_isSome_iff {s : List Char} :
    (u64FromStr 16 s).isSome ↔
      ∃ digits, (s = digits ∨ s = '+' :: digits) ∧ digits ≠ [] ∧
        (∀ c ∈ digits, isHexDigit c = true) ∧ digitsValue 16 digits < 2 ^ 64 := by
  have hfits : ∀ digits : List Char,
      ((parseDigits 16 digits).bind fun n => if n < 2 ^ 64 then some n else none).isSome ↔
        (parseDigits 16 digits).isSome ∧ digitsValue 16 digits < 2 ^ 64 := by
    intro digits
    cases h : parseDigits 16 digits with
    | none => simp
    | some n =>
        rw [← parseDigits_value h, Option.bind_some]
        split
        case isTrue hin => exact ⟨fun _ => ⟨rfl, hin⟩, fun _ => rfl⟩
        case isFalse hout => exact ⟨fun h => (nomatch h), fun h => absurd h.2 hout⟩
  unfold u64FromStr
  constructor
  · intro h
    obtain ⟨hsome, hlt⟩ := (hfits _).1 h
    obtain ⟨hne, hdigits⟩ := parseDigits_isSome_iff.1 hsome
    refine ⟨_, ?_, hne, hdigits, hlt⟩
    split
    · exact Or.inr rfl
    · exact Or.inl rfl
  · rintro ⟨digits, rfl | rfl, hne, hdigits, hlt⟩
    · refine (hfits _).2 ?_
      split
      · exact absurd (hdigits '+' List.mem_cons_self) (by decide)
      · exact ⟨parseDigits_isSome_iff.2 ⟨hne, hdigits⟩, hlt⟩
    · exact (hfits _).2 ⟨parseDigits_isSome_iff.2 ⟨hne, hdigits⟩, hlt⟩

theorem addFraction_isSome_iff (s : List Char) :
    ∀ value place, (addFraction s value place).isSome ↔ ∀ c ∈ s, isHexDigit c = true := by
  induction s with
  | nil => exact fun value place => ⟨fun _ c hc => (nomatch hc), fun _ => rfl⟩
  | cons c s ih =>
      intro value place
      rw [addFraction, List.forall_mem_cons]
      split
      case isTrue hc => rw [ih, and_iff_right hc]
      case isFalse hc => exact ⟨fun h => (nomatch h), fun h => absurd h.1 hc⟩

/-- The parts of a hexadecimal number that the host converts. -/
structure HexAccepted (parts : List Char × Option (List Char) × Option (List Char)) : Prop where
  whole : parts.1 = [] ∨ (u64FromStr 16 parts.1).isSome
  frac : ∀ c ∈ parts.2.1.getD [], isHexDigit c = true
  exponent : ∀ e ∈ parts.2.2, (i32FromStr e).isSome

theorem parseHexFloat_eq (powi : ℤ → UInt64) {s hex : List Char} (h : stripHex s = some hex) :
    parseHexFloat powi s =
      (if (realParts isBinaryMark hex).1 = [] then some 0
        else u64FromStr 16 (realParts isBinaryMark hex).1).bind fun n =>
        (addFraction ((realParts isBinaryMark hex).2.1.getD []) (Binary64.ofInt n)
          (Binary64.div (Binary64.ofInt 1) (Binary64.ofInt 16))).bind fun value =>
            match (realParts isBinaryMark hex).2.2 with
            | none => some value
            | some exponent => (i32FromStr exponent).map fun e => Binary64.mul value (powi e) := by
  rw [parseHexFloat, h]
  rfl

theorem parseHexFloat_isSome_iff (powi : ℤ → UInt64) {s hex : List Char}
    (h : stripHex s = some hex) :
    (parseHexFloat powi s).isSome ↔ HexAccepted (realParts isBinaryMark hex) := by
  rw [parseHexFloat_eq powi h]
  generalize realParts isBinaryMark hex = parts
  obtain ⟨int, frac, exponent⟩ := parts
  have hwhole : (if int = [] then some 0 else u64FromStr 16 int).isSome ↔
      int = [] ∨ (u64FromStr 16 int).isSome := by
    by_cases hint : int = [] <;> simp [hint]
  cases hn : if int = [] then some 0 else u64FromStr 16 int with
  | none =>
      rw [hn] at hwhole
      exact ⟨fun h => (by cases h), fun h => absurd (hwhole.2 h.whole) Bool.false_ne_true⟩
  | some n =>
      rw [hn] at hwhole
      have hint := hwhole.1 rfl
      have hfrac := addFraction_isSome_iff (frac.getD []) (Binary64.ofInt n)
        (Binary64.div (Binary64.ofInt 1) (Binary64.ofInt 16))
      rw [Option.bind_some]
      cases hv : addFraction (frac.getD []) (Binary64.ofInt n)
          (Binary64.div (Binary64.ofInt 1) (Binary64.ofInt 16)) with
      | none =>
          rw [hv] at hfrac
          exact ⟨fun h => (by cases h), fun h => absurd (hfrac.2 h.frac) Bool.false_ne_true⟩
      | some value =>
          rw [hv] at hfrac
          have hdigits := hfrac.1 rfl
          cases exponent with
          | none => exact ⟨fun _ => ⟨hint, hdigits, fun e he => (by cases he)⟩, fun _ => rfl⟩
          | some e =>
              rw [Option.bind_some, Option.isSome_map]
              exact ⟨fun h => ⟨hint, hdigits, fun d hd => Option.some.inj hd ▸ h⟩,
                fun h => h.exponent e rfl⟩

/-! ### Spaces and signs -/

theorem isSpace_iff_toNat {c : Char} :
    isSpace c = true ↔ c.toNat = 32 ∨ 9 ≤ c.toNat ∧ c.toNat ≤ 13 := by
  simp only [isSpace, Bool.or_eq_true, beq_iff_eq, Bool.and_eq_true, decide_eq_true_eq, Char.le_def,
    UInt32.le_iff_toNat_le, ← Char.toNat_inj]
  rfl

theorem isHexDigit_iff_toNat {c : Char} :
    isHexDigit c = true ↔ 48 ≤ c.toNat ∧ c.toNat ≤ 57 ∨ 97 ≤ c.toNat ∧ c.toNat ≤ 102 ∨
      65 ≤ c.toNat ∧ c.toNat ≤ 70 := by
  simp only [isHexDigit, isDecDigit, Bool.or_eq_true, Bool.and_eq_true, decide_eq_true_eq,
    Char.le_def, UInt32.le_iff_toNat_le, or_assoc]
  rfl

/-- The spaces are those of the host and the vertical tab. -/
theorem isSpace_iff (c : Char) : isSpace c = true ↔ isAsciiWhitespace c = true ∨ c = '\x0b' := by
  have htoNat : isAsciiWhitespace c = true ↔ (((c.toNat = 32 ∨ c.toNat = 9) ∨ c.toNat = 10) ∨
      c.toNat = 12) ∨ c.toNat = 13 := by
    simp only [isAsciiWhitespace, Bool.or_eq_true, beq_iff_eq, ← Char.toNat_inj]
    rfl
  rw [isSpace_iff_toNat, htoNat, ← Char.toNat_inj]
  have hvt : '\x0b'.toNat = 11 := rfl
  omega

theorem dropWhile_append_of_all {p : Char → Bool} {left mid : List Char}
    (hleft : ∀ c ∈ left, p c = true) (hne : mid ≠ []) (hhead : ∀ c ∈ mid.head?, p c = false) :
    (left ++ mid).dropWhile p = mid := by
  obtain ⟨c, mid, rfl⟩ := List.exists_cons_of_ne_nil hne
  rw [List.dropWhile_append_of_pos hleft, List.dropWhile_cons_of_neg]
  rw [hhead c rfl]
  exact Bool.false_ne_true

/-- Trimming takes off what is in front and behind. -/
theorem trimMatches_append {p : Char → Bool} {left mid right : List Char}
    (hside : ∀ c ∈ left ++ right, p c = true) (hne : mid ≠ [])
    (hhead : ∀ c ∈ mid.head?, p c = false) (hlast : ∀ c ∈ mid.getLast?, p c = false) :
    trimMatches p (left ++ mid ++ right) = mid := by
  have hfront : (left ++ (mid ++ right)).dropWhile p = mid ++ right := by
    refine dropWhile_append_of_all (fun c hc => hside c (List.mem_append_left _ hc))
      (fun h => hne (List.append_eq_nil_iff.1 h).1) fun c hc => hhead c ?_
    rwa [List.head?_append_of_ne_nil _ hne] at hc
  have hback : (right.reverse ++ mid.reverse).dropWhile p = mid.reverse := by
    refine dropWhile_append_of_all (fun c hc => hside c (List.mem_append_right _ ?_))
      (fun h => hne (List.reverse_eq_nil_iff.1 h)) fun c hc => hlast c ?_
    · exact List.mem_reverse.1 hc
    · rwa [List.head?_reverse] at hc
  rw [trimMatches, List.append_assoc, hfront, List.reverse_append, hback, List.reverse_reverse]

theorem trimMatches_spec (p : Char → Bool) (s : List Char) :
    ∃ left right, s = left ++ trimMatches p s ++ right ∧ ∀ c ∈ left ++ right, p c = true := by
  have hsplit : ∀ t : List Char, t.takeWhile p ++ t.dropWhile p = t := fun t =>
    List.takeWhile_append_dropWhile
  refine ⟨s.takeWhile p, ((s.dropWhile p).reverse.takeWhile p).reverse, ?_, ?_⟩
  · rw [trimMatches, List.append_assoc, ← List.reverse_append, hsplit, List.reverse_reverse, hsplit]
  · intro c hc
    rcases List.mem_append.1 hc with hc | hc
    · exact List.mem_takeWhile_imp hc
    · exact List.mem_takeWhile_imp (List.mem_reverse.1 hc)

theorem isHexDigit_of_dec {c : Char} (h : isDecDigit c = true) : isHexDigit c = true := by
  rw [isHexDigit, h]
  rfl

/-- The characters that numerals are made of. -/
def IsNumeralChar (c : Char) : Prop := isHexDigit c = true ∨ c ∈ ".pPxX+-".toList

theorem IsNumeralChar.not_space {c : Char} (h : IsNumeralChar c) : isSpace c = false := by
  rcases h with hhex | hmem
  · rw [Bool.eq_false_iff, Ne, isSpace_iff_toNat]
    have := isHexDigit_iff_toNat.1 hhex
    omega
  · have hall : (".pPxX+-".toList.all fun d => !isSpace d) = true := by decide
    simpa using List.all_eq_true.1 hall c hmem

theorem SpellsInteger.chars {s : List Char} (h : SpellsInteger s) : ∀ c ∈ s, IsNumeralChar c := by
  obtain ⟨sign, digits, rfl, hsign, -, hdigits⟩ := h
  intro c hc
  rcases List.mem_append.1 hc with hc | hc
  · rcases hsign with rfl | rfl | rfl
    · exact nomatch hc
    · exact Or.inr (List.mem_singleton.1 hc ▸ by decide)
    · exact Or.inr (List.mem_singleton.1 hc ▸ by decide)
  · exact Or.inl (isHexDigit_of_dec (hdigits c hc))

/-- The characters of parts that are accepted. -/
theorem chars_of_parts {mark : Char → Bool} {s : List Char}
    (hmark : ∀ c, mark c = true → IsNumeralChar c)
    (hdigits : ∀ c ∈ (realParts mark s).1 ++ (realParts mark s).2.1.getD [], IsNumeralChar c)
    (hexp : ∀ e ∈ (realParts mark s).2.2, SpellsInteger e) : ∀ c ∈ s, IsNumeralChar c := by
  intro c hc
  rcases @mem_realParts mark _ _ hc with hmem | rfl | hm | ⟨e, he, hmem⟩
  · exact hdigits c hmem
  · exact Or.inr (by decide)
  · exact hmark c hm
  · exact (hexp e he).chars c hmem

theorem isExpMark_char {c : Char} (h : isExpMark c = true) : IsNumeralChar c := by
  rcases Bool.or_eq_true_iff.1 h with h | h
  · exact Or.inl (beq_iff_eq.1 h ▸ rfl)
  · exact Or.inl (beq_iff_eq.1 h ▸ rfl)

theorem isBinaryMark_char {c : Char} (h : isBinaryMark c = true) : IsNumeralChar c := by
  rcases Bool.or_eq_true_iff.1 h with h | h
  · exact Or.inr (beq_iff_eq.1 h ▸ by decide)
  · exact Or.inr (beq_iff_eq.1 h ▸ by decide)

theorem dec_apart (c : Char) (h : isDecDigit c = true) :
    isExpMark c = false ∧ isPoint c = false := by
  constructor <;> by_contra hne <;> rw [Bool.not_eq_false] at hne
  · rcases Bool.or_eq_true_iff.1 hne with hc | hc
    · exact absurd h (beq_iff_eq.1 hc ▸ by decide)
    · exact absurd h (beq_iff_eq.1 hc ▸ by decide)
  · exact absurd h (beq_iff_eq.1 hne ▸ by decide)

theorem hex_apart (c : Char) (h : isHexDigit c = true) :
    isBinaryMark c = false ∧ isPoint c = false := by
  constructor <;> by_contra hne <;> rw [Bool.not_eq_false] at hne
  · rcases Bool.or_eq_true_iff.1 hne with hc | hc
    · exact absurd h (beq_iff_eq.1 hc ▸ by decide)
    · exact absurd h (beq_iff_eq.1 hc ▸ by decide)
  · exact absurd h (beq_iff_eq.1 hne ▸ by decide)

/-- A decimal float or integer, by its parts. -/
theorem spellsDecimal_iff (s : List Char) :
    Spells NumeralToken.int s ∨ Spells NumeralToken.float s ↔
      ProperParts isDecDigit (realParts isExpMark s) := by
  simp only [Spells]
  rw [spellsReal_iff dec_apart rfl]
  constructor
  · rintro (⟨hne, hdigits⟩ | ⟨hproper, -⟩)
    · rw [realParts_digits dec_apart hdigits]
      refine ⟨?_, ?_, fun e he => (nomatch he)⟩
      · intro c hc
        exact hdigits c (by simpa using hc)
      · simpa using hne
    · exact hproper
  · intro hproper
    by_cases hmark : (realParts isExpMark s).2.1.isSome ∨ (realParts isExpMark s).2.2.isSome
    · exact Or.inr ⟨hproper, hmark⟩
    · obtain ⟨hdigits, hne, -⟩ := hproper
      rw [realParts_whole hmark] at hdigits hne
      refine Or.inl ⟨by simpa using hne, fun c hc => hdigits c ?_⟩
      simpa using hc

theorem stripHex_eq_some {s hex : List Char} (h : stripHex s = some hex) :
    s = '0' :: 'x' :: hex ∨ s = '0' :: 'X' :: hex := by
  unfold stripHex at h
  split at h
  · exact Or.inl (by rw [Option.some.inj h])
  · exact Or.inr (by rw [Option.some.inj h])
  · exact nomatch h

theorem chars_of_strip {s hex : List Char} (hstrip : stripHex s = some hex)
    (h : ∀ c ∈ hex, IsNumeralChar c) : ∀ c ∈ s, IsNumeralChar c := by
  have hzero : IsNumeralChar '0' := Or.inl rfl
  rcases stripHex_eq_some hstrip with rfl | rfl
  · exact List.forall_mem_cons.2 ⟨hzero, List.forall_mem_cons.2 ⟨Or.inr (by decide), h⟩⟩
  · exact List.forall_mem_cons.2 ⟨hzero, List.forall_mem_cons.2 ⟨Or.inr (by decide), h⟩⟩

theorem SpellsReal.head {digit mark : Char → Bool} {s : List Char} (h : SpellsReal digit mark s) :
    ∃ c t, s = c :: t ∧ (digit c = true ∨ c = '.') := by
  obtain ⟨int, point, frac, tail, rfl, hdigits, hne, hpt, -⟩ := h
  cases int with
  | cons c int => exact ⟨c, _, rfl, Or.inl (hdigits c List.mem_cons_self)⟩
  | nil =>
      rcases hpt with ⟨-, rfl⟩ | rfl
      · exact absurd rfl hne
      · exact ⟨'.', _, rfl, Or.inr rfl⟩

/-- The characters of a numeral, the first of which is no sign. -/
theorem Spells.chars {token : NumeralToken} {s : List Char} (h : Spells token s) :
    s ≠ [] ∧ (∀ c ∈ s, IsNumeralChar c) ∧ ∀ c ∈ s.head?, c ≠ '-' ∧ c ≠ '+' := by
  have hdigit : ∀ c : Char, isHexDigit c = true ∨ c = '.' → c ≠ '-' ∧ c ≠ '+' := by
    rintro c hc
    constructor <;> rintro rfl <;> exact absurd hc (by decide)
  have hhex : ∀ hex, stripHex s = some hex → (∀ c ∈ hex, IsNumeralChar c) →
      s ≠ [] ∧ (∀ c ∈ s, IsNumeralChar c) ∧ ∀ c ∈ s.head?, c ≠ '-' ∧ c ≠ '+' := by
    intro hex hstrip hchars
    have hall := chars_of_strip hstrip hchars
    rcases stripHex_eq_some hstrip with rfl | rfl
    · exact ⟨List.cons_ne_nil _ _, hall, fun c hc => Option.some.inj hc ▸ by decide⟩
    · exact ⟨List.cons_ne_nil _ _, hall, fun c hc => Option.some.inj hc ▸ by decide⟩
  have hdecimal : Spells NumeralToken.int s ∨ Spells NumeralToken.float s →
      ∀ c ∈ s, IsNumeralChar c := by
    intro hspells
    obtain ⟨hdigits, -, hexp⟩ := (spellsDecimal_iff s).1 hspells
    exact chars_of_parts (fun c => isExpMark_char)
      (fun c hc => Or.inl (isHexDigit_of_dec (hdigits c hc))) hexp
  cases token with
  | int =>
      refine ⟨h.1, hdecimal (Or.inl h), fun c hc => hdigit c (Or.inl ?_)⟩
      exact isHexDigit_of_dec (h.2 c (List.mem_of_mem_head? hc))
  | float =>
      obtain ⟨c, t, rfl, hc⟩ := SpellsReal.head h
      refine ⟨List.cons_ne_nil _ _, hdecimal (Or.inr h), fun d hd => ?_⟩
      obtain rfl := Option.some.inj hd
      exact hdigit c (hc.imp_left isHexDigit_of_dec)
  | hexInt =>
      obtain ⟨digits, hstrip, -, hdigits⟩ := h
      exact hhex digits hstrip fun c hc => Or.inl (hdigits c hc)
  | hexFloat =>
      obtain ⟨hex, hstrip, hreal⟩ := h
      obtain ⟨⟨hdigits, -, hexp⟩, -⟩ := (spellsReal_iff hex_apart rfl hex).1 hreal
      exact hhex hex hstrip (chars_of_parts (fun c => isBinaryMark_char)
        (fun c hc => Or.inl (hdigits c hc)) hexp)

/-- What is left of a text without the spaces around it and its sign. -/
def numeralBody (text : List Char) : List Char := (takeSign (trimMatches isAsciiWhitespace text)).2

theorem takeSign_spec (s : List Char) :
    ∃ sign, s = sign ++ (takeSign s).2 ∧ (sign = [] ∨ sign = ['+'] ∨ sign = ['-']) := by
  rcases takeSign_cases s with ⟨digits, rfl, -⟩ | ⟨digits, rfl, -⟩ | ⟨hsign, -⟩
  · exact ⟨['-'], rfl, Or.inr (Or.inr rfl)⟩
  · exact ⟨['+'], rfl, Or.inr (Or.inl rfl)⟩
  · exact ⟨[], by rw [hsign]; rfl, Or.inl rfl⟩

theorem isNumeralText_of_body {token : NumeralToken} {text : List Char}
    (h : Spells token (numeralBody text)) : IsNumeralText text := by
  obtain ⟨left, right, htext, hside⟩ := trimMatches_spec isAsciiWhitespace text
  obtain ⟨sign, hsign, hcases⟩ := takeSign_spec (trimMatches isAsciiWhitespace text)
  refine ⟨left, sign, token, numeralBody text, right, ?_, fun c hc => ?_, hcases, h⟩
  · rw [numeralBody, List.append_assoc left, ← hsign, ← htext]
  · exact (isSpace_iff c).2 (Or.inl (hside c hc))

/-- Without a vertical tab, the spaces are those of the host. -/
theorem body_of_isNumeralText {text : List Char} (hvt : '\x0b' ∉ text) (h : IsNumeralText text) :
    ∃ token, Spells token (numeralBody text) := by
  obtain ⟨left, sign, token, s, right, rfl, hside, hsign, hspells⟩ := h
  obtain ⟨hne, hchars, hhead⟩ := hspells.chars
  have hspace : ∀ c ∈ left ++ right, isAsciiWhitespace c = true := by
    intro c hc
    rcases (isSpace_iff c).1 (hside c hc) with hspace | rfl
    · exact hspace
    · refine absurd ?_ hvt
      rcases List.mem_append.1 hc with hc | hc <;> simp [hc]
  have hsigned : ∀ c ∈ sign ++ s, isAsciiWhitespace c = false := by
    intro c hc
    rw [Bool.eq_false_iff]
    intro hspace
    refine Bool.eq_false_iff.1 (IsNumeralChar.not_space ?_) ((isSpace_iff c).2 (Or.inl hspace))
    rcases List.mem_append.1 hc with hc | hc
    · rcases hsign with rfl | rfl | rfl
      · exact nomatch hc
      · exact Or.inr (List.mem_singleton.1 hc ▸ by decide)
      · exact Or.inr (List.mem_singleton.1 hc ▸ by decide)
    · exact hchars c hc
  have htrim : trimMatches isAsciiWhitespace (left ++ sign ++ s ++ right) = sign ++ s := by
    rw [List.append_assoc left]
    refine trimMatches_append hspace (fun h => hne (List.append_eq_nil_iff.1 h).2) ?_ ?_
    · exact fun c hc => hsigned c (List.mem_of_mem_head? hc)
    · exact fun c hc => hsigned c (List.mem_of_mem_getLast? hc)
  refine ⟨token, ?_⟩
  rw [numeralBody, htrim]
  rcases hsign with rfl | rfl | rfl
  · rw [List.nil_append, takeSign_of_head hhead]
    exact hspells
  · exact hspells
  · exact hspells

end Tcvm
