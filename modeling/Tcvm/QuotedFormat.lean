/-
The format `%q` and the literals it writes.

`fmt_q` puts a backslash in front of quotes, backslashes and line feeds, and writes control bytes as
decimal escapes, with three digits in front of a digit.  The decoder reads all of it back, but for
the escaped line feed, which it does not know; and the least integer is written as a hexadecimal
numeral that is too large for an integer.

* `fmtQBytes`, `fmtQInteger` — the text of a string and of an integer;
* `stringToken` — the string literal at the front of a text;
* `decode_quoteText` — what the decoder makes of a quoted string;
* `quoted_reads_back_iff` — **the values that are read back**.
-/

import Tcvm.NumberLiteral

namespace Tcvm

open Utf8Text

/-! ### `%q` -/

def isAsciiDigit (b : UInt8) : Bool := 0x30 ≤ b && b ≤ 0x39

/-- The decimal digits of a control byte, at least one or three of them. -/
def escapeDigits (b : ℕ) (padded : Bool) : List Char :=
  if padded then [Nat.digitChar (b / 100), Nat.digitChar (b / 10 % 10), Nat.digitChar (b % 10)]
  else Nat.toDigits 10 b

/-- The loop of `fmt_q` over the bytes of a string. -/
def fmtQBytes : LuaString → LuaString
  | [] => []
  | b :: rest =>
      (if b = 0x22 ∨ b = 0x5C ∨ b = 0x0A then [0x5C, b]
        else if b < 0x20 ∨ b = 0x7F then
          0x5C :: utf8Bytes (escapeDigits b.toNat (rest.head?.any isAsciiDigit))
        else [b]) ++ fmtQBytes rest

/-- `fmt_q` of a string. -/
def fmtQString (s : LuaString) : LuaString := 0x22 :: (fmtQBytes s ++ [0x22])

/-- `fmt_q` of an integer. -/
def fmtQInteger (i : Int64) : List Char :=
  if i = Int64.minValue then "0x8000000000000000".toList
  else if i.toInt < 0 then '-' :: Nat.toDigits 10 i.toInt.natAbs
  else Nat.toDigits 10 i.toInt.natAbs

/-! ### Reading -/

/-- The rest of a quoted string up to its closing quote. -/
def quotedRest (q : Char) : List Char → Option (List Char)
  | [] => none
  | [c] => if c = q then some [q] else none
  | c :: d :: cs =>
      if c = q then some [q]
      else if c = '\\' then (quotedRest q cs).map fun s => c :: d :: s
      else (quotedRest q (d :: cs)).map fun s => c :: s

/-- The string literal at the front of a text. -/
def stringToken : List Char → Option (List Char)
  | '"' :: cs => (quotedRest '"' cs).map fun s => '"' :: s
  | '\'' :: cs => (quotedRest '\'' cs).map fun s => '\'' :: s
  | _ => none

/-- The string is written as one literal, and the literal has it as its value. -/
def StringReadsBack (lexer : StringLexer) (v : LuaString) : Prop :=
  ∃ text, fmtQString v = utf8Bytes text ∧ stringToken text = some text ∧
    parseString lexer text = some v

/-- The value of an integer literal. -/
def integerLiteral (powi : ℤ → UInt64) (s : List Char) : Option Value :=
  if s != [] && s.all isDecDigit then literalValue powi NumeralToken.int s
  else
    match stripHex s with
    | some digits =>
        if digits != [] && digits.all isHexDigit
          then literalValue powi NumeralToken.hexInt s else none
    | none => none

/-- An integer literal, or the negation of one. -/
def IntegerReadsBack (powi : ℤ → UInt64) (i : Int64) : Prop :=
  match fmtQInteger i with
  | '-' :: s => ∃ n, integerLiteral powi s = some (Value.integer n) ∧ -n = i
  | s => integerLiteral powi s = some (Value.integer i)

/-! ### The text of a string -/

/-- `fmt_q` on characters. -/
def quoteText : List Char → List Char
  | [] => []
  | c :: cs =>
      (if c = '"' ∨ c = '\\' ∨ c = '\n' then ['\\', c]
        else if c.toNat < 0x20 ∨ c.toNat = 0x7F then
          '\\' :: escapeDigits c.toNat (cs.head?.any isDecDigit)
        else [c]) ++ quoteText cs

theorem escapeDigits_spec : ∀ b < 128, ∀ padded,
    (∀ c ∈ escapeDigits b padded, isDecDigit c = true) ∧ escapeDigits b padded ≠ [] ∧
      (escapeDigits b padded).length ≤ 3 ∧ digitsValue 10 (escapeDigits b padded) = b ∧
      (padded = true → (escapeDigits b padded).length = 3) := by
  have hall : ∀ b < 128, ∀ padded,
      (escapeDigits b padded).all isDecDigit = true ∧ escapeDigits b padded ≠ [] ∧
        (escapeDigits b padded).length ≤ 3 ∧ digitsValue 10 (escapeDigits b padded) = b ∧
        (padded = true → (escapeDigits b padded).length = 3) := by
    decide +kernel
  intro b hb padded
  obtain ⟨hdigits, hrest⟩ := hall b hb padded
  exact ⟨List.all_eq_true.1 hdigits, hrest⟩

/-- Bytes from 128 on are written as they are. -/
theorem fmtQBytes_high {bs : LuaString} (h : ∀ b ∈ bs, 128 ≤ b.toNat) (rest : LuaString) :
    fmtQBytes (bs ++ rest) = bs ++ fmtQBytes rest := by
  induction bs with
  | nil => rfl
  | cons b bs ih =>
      have hb := h b List.mem_cons_self
      have hquote : ¬ (b = 0x22 ∨ b = 0x5C ∨ b = 0x0A) := by
        rintro (rfl | rfl | rfl) <;> exact absurd hb (by decide)
      have hcontrol : ¬ (b < 0x20 ∨ b = 0x7F) := by
        rintro (hlt | rfl)
        · have := UInt8.lt_iff_toNat_lt.1 hlt
          have h32 : (0x20 : UInt8).toNat = 32 := rfl
          omega
        · exact absurd hb (by decide)
      rw [List.cons_append, fmtQBytes, if_neg hquote, if_neg hcontrol,
        ih fun b hb => h b (List.mem_cons_of_mem _ hb)]
      rfl

theorem toNat_asciiByte {c : Char} (h : c.toNat < 128) : c.toNat.toUInt8.toNat = c.toNat := by
  rw [Nat.toUInt8, UInt8.toNat_ofNat']
  omega

/-- The byte of a character is the byte of another one iff they are the same. -/
theorem asciiByte_eq_iff {c d : Char} (hc : c.toNat < 128) (hd : d.toNat < 128) :
    c.toNat.toUInt8 = d.toNat.toUInt8 ↔ c = d := by
  constructor
  · intro h
    have hnat := congrArg UInt8.toNat h
    rw [toNat_asciiByte hc, toNat_asciiByte hd] at hnat
    exact Char.toNat_inj.1 hnat
  · rintro rfl
    rfl

theorem isDecDigit_iff {c : Char} : isDecDigit c = true ↔ 48 ≤ c.toNat ∧ c.toNat ≤ 57 := by
  simp only [isDecDigit, Bool.and_eq_true, decide_eq_true_eq, Char.le_def, UInt32.le_iff_toNat_le]
  rfl

theorem isAsciiDigit_iff {b : UInt8} : isAsciiDigit b = true ↔ 48 ≤ b.toNat ∧ b.toNat ≤ 57 := by
  simp only [isAsciiDigit, Bool.and_eq_true, decide_eq_true_eq, UInt8.le_iff_toNat_le]
  rfl

/-- The next byte is a digit iff the next character is. -/
theorem head?_utf8Bytes (cs : List Char) :
    (utf8Bytes cs).head?.any isAsciiDigit = cs.head?.any isDecDigit := by
  cases cs with
  | nil => rfl
  | cons c cs =>
      rw [utf8Bytes_cons, List.head?_cons, Option.any_some, Bool.eq_iff_iff, isDecDigit_iff]
      rcases Nat.lt_or_ge c.toNat 128 with hc | hc
      · rw [encodeChar_ascii hc, List.singleton_append, List.head?_cons, Option.any_some,
          isAsciiDigit_iff, toNat_asciiByte hc]
      · obtain ⟨b, t, hb⟩ := List.exists_cons_of_ne_nil (encodeChar_ne_nil c)
        have hhigh := high_of_mem hc (b := b) (by rw [hb]; exact List.mem_cons_self)
        rw [hb, List.cons_append, List.head?_cons, Option.any_some, isAsciiDigit_iff]
        omega

/-- **On the bytes of a text, the loop quotes its characters.** -/
theorem fmtQBytes_utf8 (cs : List Char) : fmtQBytes (utf8Bytes cs) = utf8Bytes (quoteText cs) := by
  induction cs with
  | nil => rfl
  | cons c cs ih =>
      rcases Nat.lt_or_ge c.toNat 128 with hc | hc
      · rw [utf8Bytes_cons, encodeChar_ascii hc, List.singleton_append, fmtQBytes, quoteText,
          utf8Bytes_append, ih, head?_utf8Bytes, toNat_asciiByte hc]
        congr 1
        have hquote : (c.toNat.toUInt8 = 0x22 ∨ c.toNat.toUInt8 = 0x5C ∨ c.toNat.toUInt8 = 0x0A) ↔
            (c = '"' ∨ c = '\\' ∨ c = '\n') :=
          or_congr (asciiByte_eq_iff hc (d := '"') (by decide))
            (or_congr (asciiByte_eq_iff hc (d := '\\') (by decide))
              (asciiByte_eq_iff hc (d := '\n') (by decide)))
        have hcontrol : (c.toNat.toUInt8 < 0x20 ∨ c.toNat.toUInt8 = 0x7F) ↔
            (c.toNat < 0x20 ∨ c.toNat = 0x7F) := by
          rw [UInt8.lt_iff_toNat_lt, ← UInt8.toNat_inj, toNat_asciiByte hc]
          rfl
        by_cases hq : c = '"' ∨ c = '\\' ∨ c = '\n'
        · rw [if_pos (hquote.2 hq), if_pos hq]
          rcases hq with rfl | rfl | rfl <;> rfl
        · rw [if_neg (mt hquote.1 hq), if_neg hq]
          by_cases hk : c.toNat < 0x20 ∨ c.toNat = 0x7F
          · rw [if_pos (hcontrol.2 hk), if_pos hk]
            rfl
          · rw [if_neg (mt hcontrol.1 hk), if_neg hk, utf8Bytes_cons, encodeChar_ascii hc]
            rfl
      · have hquote : ¬ (c = '"' ∨ c = '\\' ∨ c = '\n') := by
          rintro (rfl | rfl | rfl) <;> exact absurd hc (by decide)
        rw [utf8Bytes_cons, fmtQBytes_high (fun b hb => high_of_mem hc hb), quoteText, ih,
          if_neg hquote, if_neg (by omega)]
        rfl

/-! ### Reading it back -/

/-- The digits of an escape are a token, unless more digits follow that it would take. -/
theorem nextToken_digits {digits rest : List Char} (hall : ∀ c ∈ digits, isDecDigit c = true)
    (hne : digits ≠ []) (hlen : digits.length ≤ 3)
    (hend : digits.length = 3 ∨ rest.head?.any isDecDigit = false) :
    nextToken (digits ++ rest) = some (StringToken.decimal digits, digits.length) := by
  have htake := decimalDigits_append hall hlen rest
  have hnone : (rest.take (3 - digits.length)).takeWhile isDecDigit = [] := by
    cases rest with
    | nil => rw [List.take_nil, List.takeWhile_nil]
    | cons c rest =>
        rcases hend with hthree | hhead
        · rw [hthree, Nat.sub_self, List.take_zero, List.takeWhile_nil]
        · cases 3 - digits.length with
          | zero => rfl
          | succ n =>
              rw [List.take_succ_cons, List.takeWhile_cons_of_neg]
              rw [List.head?_cons, Option.any_some] at hhead
              simp [hhead]
  rw [hnone, List.append_nil] at htake
  obtain ⟨d, tail, rfl⟩ := List.exists_cons_of_ne_nil hne
  rw [List.cons_append] at htake ⊢
  rw [nextToken_decimal (hall d List.mem_cons_self), htake]

/-- What is read: a line feed keeps its backslash. -/
def readBack (cs : List Char) : LuaString :=
  cs.flatMap fun c => if c = '\n' then [0x5C, 0x0A] else String.utf8EncodeChar c

/-- A quoted text begins with a digit iff the text does. -/
theorem head?_quoteText (cs : List Char) :
    (quoteText cs).head?.any isDecDigit = cs.head?.any isDecDigit := by
  cases cs with
  | nil => rfl
  | cons c cs =>
      have hslash : isDecDigit '\\' = false := by decide
      rw [quoteText, List.head?_cons, Option.any_some]
      split
      · rename_i hq
        rcases hq with rfl | rfl | rfl <;> rfl
      · split
        · rename_i hk
          have hc : isDecDigit c = false := by
            rw [Bool.eq_false_iff, ne_eq, isDecDigit_iff]
            omega
          rw [List.cons_append, List.head?_cons, Option.any_some, hslash, hc]
        · rfl

/-- **The decoder reads everything but line feeds back.** -/
theorem decode_quoteText (lexer : StringLexer) (cs : List Char) :
    decodeFragment lexer 0 (quoteText cs) = some (readBack cs) := by
  induction cs with
  | nil => rfl
  | cons c cs ih =>
      have hread : readBack (c :: cs) =
          (if c = '\n' then [0x5C, 0x0A] else String.utf8EncodeChar c) ++ readBack cs := rfl
      rw [quoteText, hread]
      by_cases hq : c = '"' ∨ c = '\\' ∨ c = '\n'
      · rw [if_pos hq]
        rcases hq with rfl | rfl | rfl
        · have htoken : nextToken ('"' :: quoteText cs) = some (StringToken.simple 0x22, 1) := rfl
          rw [List.cons_append, List.singleton_append, decodeFragment_token htoken,
            List.drop_succ_cons, List.drop_zero, ih]
          rfl
        · have htoken : nextToken ('\\' :: quoteText cs) = some (StringToken.simple 0x5C, 1) := rfl
          rw [List.cons_append, List.singleton_append, decodeFragment_token htoken,
            List.drop_succ_cons, List.drop_zero, ih]
          rfl
        · -- no token stands for a line feed, so it is copied with its backslash
          have htoken : nextToken ('\n' :: quoteText cs) = none := rfl
          rw [List.cons_append, List.singleton_append, decodeFragment_noToken htoken,
            decodeFragment_raw (by decide), ih]
          rfl
      · have hlf : c ≠ '\n' := fun h => hq (Or.inr (Or.inr h))
        have hslash : c ≠ '\\' := fun h => hq (Or.inr (Or.inl h))
        rw [if_neg hq, if_neg hlf]
        by_cases hk : c.toNat < 0x20 ∨ c.toNat = 0x7F
        · have hc : c.toNat < 128 := by omega
          obtain ⟨hall, hne, hlen, hvalue, hthree⟩ :=
            escapeDigits_spec c.toNat hc (cs.head?.any isDecDigit)
          have hend : (escapeDigits c.toNat (cs.head?.any isDecDigit)).length = 3 ∨
              (quoteText cs).head?.any isDecDigit = false := by
            rw [head?_quoteText]
            cases hnext : cs.head?.any isDecDigit with
            | true => exact Or.inl (by rw [hnext] at hthree; exact hthree rfl)
            | false => exact Or.inr rfl
          rw [if_pos hk, List.cons_append,
            decodeFragment_token (nextToken_digits hall hne hlen hend), List.drop_left, ih]
          simp only [StringToken.decode, hvalue]
          rw [if_pos (by omega), encodeChar_ascii hc]
          rfl
        · rw [if_neg hk, List.singleton_append, decodeFragment_raw hslash, ih]
          rfl

theorem quotedRest_pair (d : Char) (cs : List Char) :
    quotedRest '"' ('\\' :: d :: cs) = (quotedRest '"' cs).map fun s => '\\' :: d :: s := by
  have hslash : ('\\' : Char) ≠ '"' := by decide
  rw [quotedRest, if_neg hslash, if_pos rfl]

theorem quotedRest_run {w : List Char} (hw : ∀ c ∈ w, c ≠ '"' ∧ c ≠ '\\') (cs : List Char) :
    quotedRest '"' (w ++ cs) = (quotedRest '"' cs).map (w ++ ·) := by
  induction w with
  | nil => simp
  | cons c w ih =>
      obtain ⟨hquote, hslash⟩ := hw c List.mem_cons_self
      have hrest := ih fun d hd => hw d (List.mem_cons_of_mem _ hd)
      have hstep : quotedRest '"' (c :: (w ++ cs)) =
          (quotedRest '"' (w ++ cs)).map fun s => c :: s := by
        cases w ++ cs with
        | nil => simp [quotedRest, hquote]
        | cons d t => rw [quotedRest, if_neg hquote, if_neg hslash]
      rw [List.cons_append, hstep, hrest, Option.map_map]
      rfl

/-- **The lexer reads the text up to its last quote.** -/
theorem quotedRest_quoteText (cs : List Char) :
    quotedRest '"' (quoteText cs ++ ['"']) = some (quoteText cs ++ ['"']) := by
  induction cs with
  | nil => rfl
  | cons c cs ih =>
      rw [quoteText, List.append_assoc]
      by_cases hq : c = '"' ∨ c = '\\' ∨ c = '\n'
      · rw [if_pos hq, List.cons_append, List.singleton_append, quotedRest_pair, ih]
        rfl
      · rw [if_neg hq]
        by_cases hk : c.toNat < 0x20 ∨ c.toNat = 0x7F
        · obtain ⟨hall, hne, -⟩ :=
            escapeDigits_spec c.toNat (by omega) (cs.head?.any isDecDigit)
          obtain ⟨d, digits, hdigits⟩ := List.exists_cons_of_ne_nil hne
          rw [hdigits] at hall
          have hrun : ∀ c ∈ digits, c ≠ '"' ∧ c ≠ '\\' := by
            intro c hc
            have hdigit := hall c (List.mem_cons_of_mem _ hc)
            refine ⟨?_, ?_⟩
            · rintro rfl
              exact absurd hdigit (by decide)
            · rintro rfl
              exact absurd hdigit (by decide)
          rw [if_pos hk, hdigits, List.cons_append, List.cons_append, quotedRest_pair,
            quotedRest_run hrun, ih]
          rfl
        · have hone : ∀ d ∈ [c], d ≠ '"' ∧ d ≠ '\\' := by
            intro d hd
            obtain rfl := List.mem_singleton.1 hd
            exact ⟨fun h => hq (Or.inl h), fun h => hq (Or.inr (Or.inl h))⟩
          rw [if_neg hk, quotedRest_run hone, ih]
          rfl

/-- What is read back is longer by a byte for every line feed. -/
theorem length_readBack (cs : List Char) :
    (readBack cs).length = (utf8Bytes cs).length + cs.count '\n' := by
  induction cs with
  | nil => rfl
  | cons c cs ih =>
      have hread : readBack (c :: cs) =
          (if c = '\n' then [0x5C, 0x0A] else String.utf8EncodeChar c) ++ readBack cs := rfl
      rw [hread, List.length_append, ih, utf8Bytes_cons, List.length_append, List.count_cons]
      by_cases hc : c = '\n'
      · subst hc
        rw [if_pos rfl]
        have hone : (String.utf8EncodeChar '\n').length = 1 := by decide
        simp only [hone, List.length_cons, List.length_nil, beq_self_eq_true, if_true]
        omega
      · rw [if_neg hc, if_neg (by simpa using hc)]
        omega

theorem readBack_eq {cs : List Char} (h : '\n' ∉ cs) : readBack cs = utf8Bytes cs := by
  induction cs with
  | nil => rfl
  | cons c cs ih =>
      obtain ⟨hc, hcs⟩ := List.ne_and_not_mem_of_not_mem_cons h
      have hread : readBack (c :: cs) =
          (if c = '\n' then [0x5C, 0x0A] else String.utf8EncodeChar c) ++ readBack cs := rfl
      rw [hread, if_neg hc.symm, ih hcs]
      rfl

/-- A string is read back iff it has no line feed. -/
theorem string_reads_back_iff (lexer : StringLexer) (cs : List Char) :
    StringReadsBack lexer (utf8Bytes cs) ↔ '\n' ∉ cs := by
  have hquote : utf8Bytes ['"'] = [0x22] := by decide
  have hout : fmtQString (utf8Bytes cs) = utf8Bytes ('"' :: (quoteText cs ++ ['"'])) := by
    rw [fmtQString, fmtQBytes_utf8, utf8Bytes_cons, utf8Bytes_append, hquote]
    rfl
  have hvalue : parseString lexer ('"' :: (quoteText cs ++ ['"'])) = some (readBack cs) := by
    rw [parseString_quoted, decode_quoteText]
  constructor
  · rintro ⟨text, htext, -, hparse⟩ hmem
    obtain rfl := utf8Bytes_inj (hout.symm.trans htext)
    rw [hvalue] at hparse
    have hlen := length_readBack cs
    rw [Option.some.inj hparse] at hlen
    have hpos := List.count_pos_iff.2 hmem
    omega
  · intro hfree
    refine ⟨_, hout, ?_, ?_⟩
    · rw [stringToken, quotedRest_quoteText]
      rfl
    · rw [hvalue, readBack_eq hfree]

/-! ### Integers -/

theorem isDecDigit_of_toDigits {n : ℕ} {c : Char} (hc : c ∈ Nat.toDigits 10 n) :
    isDecDigit c = true := by
  have hdigit := Nat.isDigit_of_mem_toDigits (by decide) (by decide) hc
  simp only [Char.isDigit, Bool.and_eq_true, decide_eq_true_eq] at hdigit
  simp only [isDecDigit, Bool.and_eq_true, decide_eq_true_eq]
  exact hdigit

theorem foldl_digitOf {l : List Char} (hall : ∀ c ∈ l, isDecDigit c = true) :
    ∀ n, l.foldl (fun n c => 10 * n + digitOf c) n = Nat.ofDigitChars 10 l n := by
  induction l with
  | nil =>
      intro n
      rw [Nat.ofDigitChars_nil]
      rfl
  | cons c l ih =>
      intro n
      have hc := hall c List.mem_cons_self
      have hle : c ≤ '9' := by
        simp only [isDecDigit, Bool.and_eq_true, decide_eq_true_eq] at hc
        exact hc.2
      rw [List.foldl_cons, ih fun d hd => hall d (List.mem_cons_of_mem _ hd),
        Nat.ofDigitChars_cons, digitOf, if_pos hle]
      rfl

theorem digitsValue_toDigits (n : ℕ) : digitsValue 10 (Nat.toDigits 10 n) = n := by
  rw [digitsValue, foldl_digitOf fun c hc => isDecDigit_of_toDigits hc]
  exact Nat.ofDigitChars_ten_toDigits

/-- A decimal numeral in range is read as its number. -/
theorem integerLiteral_toDigits (powi : ℤ → UInt64) {n : ℕ} (h : n < 2 ^ 63) :
    integerLiteral powi (Nat.toDigits 10 n) = some (Value.integer (Int64.ofInt n)) := by
  have hall : ∀ c ∈ Nat.toDigits 10 n, isDecDigit c = true := fun c hc => isDecDigit_of_toDigits hc
  have hne : Nat.toDigits 10 n ≠ [] := Nat.toDigits_ne_nil
  have hsign : ∀ c ∈ (Nat.toDigits 10 n).head?, c ≠ '-' ∧ c ≠ '+' := by
    intro c hc
    have hdigit := hall c (List.mem_of_mem_head? hc)
    refine ⟨?_, ?_⟩
    · rintro rfl
      exact absurd hdigit (by decide)
    · rintro rfl
      exact absurd hdigit (by decide)
  have hsigned : parseSigned 10 (-2 ^ 63) (2 ^ 63 - 1) (Nat.toDigits 10 n) = some (n : ℤ) := by
    rw [parseSigned_unsigned _ _ _ hsign, @parseDigits_eq 10 _ hne hall, digitsValue_toDigits,
      Option.bind_some, if_pos ⟨by omega, by omega⟩]
  have hint : (Nat.toDigits 10 n != [] && (Nat.toDigits 10 n).all isDecDigit) = true := by
    simp only [Bool.and_eq_true, bne_iff_ne, ne_eq, List.all_eq_true]
    exact ⟨hne, hall⟩
  rw [integerLiteral, if_pos hint, literalValue, parseInt, i64FromStr, hsigned]
  rfl

/-- An integer is read back iff it is not the least one. -/
theorem integer_reads_back_iff (powi : ℤ → UInt64) (i : Int64) :
    IntegerReadsBack powi i ↔ i ≠ Int64.minValue := by
  constructor
  · rintro hread rfl
    have htext : fmtQInteger Int64.minValue = "0x8000000000000000".toList := rfl
    rw [IntegerReadsBack, htext] at hread
    exact nomatch hread
  · intro hmin
    have hrange := Int64.toInt_lt i
    have hleast : i.toInt ≠ -2 ^ 63 := fun h => hmin (Int64.toInt_inj.1 h)
    have hbound := Int64.le_toInt i
    have hread := integerLiteral_toDigits powi (n := i.toInt.natAbs) (by omega)
    have hback : ∀ z : ℤ, z = i.toInt → Int64.ofInt z = i := by
      rintro _ rfl
      exact Int64.ofInt_toInt i
    unfold IntegerReadsBack fmtQInteger
    rw [if_neg hmin]
    by_cases hneg : i.toInt < 0
    · rw [if_pos hneg]
      refine ⟨_, hread, ?_⟩
      rw [← Int64.ofInt_neg]
      exact hback _ (by omega)
    · rw [if_neg hneg]
      split
      · rename_i s hminus
        have hdigit := isDecDigit_of_toDigits (n := i.toInt.natAbs) (c := '-')
          (by rw [hminus]; exact List.mem_cons_self)
        exact absurd hdigit (by decide)
      · rw [hread, hback _ (by omega)]

/-- **`%q` is read back for the strings without a line feed, and for the integers but the least
one.** -/
theorem quoted_reads_back_iff (lexer : StringLexer) (powi : ℤ → UInt64) :
    (∀ cs, StringReadsBack lexer (utf8Bytes cs) ↔ '\n' ∉ cs) ∧
      ∀ i, IntegerReadsBack powi i ↔ i ≠ Int64.minValue :=
  ⟨string_reads_back_iff lexer, integer_reads_back_iff powi⟩

/-- A line feed is read back with a backslash in front of it, and the least integer not at all. -/
theorem quoted_not_read_back :
    ¬ StringReadsBack StringLexer.exact (utf8Bytes "\n".toList) ∧
      ¬ IntegerReadsBack (fun _ => 0) Int64.minValue := by
  refine ⟨?_, ?_⟩
  · rintro ⟨text, htext, -, hparse⟩
    have hout : fmtQString (utf8Bytes "\n".toList) = utf8Bytes "\"\\\n\"".toList := by decide
    obtain rfl := utf8Bytes_inj (hout.symm.trans htext)
    have hvalue : parseString StringLexer.exact "\"\\\n\"".toList = some [0x5C, 0x0A] := rfl
    rw [hvalue] at hparse
    exact absurd hparse (by decide)
  · exact fun hread => nomatch hread

end Tcvm
