/-
The values of string literals.

Both forms of a literal go through one decoder, which replaces the escapes that it knows and copies
everything else.  So a quoted string keeps the text of an escape it does not know, and a long string
loses its escapes, but not its first line break.

* `StringLexer`, `decodeFragment` — a lexer for the escapes that are known, and the decoder;
* `StringLexer.next_eq` — every such lexer finds `nextToken`;
* `parseString`, `parseLongString` — the two forms;
* `manualEscape`, `manualQuoted`, `manualLong` — the strings that the literals stand for;
* `utf8Encode_eq` — a code point is encoded with one to six bytes;
* `manualQuoted_ordinary`, `length_manualQuoted` — where the decoder agrees, and where it is longer;
* `string_literal_iff` — **the literals with the value they stand for**.
-/

import Tcvm.LexerScan
import Tcvm.LuaValue
import Mathlib.Data.List.TakeWhile

namespace Tcvm

open Utf8Text

/-! ### Digits -/

def isDecDigit (c : Char) : Bool := '0' ≤ c && c ≤ '9'

def isHexDigit (c : Char) : Bool :=
  isDecDigit c || ('a' ≤ c && c ≤ 'f') || ('A' ≤ c && c ≤ 'F')

/-- The value of a digit. -/
def digitOf (c : Char) : ℕ :=
  if c ≤ '9' then c.toNat - 48 else if c ≤ 'F' then c.toNat - 55 else c.toNat - 87

/-- The value of digits, the first one the highest. -/
def digitsValue (base : ℕ) (digits : List Char) : ℕ :=
  digits.foldl (fun n c => base * n + digitOf c) 0

/-! ### The decoder -/

/-- `utf8_encode`: the loop fills a buffer of `room` bytes from its end; `mfb` is the greatest value
that fits into the first byte. -/
def utf8EncodeLoop : ℕ → ℕ → ℕ → List UInt8 → List UInt8
  | 0, _, _, filled => filled
  | room + 1, x, mfb, filled =>
      let filled := UInt8.ofNat (0x80 ||| (x &&& 0x3f)) :: filled
      let x := x >>> 6
      let mfb := mfb >>> 1
      if x ≤ mfb then UInt8.ofNat ((2 ^ 32 - 1 - mfb) <<< 1 % 2 ^ 32 ||| x) :: filled
      else utf8EncodeLoop room x mfb filled

def utf8Encode (cp : ℕ) : List UInt8 :=
  if cp < 0x80 then [UInt8.ofNat cp] else utf8EncodeLoop 8 cp 0x3f []

/-- `StringToken`: an escape of one character, or one with its digits. -/
inductive StringToken
  | simple (byte : UInt8)
  | hex (digits : List Char)
  | decimal (digits : List Char)
  | unicode (digits : List Char)
  deriving DecidableEq

/-- The escapes of one character. -/
def simpleToken : Char → Option UInt8
  | 'a' => some 0x07
  | 'b' => some 0x08
  | 'f' => some 0x0C
  | 'n' => some 0x0A
  | 'r' => some 0x0D
  | 't' => some 0x09
  | 'v' => some 0x0B
  | '\\' => some 0x5C
  | '"' => some 0x22
  | '\'' => some 0x27
  | '[' => some 0x5B
  | ']' => some 0x5D
  | _ => none

/-- Two hexadecimal digits. -/
def hexPair? : List Char → Option (List Char)
  | d₁ :: d₂ :: _ => if isHexDigit d₁ && isHexDigit d₂ then some [d₁, d₂] else none
  | _ => none

/-- Hexadecimal digits in braces. -/
def bracedHex? : List Char → Option (List Char)
  | '{' :: cs =>
      let digits := cs.takeWhile isHexDigit
      if digits != [] && cs[digits.length]? == some '}' then some digits else none
  | _ => none

/-- One to three decimal digits. -/
def decimalDigits (cs : List Char) : List Char := (cs.take 3).takeWhile isDecDigit

/-- The token behind a backslash, and the number of its characters. -/
def nextToken : List Char → Option (StringToken × ℕ)
  | [] => none
  | c :: cs =>
      match simpleToken c with
      | some byte => some (StringToken.simple byte, 1)
      | none =>
          if c = 'x' then (hexPair? cs).map fun digits => (StringToken.hex digits, 3)
          else if c = 'u' then
            (bracedHex? cs).map fun digits => (StringToken.unicode digits, digits.length + 3)
          else if isDecDigit c then
            let digits := decimalDigits (c :: cs)
            some (StringToken.decimal digits, digits.length)
          else none

/-- The texts of a token, behind its backslash. -/
inductive StringToken.Matches : StringToken → List Char → Prop
  | simple {c : Char} {byte : UInt8} (h : simpleToken c = some byte) : Matches (simple byte) [c]
  | hex {digits : List Char} (hlen : digits.length = 2)
      (hdigits : ∀ d ∈ digits, isHexDigit d = true) : Matches (hex digits) ('x' :: digits)
  | decimal {digits : List Char} (hne : digits ≠ []) (hlen : digits.length ≤ 3)
      (hdigits : ∀ d ∈ digits, isDecDigit d = true) : Matches (decimal digits) digits
  | unicode {digits : List Char} (hne : digits ≠ [])
      (hdigits : ∀ d ∈ digits, isHexDigit d = true) :
      Matches (unicode digits) ('u' :: '{' :: (digits ++ ['}']))

/-- The lexer that is derived for `StringToken`: behind a backslash it finds the token with the
longest text, and the number of its characters. -/
structure StringLexer where
  next : List Char → Option (StringToken × ℕ)
  matches_of_next {cs : List Char} {token : StringToken} {length : ℕ}
    (h : next cs = some (token, length)) :
    ∃ text, token.Matches text ∧ text <+: cs ∧ text.length = length
  next_of_matches {cs text : List Char} {token : StringToken} (h : token.Matches text)
    (hpre : text <+: cs) :
    ∃ token' length, next cs = some (token', length) ∧ text.length ≤ length

section Decoder

variable (lexer : StringLexer)

/-- `parse_hex_escape`, `parse_decimal_escape`, `parse_unicode_escape`. -/
def StringToken.decode : StringToken → Option (List UInt8)
  | simple byte => some [byte]
  | hex digits => some [UInt8.ofNat (digitsValue 16 digits)]
  | decimal digits =>
      let value := digitsValue 10 digits
      if value ≤ 255 then some [UInt8.ofNat value] else none
  | unicode digits =>
      let cp := digitsValue 16 digits
      if 2 ^ 64 ≤ cp then none
      else if 0x7FFFFFFF < cp then none
      else some (utf8Encode cp)

/-- `parse_string_fragment`, behind `skip` characters of a token.  Text that is no token is
copied. -/
def decodeFragment : ℕ → List Char → Option (List UInt8)
  | _, [] => some []
  | skip + 1, _ :: cs => decodeFragment skip cs
  | 0, c :: cs =>
      match if c = '\\' then lexer.next cs else none with
      | some (token, length) =>
          token.decode.bind fun bytes => (decodeFragment length cs).map (bytes ++ ·)
      | none => (decodeFragment 0 cs).map (String.utf8EncodeChar c ++ ·)

/-- `parse_string`. -/
def parseString (s : List Char) : Option (List UInt8) :=
  decodeFragment lexer 0 (s.drop 1).dropLast

/-- The loop of `parse_long_string`: the level of the bracket is counted in `suffix`. -/
def stripLevel : ℕ → List Char → ℕ × List Char
  | suffix, '=' :: s => stripLevel (suffix + 1) s
  | suffix, s => (suffix, s)

/-- `parse_long_string`.  What it cuts off are ASCII characters. -/
def parseLongString (s : List Char) : Option (List UInt8) :=
  let (suffix, s) := stripLevel 1 (s.drop 1).dropLast
  decodeFragment lexer 0 ((s.take (s.length - suffix)).drop 1)

end Decoder

/-! ### The strings that the literals stand for -/

/-- A byte with six bits of a number. -/
def tailByte (n : ℕ) : UInt8 := UInt8.ofNat (0x80 + n % 64)

/-- The encoding of a code point below 2³¹. -/
def manualUtf8 (cp : ℕ) : List UInt8 :=
  let c₁ := cp / 64
  let c₂ := c₁ / 64
  let c₃ := c₂ / 64
  let c₄ := c₃ / 64
  if cp < 0x80 then [UInt8.ofNat cp]
  else if cp < 0x800 then [UInt8.ofNat (0xC0 + c₁), tailByte cp]
  else if cp < 0x10000 then [UInt8.ofNat (0xE0 + c₂), tailByte c₁, tailByte cp]
  else if cp < 0x200000 then [UInt8.ofNat (0xF0 + c₃), tailByte c₂, tailByte c₁, tailByte cp]
  else if cp < 0x4000000 then
    [UInt8.ofNat (0xF8 + c₄), tailByte c₃, tailByte c₂, tailByte c₁, tailByte cp]
  else
    [UInt8.ofNat (0xFC + c₄ / 64), tailByte c₄, tailByte c₃, tailByte c₂, tailByte c₁, tailByte cp]

def isSpace (c : Char) : Bool := c == ' ' || ('\t' ≤ c && c ≤ '\r')

/-- The number of characters of a line break at the front. -/
def lineBreak? : List Char → Option ℕ
  | '\r' :: '\n' :: _ => some 2
  | '\n' :: '\r' :: _ => some 2
  | '\n' :: _ => some 1
  | '\r' :: _ => some 1
  | _ => none

/-- The escapes of one letter or sign. -/
def letterEscape (c : Char) : Option UInt8 := if c = '[' ∨ c = ']' then none else simpleToken c

/-- What an escape stands for, and its number of characters behind the backslash. -/
def manualEscape : List Char → Option (List UInt8 × ℕ)
  | [] => none
  | c :: cs =>
      match letterEscape c, lineBreak? (c :: cs) with
      | some byte, _ => some ([byte], 1)
      | none, some length => some ([0x0A], length)
      | none, none =>
          if c = 'z' then some ([], 1 + (cs.takeWhile isSpace).length)
          else if c = 'x' then
            (hexPair? cs).map fun digits => ([UInt8.ofNat (digitsValue 16 digits)], 3)
          else if c = 'u' then
            (bracedHex? cs).bind fun digits =>
              if digitsValue 16 digits < 2 ^ 31 then
                some (manualUtf8 (digitsValue 16 digits), digits.length + 3)
              else none
          else if isDecDigit c then
            let digits := decimalDigits (c :: cs)
            if digitsValue 10 digits < 256 then
              some ([UInt8.ofNat (digitsValue 10 digits)], digits.length)
            else none
          else none

def isBreak (c : Char) : Bool := c == '\n' || c == '\r'

/-- The string of a quoted literal; `none` is an error, as is a line break without a backslash. -/
def manualQuoted : ℕ → List Char → Option (List UInt8)
  | _, [] => some []
  | skip + 1, _ :: cs => manualQuoted skip cs
  | 0, c :: cs =>
      if c = '\\' then
        (manualEscape cs).bind fun e => (manualQuoted e.2 cs).map (e.1 ++ ·)
      else if isBreak c then none
      else (manualQuoted 0 cs).map (String.utf8EncodeChar c ++ ·)

/-- The string of a long literal: its text, without a line break at the front. -/
def manualLong (body : List Char) : List UInt8 := utf8Bytes (body.drop ((lineBreak? body).getD 0))

/-! ### Encoding a code point -/

theorem tailByte_eq (x : ℕ) : UInt8.ofNat (0x80 ||| (x &&& 0x3f)) = tailByte x := by
  have hand : x &&& 0x3f = x % 64 := Nat.and_two_pow_sub_one_eq_mod x 6
  have hor : 2 ^ 7 * 1 + x % 64 = 2 ^ 7 * 1 ||| x % 64 :=
    Nat.two_pow_add_eq_or_of_lt (by omega) 1
  rw [hand]
  exact congrArg UInt8.ofNat hor.symm

/-- A first byte: the ones in front count the bytes. -/
theorem firstByte_eq (i k base : ℕ) {mark x : ℕ} (hx : x < 2 ^ i) (hmark : mark = 2 ^ i * k)
    (hbase : mark % 256 = base % 256) : UInt8.ofNat (mark ||| x) = UInt8.ofNat (base + x) := by
  rw [hmark, ← Nat.two_pow_add_eq_or_of_lt hx, ← hmark]
  refine UInt8.toNat_inj.1 ?_
  rw [UInt8.toNat_ofNat', UInt8.toNat_ofNat']
  omega

theorem utf8EncodeLoop_succ (room x mfb : ℕ) (filled : List UInt8) :
    utf8EncodeLoop (room + 1) x mfb filled =
      if x / 64 ≤ mfb / 2 then
        UInt8.ofNat ((2 ^ 32 - 1 - mfb / 2) <<< 1 % 2 ^ 32 ||| x / 64) :: tailByte x :: filled
      else utf8EncodeLoop room (x / 64) (mfb / 2) (tailByte x :: filled) := by
  rw [utf8EncodeLoop]
  simp only [tailByte_eq, Nat.shiftRight_eq_div_pow, Nat.pow_one]

/-- **The loop encodes every code point below 2³¹.** -/
theorem utf8Encode_eq {cp : ℕ} (h : cp < 2 ^ 31) : utf8Encode cp = manualUtf8 cp := by
  unfold utf8Encode manualUtf8
  by_cases h7 : cp < 0x80
  · rw [if_pos h7, if_pos h7]
  rw [if_neg h7, if_neg h7, utf8EncodeLoop_succ]
  by_cases h11 : cp < 0x800
  · rw [if_pos h11, if_pos (by omega),
      firstByte_eq 6 0x3FFFFFF 0xC0 (by omega) (by decide) (by decide)]
  rw [if_neg h11, if_neg (by omega), utf8EncodeLoop_succ]
  by_cases h16 : cp < 0x10000
  · rw [if_pos h16, if_pos (by omega),
      firstByte_eq 5 0x7FFFFFF 0xE0 (by omega) (by decide) (by decide)]
  rw [if_neg h16, if_neg (by omega), utf8EncodeLoop_succ]
  by_cases h21 : cp < 0x200000
  · rw [if_pos h21, if_pos (by omega),
      firstByte_eq 4 0xFFFFFFF 0xF0 (by omega) (by decide) (by decide)]
  rw [if_neg h21, if_neg (by omega), utf8EncodeLoop_succ]
  by_cases h26 : cp < 0x4000000
  · rw [if_pos h26, if_pos (by omega),
      firstByte_eq 3 0x1FFFFFFF 0xF8 (by omega) (by decide) (by decide)]
  rw [if_neg h26, if_neg (by omega), utf8EncodeLoop_succ, if_pos (by omega),
    firstByte_eq 2 0x3FFFFFFF 0xFC (by omega) (by decide) (by decide)]

/-- A code point has fewer bytes than an escape has characters. -/
theorem length_manualUtf8 (cp : ℕ) :
    (manualUtf8 cp).length ≤ 4 ∨ (manualUtf8 cp).length ≤ 6 ∧ 256 ≤ cp := by
  simp only [manualUtf8]
  split
  · exact Or.inl (by simp)
  · split
    · exact Or.inl (by simp)
    · split
      · exact Or.inl (by simp)
      · split
        · exact Or.inl (by simp)
        · exact Or.inr (by split <;> exact ⟨by simp, by omega⟩)

/-! ### The tokens behind a backslash -/

theorem bracedHex?_spec {cs digits : List Char} (h : bracedHex? cs = some digits) :
    digits ≠ [] ∧ (∀ d ∈ digits, isHexDigit d = true) ∧ '{' :: (digits ++ ['}']) <+: cs := by
  unfold bracedHex? at h
  split at h
  · rename_i cs'
    dsimp only at h
    split at h
    · rename_i htest
      obtain rfl := Option.some.inj h
      simp only [Bool.and_eq_true, bne_iff_ne, ne_eq, beq_iff_eq] at htest
      obtain ⟨hne, hclose⟩ := htest
      obtain ⟨rest, hrest⟩ := List.takeWhile_prefix (l := cs') isHexDigit
      refine ⟨hne, fun d hd => List.mem_takeWhile_imp hd, ?_⟩
      generalize cs'.takeWhile isHexDigit = digits at hclose hrest ⊢
      subst hrest
      rw [List.getElem?_append_right (Nat.le_refl _), Nat.sub_self] at hclose
      cases rest with
      | nil => exact nomatch hclose
      | cons c rest =>
          obtain rfl := Option.some.inj hclose
          exact ⟨rest, by simp⟩
    · exact nomatch h
  · exact nomatch h

theorem nextToken_decimal {c : Char} (h : isDecDigit c = true) (cs : List Char) :
    nextToken (c :: cs) =
      some (StringToken.decimal (decimalDigits (c :: cs)), (decimalDigits (c :: cs)).length) := by
  have hsimple : simpleToken c = none := by
    unfold simpleToken
    split <;> first | rfl | exact absurd h (by decide)
  have hx : c ≠ 'x' := by
    rintro rfl
    exact absurd h (by decide)
  have hu : c ≠ 'u' := by
    rintro rfl
    exact absurd h (by decide)
  rw [nextToken, hsimple]
  simp only [if_neg hx, if_neg hu, if_pos h]

theorem decimalDigits_append {digits : List Char} (hdigits : ∀ d ∈ digits, isDecDigit d = true)
    (hlen : digits.length ≤ 3) (rest : List Char) :
    decimalDigits (digits ++ rest) =
      digits ++ (rest.take (3 - digits.length)).takeWhile isDecDigit := by
  rw [decimalDigits, List.take_append, List.take_of_length_le hlen,
    List.takeWhile_append_of_pos hdigits]

theorem matches_of_nextToken {cs : List Char} {token : StringToken} {length : ℕ}
    (h : nextToken cs = some (token, length)) :
    ∃ text, token.Matches text ∧ text <+: cs ∧ text.length = length := by
  cases cs with
  | nil => exact nomatch h
  | cons c cs =>
      rw [nextToken] at h
      split at h
      · rename_i byte hbyte
        obtain ⟨rfl, rfl⟩ := Prod.mk.inj (Option.some.inj h)
        exact ⟨[c], StringToken.Matches.simple hbyte, ⟨cs, rfl⟩, rfl⟩
      · split at h
        · rename_i hx
          obtain ⟨digits, hdigits, heq⟩ := Option.map_eq_some_iff.1 h
          obtain ⟨rfl, rfl⟩ := Prod.mk.inj heq
          unfold hexPair? at hdigits
          split at hdigits
          · rename_i d₁ d₂ rest
            obtain ⟨htest, hpair⟩ := Option.ite_none_right_eq_some.1 hdigits
            obtain rfl := Option.some.inj hpair
            rw [Bool.and_eq_true] at htest
            exact ⟨['x', d₁, d₂], StringToken.Matches.hex rfl (by simpa using htest),
              ⟨rest, by rw [hx]; rfl⟩, rfl⟩
          · exact nomatch hdigits
        · split at h
          · rename_i hu
            obtain ⟨digits, hdigits, heq⟩ := Option.map_eq_some_iff.1 h
            obtain ⟨rfl, rfl⟩ := Prod.mk.inj heq
            obtain ⟨hne, hhex, hpre⟩ := bracedHex?_spec hdigits
            rw [hu]
            exact ⟨_, StringToken.Matches.unicode hne hhex, List.cons_prefix_cons.2 ⟨rfl, hpre⟩,
              by simp⟩
          · split at h
            · rename_i hdigit
              obtain ⟨rfl, rfl⟩ := Prod.mk.inj (Option.some.inj h)
              have htake := List.takeWhile_prefix (l := (c :: cs).take 3) isDecDigit
              refine ⟨decimalDigits (c :: cs), StringToken.Matches.decimal ?_
                (htake.length_le.trans (List.length_take_le 3 _))
                fun d hd => List.mem_takeWhile_imp hd, htake.trans (List.take_prefix 3 _), rfl⟩
              rw [decimalDigits, List.take_succ_cons, List.takeWhile_cons, if_pos hdigit]
              exact List.cons_ne_nil _ _
            · exact nomatch h

/-- Behind the text of a token there is that token, or one with a longer text. -/
theorem nextToken_append {token : StringToken} {text : List Char} (h : token.Matches text)
    (rest : List Char) :
    ∃ token' length, nextToken (text ++ rest) = some (token', length) ∧ text.length ≤ length ∧
      (rest = [] → token' = token) := by
  cases h with
  | simple hbyte =>
      exact ⟨_, 1, by simp only [List.singleton_append, nextToken, hbyte], Nat.le_refl 1,
        fun _ => rfl⟩
  | hex hlen hdigits =>
      obtain ⟨d₁, d₂, rfl⟩ := List.length_eq_two.1 hlen
      have hx : simpleToken 'x' = none := rfl
      refine ⟨StringToken.hex [d₁, d₂], 3, ?_, Nat.le_refl 3, fun _ => rfl⟩
      simp [nextToken, hx, hexPair?, hdigits d₁, hdigits d₂]
  | @decimal digits hne hlen hdigits =>
      have htake := decimalDigits_append hdigits hlen rest
      obtain ⟨d, tail, rfl⟩ := List.exists_cons_of_ne_nil hne
      refine ⟨_, _, nextToken_decimal (hdigits d List.mem_cons_self) _, ?_, ?_⟩
      · refine Nat.le_trans ?_ (congrArg List.length htake).ge
        rw [List.length_append]
        exact Nat.le_add_right _ _
      · rintro rfl
        exact congrArg StringToken.decimal (htake.trans (by simp))
  | @unicode digits hne hdigits =>
      have hu : simpleToken 'u' = none := rfl
      have htake : (digits ++ '}' :: rest).takeWhile isHexDigit = digits := by
        rw [List.takeWhile_append_of_pos hdigits, List.takeWhile_cons_of_neg (by decide),
          List.append_nil]
      refine ⟨StringToken.unicode digits, digits.length + 3, ?_, by simp, fun _ => rfl⟩
      simp [nextToken, hu, bracedHex?, htake, hne]

theorem StringToken.Matches.unique {token token' : StringToken} {text : List Char}
    (h : token.Matches text) (h' : token'.Matches text) : token = token' := by
  obtain ⟨t, _, hnext, -, ht⟩ := nextToken_append h []
  obtain ⟨t', _, hnext', -, ht'⟩ := nextToken_append h' []
  rw [hnext] at hnext'
  rw [← ht rfl, ← ht' rfl, (Prod.mk.inj (Option.some.inj hnext')).1]

/-- A lexer for `StringToken`. -/
def StringLexer.exact : StringLexer where
  next := nextToken
  matches_of_next := matches_of_nextToken
  next_of_matches := by
    rintro - text token h ⟨rest, rfl⟩
    obtain ⟨token', length, hnext, hle, -⟩ := nextToken_append h rest
    exact ⟨token', length, hnext, hle⟩

/-- There is only one such lexer. -/
theorem StringLexer.agree (lexer lexer' : StringLexer) {cs : List Char} {token : StringToken}
    {length : ℕ} (h : lexer.next cs = some (token, length)) :
    lexer'.next cs = some (token, length) := by
  obtain ⟨text, hmatch, hpre, rfl⟩ := lexer.matches_of_next h
  obtain ⟨token', length', h', hle⟩ := lexer'.next_of_matches hmatch hpre
  obtain ⟨text', hmatch', hpre', rfl⟩ := lexer'.matches_of_next h'
  obtain ⟨_, _, hback, hle'⟩ := lexer.next_of_matches hmatch' hpre'
  obtain ⟨-, rfl⟩ := Prod.mk.inj (Option.some.inj (h.symm.trans hback))
  obtain rfl : text = text' :=
    (List.prefix_of_prefix_length_le hpre hpre' hle).eq_of_length (Nat.le_antisymm hle hle')
  rw [h', hmatch.unique hmatch']

theorem StringLexer.next_eq (lexer : StringLexer) (cs : List Char) :
    lexer.next cs = nextToken cs :=
  Option.ext fun _ => ⟨lexer.agree StringLexer.exact, StringLexer.exact.agree lexer⟩

/-! ### The escapes of a text -/

variable {lexer : StringLexer}

/-- The texts behind the backslashes at which the decoder looks for a token. -/
def escapesOf : ℕ → List Char → List (List Char)
  | _, [] => []
  | skip + 1, _ :: cs => escapesOf skip cs
  | 0, c :: cs =>
      if c = '\\' then cs :: escapesOf (((nextToken cs).map Prod.snd).getD 0) cs
      else escapesOf 0 cs

/-- The characters that are in no escape. -/
def rawOf : ℕ → List Char → List Char
  | _, [] => []
  | skip + 1, _ :: cs => rawOf skip cs
  | 0, c :: cs =>
      if c = '\\' then rawOf (((nextToken cs).map Prod.snd).getD 0) cs else c :: rawOf 0 cs

/-- A numeric escape whose value is too large. -/
def OutOfRange (e : List Char) : Prop :=
  ∃ token length, nextToken e = some (token, length) ∧ token.decode = none

/-- An escape other than `\z` and a line break. -/
def Ordinary (e : List Char) : Prop :=
  (manualEscape e).isSome ∧ e.head? ≠ some 'z' ∧ lineBreak? e = none

/-- Characters that are skipped do not matter. -/
theorem skip_eq {α : Type} (f : ℕ → List Char → α) (hnil : ∀ n, f n [] = f 0 [])
    (hskip : ∀ n c cs, f (n + 1) (c :: cs) = f n cs) (cs : List Char) :
    ∀ n, f n cs = f 0 (cs.drop n) := by
  induction cs with
  | nil =>
      intro n
      rw [List.drop_nil, hnil]
  | cons c cs ih =>
      intro n
      cases n with
      | zero => rfl
      | succ n => rw [hskip, List.drop_succ_cons, ih]

theorem decodeFragment_skip (cs : List Char) (n : ℕ) :
    decodeFragment lexer n cs = decodeFragment lexer 0 (cs.drop n) :=
  skip_eq _ (fun n => by cases n <;> rfl) (fun _ _ _ => rfl) cs n

theorem manualQuoted_skip (cs : List Char) (n : ℕ) :
    manualQuoted n cs = manualQuoted 0 (cs.drop n) :=
  skip_eq _ (fun n => by cases n <;> rfl) (fun _ _ _ => rfl) cs n

theorem escapesOf_skip (cs : List Char) (n : ℕ) : escapesOf n cs = escapesOf 0 (cs.drop n) :=
  skip_eq _ (fun n => by cases n <;> rfl) (fun _ _ _ => rfl) cs n

/-- Other characters are copied. -/
theorem decodeFragment_raw {c : Char} (hc : c ≠ '\\') (cs : List Char) :
    decodeFragment lexer 0 (c :: cs) =
      (decodeFragment lexer 0 cs).map (String.utf8EncodeChar c ++ ·) := by
  simp only [decodeFragment, if_neg hc]

theorem decodeFragment_token {cs : List Char} {token : StringToken} {length : ℕ}
    (h : nextToken cs = some (token, length)) :
    decodeFragment lexer 0 ('\\' :: cs) =
      token.decode.bind fun bytes =>
        (decodeFragment lexer 0 (cs.drop length)).map (bytes ++ ·) := by
  simp only [decodeFragment, if_true, lexer.next_eq, h]
  rw [decodeFragment_skip]

theorem decodeFragment_noToken {cs : List Char} (h : nextToken cs = none) :
    decodeFragment lexer 0 ('\\' :: cs) =
      (decodeFragment lexer 0 cs).map (String.utf8EncodeChar '\\' ++ ·) := by
  simp only [decodeFragment, if_true, lexer.next_eq, h]

theorem escapesOf_raw {c : Char} (hc : c ≠ '\\') (cs : List Char) :
    escapesOf 0 (c :: cs) = escapesOf 0 cs := by
  simp only [escapesOf, if_neg hc]

theorem escapesOf_token {cs : List Char} {token : StringToken} {length : ℕ}
    (h : nextToken cs = some (token, length)) :
    escapesOf 0 ('\\' :: cs) = cs :: escapesOf 0 (cs.drop length) := by
  simp only [escapesOf, if_true, h, Option.map_some, Option.getD_some]
  rw [escapesOf_skip]

theorem escapesOf_noToken {cs : List Char} (h : nextToken cs = none) :
    escapesOf 0 ('\\' :: cs) = cs :: escapesOf 0 cs := by
  simp only [escapesOf, if_true, h, Option.map_none, Option.getD_none]

/-- Text without a backslash is copied, and has no escape. -/
theorem decodeFragment_run {w : List Char} (hw : '\\' ∉ w) (cs : List Char) :
    decodeFragment lexer 0 (w ++ cs) = (decodeFragment lexer 0 cs).map (utf8Bytes w ++ ·) ∧
      escapesOf 0 (w ++ cs) = escapesOf 0 cs := by
  induction w with
  | nil =>
      refine ⟨?_, rfl⟩
      simp
  | cons c w ih =>
      obtain ⟨hc, hw⟩ := List.ne_and_not_mem_of_not_mem_cons hw
      obtain ⟨hdecode, hescapes⟩ := ih hw
      rw [List.cons_append, decodeFragment_raw hc.symm, escapesOf_raw hc.symm, hdecode]
      refine ⟨?_, hescapes⟩
      cases decodeFragment lexer 0 cs with
      | none => rfl
      | some bs => simp

/-- **The decoder reports an error iff a numeric escape is out of range.** -/
theorem decodeFragment_eq_none_iff (cs : List Char) :
    ∀ n, decodeFragment lexer n cs = none ↔ ∃ e ∈ escapesOf n cs, OutOfRange e := by
  induction cs with
  | nil =>
      intro n
      cases n <;> simp [decodeFragment, escapesOf]
  | cons c cs ih =>
      intro n
      cases n with
      | succ n => exact ih n
      | zero =>
          by_cases hc : c = '\\'
          · subst hc
            cases htoken : nextToken cs with
            | none =>
                rw [decodeFragment_noToken htoken, escapesOf_noToken htoken, Option.map_eq_none_iff,
                  ih, List.exists_mem_cons_iff]
                refine (or_iff_right ?_).symm
                rintro ⟨token, length, h, -⟩
                rw [htoken] at h
                exact nomatch h
            | some t =>
                obtain ⟨token, length⟩ := t
                have hrest := ih length
                rw [decodeFragment_skip, escapesOf_skip] at hrest
                rw [decodeFragment_token htoken, escapesOf_token htoken, List.exists_mem_cons_iff,
                  ← hrest]
                cases hdecode : token.decode with
                | none => exact iff_of_true rfl (Or.inl ⟨token, length, htoken, hdecode⟩)
                | some bytes =>
                    rw [Option.bind_some, Option.map_eq_none_iff]
                    refine (or_iff_right ?_).symm
                    rintro ⟨token', length', h, hnone⟩
                    rw [htoken] at h
                    obtain ⟨rfl, -⟩ := Prod.mk.inj (Option.some.inj h)
                    rw [hdecode] at hnone
                    exact nomatch hnone
          · rw [decodeFragment_raw hc, escapesOf_raw hc, Option.map_eq_none_iff]
            exact ih 0

/-! ### Quoted strings -/

theorem letterEscape_eq_some {c : Char} {byte : UInt8} (h : letterEscape c = some byte) :
    simpleToken c = some byte := by
  unfold letterEscape at h
  split at h
  · exact nomatch h
  · exact h

theorem simpleToken_bracket {c : Char} (hletter : letterEscape c = none)
    (hsimple : simpleToken c ≠ none) : c = '[' ∨ c = ']' := by
  by_contra hne
  rw [letterEscape, if_neg hne] at hletter
  exact hsimple hletter

/-- An ordinary escape is a token with the value that the manual gives it. -/
theorem Ordinary.token {e : List Char} (h : Ordinary e) :
    ∃ token length bytes, nextToken e = some (token, length) ∧ token.decode = some bytes ∧
      manualEscape e = some (bytes, length) := by
  obtain ⟨hsome, hz, hbreak⟩ := h
  cases e with
  | nil => exact nomatch hsome
  | cons c cs =>
      have hz : c ≠ 'z' := fun h => hz (by rw [h]; rfl)
      cases hletter : letterEscape c with
      | some byte =>
          refine ⟨StringToken.simple byte, 1, [byte], ?_, rfl, ?_⟩
          · simp only [nextToken, letterEscape_eq_some hletter]
          · simp only [manualEscape, hletter]
      | none =>
          simp only [manualEscape, hletter, hbreak, if_neg hz] at hsome ⊢
          cases hsimple : simpleToken c with
          | some byte =>
              rcases simpleToken_bracket hletter (by rw [hsimple]; simp) with rfl | rfl <;>
                exact absurd hsome Bool.false_ne_true
          | none =>
              simp only [nextToken, hsimple]
              split at hsome
              · rename_i hx
                obtain ⟨digits, hdigits⟩ := Option.isSome_iff_exists.1 (by simpa using hsome)
                rw [if_pos hx, if_pos hx, hdigits]
                exact ⟨_, _, _, rfl, rfl, rfl⟩
              · rename_i hx
                rw [if_neg hx, if_neg hx]
                split at hsome
                · rename_i hu
                  rw [if_pos hu, if_pos hu]
                  cases hdigits : bracedHex? cs with
                  | none =>
                      rw [hdigits] at hsome
                      exact nomatch hsome
                  | some digits =>
                      rw [hdigits, Option.bind_some] at hsome
                      split at hsome
                      · rename_i hlt
                        refine ⟨_, _, manualUtf8 (digitsValue 16 digits), rfl, ?_, ?_⟩
                        · simp only [StringToken.decode]
                          rw [if_neg (by omega), if_neg (by omega), utf8Encode_eq hlt]
                        · rw [Option.bind_some, if_pos hlt]
                      · exact nomatch hsome
                · rename_i hu
                  rw [if_neg hu, if_neg hu]
                  split at hsome
                  · rename_i hdigit
                    rw [if_pos hdigit, if_pos hdigit]
                    split at hsome
                    · rename_i hlt
                      refine ⟨_, _, _, rfl, ?_, by rw [if_pos hlt]⟩
                      simp only [StringToken.decode]
                      rw [if_pos (by omega)]
                    · exact nomatch hsome
                  · exact nomatch hsome

/-- **Where all escapes are ordinary, the decoder follows the manual iff no line break is raw;
otherwise the manual has no value.** -/
theorem manualQuoted_ordinary (cs : List Char) :
    ∀ n, (∀ e ∈ escapesOf n cs, Ordinary e) →
      manualQuoted n cs = if (rawOf n cs).any isBreak then none else decodeFragment lexer n cs := by
  induction cs with
  | nil =>
      intro n _
      cases n <;> rfl
  | cons c cs ih =>
      intro n hall
      cases n with
      | succ n => exact ih n hall
      | zero =>
          by_cases hc : c = '\\'
          · subst hc
            have hhead : Ordinary cs := hall cs (by simp [escapesOf])
            obtain ⟨token, length, bytes, htoken, hdecode, hmanual⟩ := hhead.token
            have hrest := ih length fun e he => hall e (by
              rw [escapesOf_skip] at he
              rw [escapesOf_token htoken]
              exact List.mem_cons_of_mem _ he)
            rw [decodeFragment_skip] at hrest
            rw [decodeFragment_token htoken, hdecode]
            simp only [manualQuoted, rawOf, if_true, htoken, hmanual, hrest, Option.bind_some,
              Option.map_some, Option.getD_some]
            split <;> rfl
          · rw [escapesOf_raw hc] at hall
            simp only [decodeFragment, manualQuoted, rawOf, if_neg hc, ih 0 hall, List.any_cons]
            cases isBreak c with
            | true => rfl
            | false =>
                rw [Bool.false_or, if_neg Bool.false_ne_true]
                split <;> rfl

/-- A line break is one or two characters, and none of them a backslash or a token. -/
theorem lineBreak?_spec {cs : List Char} {length : ℕ} (h : lineBreak? cs = some length) :
    nextToken cs = none ∧ manualEscape cs = some ([0x0A], length) ∧ '\\' ∉ cs.take length ∧
      (∀ c ∈ cs.take length, c.toNat < 128) ∧ 1 ≤ length ∧ length ≤ cs.length := by
  have hcr : letterEscape '\r' = none := rfl
  have hlf : letterEscape '\n' = none := rfl
  have hbreak := h
  unfold lineBreak? at h
  split at h
  · obtain rfl := Option.some.inj h
    exact ⟨rfl, by simp only [manualEscape, hcr, hbreak], by simp, by simp, by omega, by simp⟩
  · obtain rfl := Option.some.inj h
    exact ⟨rfl, by simp only [manualEscape, hlf, hbreak], by simp, by simp, by omega, by simp⟩
  · obtain rfl := Option.some.inj h
    exact ⟨rfl, by simp only [manualEscape, hlf, hbreak], by simp, by simp, by omega, by simp⟩
  · obtain rfl := Option.some.inj h
    exact ⟨rfl, by simp only [manualEscape, hcr, hbreak], by simp, by simp, by omega, by simp⟩
  · exact nomatch h

/-- The escapes that are not ordinary are no tokens, and their texts are longer than what they stand
for. -/
theorem noToken_of_not_ordinary {cs : List Char} {bytes : List UInt8} {length : ℕ}
    (hmanual : manualEscape cs = some (bytes, length)) (h : ¬ Ordinary cs) :
    nextToken cs = none ∧ '\\' ∉ cs.take length ∧ 1 ≤ length ∧ length ≤ cs.length ∧
      bytes.length ≤ 1 := by
  cases hbreak : lineBreak? cs with
  | some k =>
      obtain ⟨htoken, hvalue, hfree, -, hpos, hle⟩ := lineBreak?_spec hbreak
      rw [hmanual] at hvalue
      obtain ⟨rfl, rfl⟩ := Prod.mk.inj (Option.some.inj hvalue)
      exact ⟨htoken, hfree, hpos, hle, Nat.le_refl 1⟩
  | none =>
      have hz : cs.head? = some 'z' := by
        by_contra hz
        exact h ⟨by rw [hmanual]; rfl, hz, hbreak⟩
      obtain ⟨rest, rfl⟩ := List.head?_eq_some_iff.1 hz
      have hletter : letterEscape 'z' = none := rfl
      simp only [manualEscape, hletter, hbreak, if_true] at hmanual
      obtain ⟨rfl, rfl⟩ := Prod.mk.inj (Option.some.inj hmanual)
      have htake : rest.take (rest.takeWhile isSpace).length = rest.takeWhile isSpace :=
        (List.prefix_iff_eq_take.1 (List.takeWhile_prefix isSpace)).symm
      refine ⟨rfl, ?_, by omega, ?_, by simp⟩
      · rw [Nat.add_comm, List.take_succ_cons, htake]
        intro hmem
        rcases List.mem_cons.1 hmem with hmem | hmem
        · exact absurd hmem (by decide)
        · exact absurd (List.mem_takeWhile_imp hmem) (by decide)
      · have hle := (List.takeWhile_prefix (l := rest) isSpace).length_le
        rw [List.length_cons]
        omega

/-- **A string that the manual knows has no numeric escape out of range, and the decoder's text is
longer, unless all escapes are ordinary.** -/
theorem length_manualQuoted (n : ℕ) :
    ∀ (cs : List Char) (value : List UInt8), cs.length ≤ n → manualQuoted 0 cs = some value →
      ∃ bytes, decodeFragment lexer 0 cs = some bytes ∧ value.length ≤ bytes.length ∧
        ((∃ e ∈ escapesOf 0 cs, ¬ Ordinary e) → value.length < bytes.length) := by
  induction n with
  | zero =>
      intro cs value hlen hmanual
      obtain rfl := List.length_eq_zero_iff.1 (Nat.le_zero.1 hlen)
      obtain rfl := Option.some.inj hmanual
      exact ⟨[], rfl, Nat.le_refl 0, by rintro ⟨e, he, -⟩; exact nomatch he⟩
  | succ n ih =>
      intro cs value hlen hmanual
      cases cs with
      | nil =>
          obtain rfl := Option.some.inj hmanual
          exact ⟨[], rfl, Nat.le_refl 0, by rintro ⟨e, he, -⟩; exact nomatch he⟩
      | cons c cs =>
          rw [List.length_cons] at hlen
          by_cases hc : c = '\\'
          · subst hc
            simp only [manualQuoted, if_true] at hmanual
            obtain ⟨⟨first, length⟩, hfirst, hmanual⟩ := Option.bind_eq_some_iff.1 hmanual
            dsimp only at hmanual
            obtain ⟨rest, hrest, rfl⟩ := Option.map_eq_some_iff.1 hmanual
            rw [manualQuoted_skip] at hrest
            have hdrop : (cs.drop length).length ≤ n := by
              rw [List.length_drop]
              omega
            obtain ⟨bytes, hbytes, hle, hlt⟩ := ih _ rest hdrop hrest
            by_cases hord : Ordinary cs
            · obtain ⟨token, length', first', htoken, hdecode, hvalue⟩ := hord.token
              rw [hfirst] at hvalue
              obtain ⟨rfl, rfl⟩ := Prod.mk.inj (Option.some.inj hvalue)
              refine ⟨first ++ bytes, ?_, ?_, ?_⟩
              · rw [decodeFragment_token htoken, hdecode, Option.bind_some, hbytes]
                rfl
              · rw [List.length_append, List.length_append]
                omega
              · rw [escapesOf_token htoken, List.exists_mem_cons_iff, List.length_append,
                  List.length_append]
                rintro (hnot | hnot)
                · exact absurd hord hnot
                · have := hlt hnot
                  omega
            · -- the text of the escape is copied, with its backslash
              obtain ⟨htoken, hfree, hpos, hin, hshort⟩ := noToken_of_not_ordinary hfirst hord
              obtain ⟨hrun, -⟩ := decodeFragment_run hfree (cs.drop length)
              rw [List.take_append_drop, hbytes] at hrun
              refine ⟨_, by rw [decodeFragment_noToken htoken, hrun]; rfl, ?_⟩
              have hslash : (String.utf8EncodeChar '\\').length = 1 := by decide
              have hcopied : 1 ≤ (utf8Bytes (cs.take length)).length := by
                have htake := length_le_byteLen (cs.take length)
                rw [List.length_take] at htake
                rw [length_utf8Bytes]
                omega
              simp only [List.length_append, hslash]
              exact ⟨by omega, fun _ => by omega⟩
          · simp only [manualQuoted, if_neg hc, Option.ite_none_left_eq_some] at hmanual
            obtain ⟨rest, hrest, rfl⟩ := Option.map_eq_some_iff.1 hmanual.2
            obtain ⟨bytes, hbytes, hle, hlt⟩ := ih cs rest (by omega) hrest
            refine ⟨_, by rw [decodeFragment_raw hc, hbytes]; rfl, ?_, ?_⟩
            · simp only [List.length_append]
              omega
            · rw [escapesOf_raw hc]
              intro hnot
              have := hlt hnot
              simp only [List.length_append]
              omega

/-- Some numeric escape is out of range, or all escapes are letters, `\x`, `\ddd` and `\u`, and no
line break is without a backslash. -/
def QuotedFits (body : List Char) : Prop :=
  (∃ e ∈ escapesOf 0 body, OutOfRange e) ∨
    (∀ e ∈ escapesOf 0 body, Ordinary e) ∧ ∀ c ∈ rawOf 0 body, isBreak c = false

theorem parseString_quoted (q : Char) (body : List Char) :
    parseString lexer (q :: (body ++ [q])) = decodeFragment lexer 0 body := by
  rw [parseString, List.drop_succ_cons, List.drop_zero, List.dropLast_concat]

theorem quoted_iff (q : Char) (body : List Char) :
    parseString lexer (q :: (body ++ [q])) = manualQuoted 0 body ↔ QuotedFits body := by
  rw [parseString_quoted]
  have hknown := @length_manualQuoted lexer body.length body
  constructor
  · intro heq
    refine or_iff_not_imp_left.2 fun hrange => ?_
    cases hmanual : manualQuoted 0 body with
    | none =>
        rw [hmanual] at heq
        exact absurd ((decodeFragment_eq_none_iff body 0).1 heq) hrange
    | some value =>
        obtain ⟨bytes, hbytes, -, hlt⟩ := hknown value (Nat.le_refl _) hmanual
        rw [heq, hmanual] at hbytes
        obtain rfl := Option.some.inj hbytes
        have hall : ∀ e ∈ escapesOf 0 body, Ordinary e := by
          intro e he
          by_contra hord
          exact Nat.lt_irrefl _ (hlt ⟨e, he, hord⟩)
        refine ⟨hall, fun c hc => ?_⟩
        by_contra hbreak
        rw [@manualQuoted_ordinary lexer body 0 hall, if_pos (List.any_eq_true.2
          ⟨c, hc, by simpa using hbreak⟩)] at hmanual
        exact nomatch hmanual
  · rintro (hrange | ⟨hall, hraw⟩)
    · have hnone := (@decodeFragment_eq_none_iff lexer body 0).2 hrange
      rw [hnone]
      cases hmanual : manualQuoted 0 body with
      | none => rfl
      | some value =>
          obtain ⟨bytes, hbytes, -⟩ := hknown value (Nat.le_refl _) hmanual
          rw [hnone] at hbytes
          exact nomatch hbytes
    · rw [manualQuoted_ordinary body 0 hall, if_neg]
      simpa using hraw

/-! ### Long strings -/

/-- There is no line break at the front, and no backslash begins a token. -/
def VerbatimFits (body : List Char) : Prop :=
  lineBreak? body = none ∧ ∀ e ∈ escapesOf 0 body, nextToken e = none

theorem stripLevel_eq (level : ℕ) (s : List Char) :
    ∀ suffix, stripLevel suffix (List.replicate level '=' ++ '[' :: s) =
      (suffix + level, '[' :: s) := by
  induction level with
  | zero =>
      intro suffix
      rfl
  | succ level ih =>
      intro suffix
      rw [List.replicate_succ, List.cons_append, stripLevel, ih, Nat.add_right_comm, Nat.add_assoc]

theorem parseLongString_bracket (level : ℕ) (body : List Char) :
    parseLongString lexer (longBracket '[' level ++ (body ++ longBracket ']' level)) =
      decodeFragment lexer 0 body := by
  have hinner : ((longBracket '[' level ++ (body ++ longBracket ']' level)).drop 1).dropLast =
      List.replicate level '=' ++ '[' :: (body ++ ']' :: List.replicate level '=') := by
    have hsplit : longBracket '[' level ++ (body ++ longBracket ']' level) =
        '[' :: (List.replicate level '=' ++ '[' :: (body ++ ']' :: List.replicate level '=')) ++
          [']'] := by
      simp [longBracket]
    rw [hsplit, List.cons_append, List.drop_succ_cons, List.drop_zero, List.dropLast_concat]
  have hbody : (('[' :: (body ++ ']' :: List.replicate level '=')).take
      (('[' :: (body ++ ']' :: List.replicate level '=')).length - (1 + level))).drop 1 = body := by
    have hlen : ('[' :: (body ++ ']' :: List.replicate level '=')).length - (1 + level) =
        body.length + 1 := by
      simp only [List.length_cons, List.length_append, List.length_replicate]
      omega
    rw [hlen, List.take_succ_cons, List.take_left, List.drop_succ_cons, List.drop_zero]
  rw [parseLongString, hinner, stripLevel_eq]
  exact congrArg (decodeFragment lexer 0) hbody

theorem decodeFragment_verbatim (cs : List Char) :
    (∀ e ∈ escapesOf 0 cs, nextToken e = none) →
      decodeFragment lexer 0 cs = some (utf8Bytes cs) := by
  induction cs with
  | nil =>
      intro _
      rfl
  | cons c cs ih =>
      intro hall
      by_cases hc : c = '\\'
      · subst hc
        have htoken : nextToken cs = none := hall cs (by simp [escapesOf])
        rw [escapesOf_noToken htoken] at hall
        rw [decodeFragment_noToken htoken, ih fun e he => hall e (List.mem_cons_of_mem _ he)]
        rfl
      · rw [escapesOf_raw hc] at hall
        rw [decodeFragment_raw hc, ih hall]
        rfl

theorem digitOf_lt {c : Char} (h : isHexDigit c = true) : digitOf c < 16 := by
  have hval : ∀ d : Char, d.val.toNat = d.toNat := fun _ => rfl
  have h0 : ('0' : Char).toNat = 48 := rfl
  have h9 : ('9' : Char).toNat = 57 := rfl
  have hA : ('A' : Char).toNat = 65 := rfl
  have hF : ('F' : Char).toNat = 70 := rfl
  have ha : ('a' : Char).toNat = 97 := rfl
  have hf : ('f' : Char).toNat = 102 := rfl
  simp only [isHexDigit, isDecDigit, Bool.or_eq_true, Bool.and_eq_true, decide_eq_true_eq,
    Char.le_def, UInt32.le_iff_toNat_le, hval, h0, h9, hA, hF, ha, hf] at h
  simp only [digitOf, Char.le_def, UInt32.le_iff_toNat_le, hval, h9, hF]
  split
  · omega
  · split <;> omega

/-- Two digits are a byte. -/
theorem digitsValue_short {digits : List Char} (hhex : ∀ c ∈ digits, isHexDigit c = true)
    (hlen : digits.length ≤ 2) : digitsValue 16 digits < 256 := by
  match digits, hhex, hlen with
  | [], _, _ => exact (by decide : (0 : ℕ) < 256)
  | [d], hhex, _ =>
      have hd := digitOf_lt (hhex d (by simp))
      simp only [digitsValue, List.foldl_cons, List.foldl_nil]
      omega
  | [d₁, d₂], hhex, _ =>
      have h₁ := digitOf_lt (hhex d₁ (by simp))
      have h₂ := digitOf_lt (hhex d₂ (by simp))
      simp only [digitsValue, List.foldl_cons, List.foldl_nil]
      omega
  | _ :: _ :: _ :: _, _, hlen =>
      simp only [List.length_cons] at hlen
      omega

/-- A token stands for no more bytes than it has characters behind the backslash. -/
theorem nextToken_spec {cs : List Char} {token : StringToken} {length : ℕ} {bytes : List UInt8}
    (h : nextToken cs = some (token, length)) (hdecode : token.decode = some bytes) :
    bytes.length ≤ length ∧ length ≤ cs.length := by
  obtain ⟨text, hmatch, hpre, rfl⟩ := matches_of_nextToken h
  refine ⟨?_, hpre.length_le⟩
  cases hmatch with
  | simple hbyte =>
      obtain rfl := Option.some.inj hdecode
      exact Nat.le_refl 1
  | hex hlen hdigits =>
      obtain rfl := Option.some.inj hdecode
      simp
  | decimal hne hlen hdigits =>
      simp only [StringToken.decode] at hdecode
      split at hdecode
      · obtain rfl := Option.some.inj hdecode
        exact List.length_pos_of_ne_nil hne
      · exact nomatch hdecode
  | @unicode digits hne hdigits =>
      have hpos := List.length_pos_of_ne_nil hne
      have htext : ('u' :: '{' :: (digits ++ ['}'])).length = digits.length + 3 := by simp
      simp only [StringToken.decode] at hdecode
      split at hdecode
      · exact nomatch hdecode
      · split at hdecode
        · exact nomatch hdecode
        · obtain rfl := Option.some.inj hdecode
          rw [utf8Encode_eq (by omega), htext]
          -- five or six bytes stand for more than two digits can say
          rcases length_manualUtf8 (digitsValue 16 digits) with hlen | ⟨hlen, hlarge⟩
          · omega
          · by_contra hshort
            exact absurd (digitsValue_short hdigits (by omega)) (by omega)

/-- The decoder's text is not longer than the literal, and shorter if there is a token. -/
theorem length_decodeFragment (n : ℕ) :
    ∀ (cs : List Char) (bytes : List UInt8), cs.length ≤ n →
      decodeFragment lexer 0 cs = some bytes → bytes.length ≤ (utf8Bytes cs).length ∧
        ((∃ e ∈ escapesOf 0 cs, nextToken e ≠ none) → bytes.length < (utf8Bytes cs).length) := by
  induction n with
  | zero =>
      intro cs bytes hlen hdecode
      obtain rfl := List.length_eq_zero_iff.1 (Nat.le_zero.1 hlen)
      obtain rfl := Option.some.inj hdecode
      exact ⟨Nat.le_refl 0, by rintro ⟨e, he, -⟩; exact nomatch he⟩
  | succ n ih =>
      intro cs bytes hlen hdecode
      cases cs with
      | nil =>
          obtain rfl := Option.some.inj hdecode
          exact ⟨Nat.le_refl 0, by rintro ⟨e, he, -⟩; exact nomatch he⟩
      | cons c cs =>
          rw [List.length_cons] at hlen
          rw [utf8Bytes_cons, List.length_append]
          by_cases hc : c = '\\'
          · subst hc
            have hslash : (String.utf8EncodeChar '\\').length = 1 := by decide
            cases htoken : nextToken cs with
            | some t =>
                obtain ⟨token, length⟩ := t
                rw [decodeFragment_token htoken] at hdecode
                obtain ⟨first, hfirst, hdecode⟩ := Option.bind_eq_some_iff.1 hdecode
                obtain ⟨rest, hrest, rfl⟩ := Option.map_eq_some_iff.1 hdecode
                obtain ⟨hshort, hin⟩ := nextToken_spec htoken hfirst
                obtain ⟨hle, -⟩ := ih (cs.drop length) rest (by rw [List.length_drop]; omega) hrest
                have hsplit := congrArg (fun s => (utf8Bytes s).length)
                  (List.take_append_drop length cs)
                have htake := length_le_byteLen (cs.take length)
                rw [List.length_take, ← length_utf8Bytes] at htake
                simp only [utf8Bytes_append, List.length_append] at hsplit ⊢
                exact ⟨by omega, fun _ => by omega⟩
            | none =>
                rw [decodeFragment_noToken htoken] at hdecode
                obtain ⟨rest, hrest, rfl⟩ := Option.map_eq_some_iff.1 hdecode
                obtain ⟨hle, hlt⟩ := ih cs rest (by omega) hrest
                rw [escapesOf_noToken htoken, List.exists_mem_cons_iff, List.length_append]
                refine ⟨by omega, ?_⟩
                rintro (hne | hmore)
                · exact absurd htoken hne
                · have := hlt hmore
                  omega
          · rw [decodeFragment_raw hc] at hdecode
            obtain ⟨rest, hrest, rfl⟩ := Option.map_eq_some_iff.1 hdecode
            obtain ⟨hle, hlt⟩ := ih cs rest (by omega) hrest
            rw [escapesOf_raw hc, List.length_append]
            refine ⟨by omega, fun hmore => ?_⟩
            have := hlt hmore
            omega

/-- Text in front is never the only thing that the decoder leaves in addition. -/
theorem decodeFragment_ne_tail {w : List Char} (hne : w ≠ []) (hfree : '\\' ∉ w)
    (hascii : ∀ c ∈ w, c.toNat < 128) (n : ℕ) :
    ∀ (cs : List Char) (bytes : List UInt8), cs.length ≤ n →
      decodeFragment lexer 0 cs = some bytes → utf8Bytes w ++ bytes ≠ utf8Bytes cs := by
  induction n with
  | zero =>
      intro cs bytes hlen _ heq
      obtain rfl := List.length_eq_zero_iff.1 (Nat.le_zero.1 hlen)
      have hbytes := length_le_byteLen w
      have hpos := List.length_pos_of_ne_nil hne
      have hlen := congrArg List.length heq
      rw [List.length_append, length_utf8Bytes, utf8Bytes_nil, List.length_nil] at hlen
      omega
  | succ n ih =>
      intro cs bytes hlen hdecode heq
      obtain ⟨cs', rfl, hcs'⟩ := utf8Bytes_eq_append hascii heq.symm
      obtain ⟨hrun, -⟩ := decodeFragment_run hfree cs'
      rw [hrun] at hdecode
      obtain ⟨bytes', hbytes', rfl⟩ := Option.map_eq_some_iff.1 hdecode
      have hpos := List.length_pos_of_ne_nil hne
      rw [List.length_append] at hlen
      exact ih cs' bytes' (by omega) hbytes' hcs'.symm

theorem verbatim_iff (level : ℕ) (body : List Char) :
    parseLongString lexer (longBracket '[' level ++ (body ++ longBracket ']' level)) =
      some (manualLong body) ↔ VerbatimFits body := by
  rw [parseLongString_bracket, manualLong]
  cases hbreak : lineBreak? body with
  | none =>
      rw [Option.getD_none, List.drop_zero, VerbatimFits, hbreak]
      constructor
      · intro hdecode
        obtain ⟨-, hlt⟩ := length_decodeFragment body.length body _ (Nat.le_refl _) hdecode
        refine ⟨rfl, fun e he => ?_⟩
        by_contra hne
        exact Nat.lt_irrefl _ (hlt ⟨e, he, hne⟩)
      · rintro ⟨-, hall⟩
        exact decodeFragment_verbatim body hall
  | some length =>
      obtain ⟨-, -, hfree, hascii, hpos, hin⟩ := lineBreak?_spec hbreak
      rw [Option.getD_some, VerbatimFits, hbreak]
      refine iff_of_false ?_ (fun h => nomatch h.1)
      intro hdecode
      have hne : body.take length ≠ [] := by
        intro hnil
        have hlen := congrArg List.length hnil
        rw [List.length_take, List.length_nil] at hlen
        omega
      obtain ⟨hrun, -⟩ := decodeFragment_run hfree (body.drop length)
      rw [List.take_append_drop, hdecode] at hrun
      obtain ⟨rest, hrest, heq⟩ := Option.map_eq_some_iff.1 hrun.symm
      exact decodeFragment_ne_tail hne hfree hascii _ _ rest (Nat.le_refl _) hrest heq

/-- **A quoted literal has the value that it stands for iff its escapes are letters and numbers and
its line breaks are escaped, or it is an error in both because of a number; a long literal iff it
has no line break at its front and nothing that looks like an escape.** -/
theorem string_literal_iff (q : Char) (level : ℕ) (body : List Char) :
    (parseString lexer (q :: (body ++ [q])) = manualQuoted 0 body ↔ QuotedFits body) ∧
      (parseLongString lexer (longBracket '[' level ++ (body ++ longBracket ']' level)) =
        some (manualLong body) ↔ VerbatimFits body) :=
  ⟨quoted_iff q body, verbatim_iff level body⟩

/-- In a long string a backslash and an `n` become a line feed, and in a quoted one an escape that
does not exist and a line break are copied. -/
theorem string_literals_differ :
    parseLongString StringLexer.exact "[[\\n]]".toList ≠ some (manualLong "\\n".toList) ∧
      parseString StringLexer.exact "\"\\q\"".toList ≠ manualQuoted 0 "\\q".toList ∧
      parseString StringLexer.exact "\"\n\"".toList ≠ manualQuoted 0 "\n".toList := by
  have hlong : parseLongString StringLexer.exact "[[\\n]]".toList = some [0x0A] := rfl
  have hverbatim : manualLong "\\n".toList = [0x5C, 0x6E] := rfl
  have hquoted : parseString StringLexer.exact "\"\\q\"".toList = some [0x5C, 0x71] := rfl
  have herror : manualQuoted 0 "\\q".toList = none := rfl
  have hbreak : parseString StringLexer.exact "\"\n\"".toList = some [0x0A] := rfl
  have hraw : manualQuoted 0 "\n".toList = none := rfl
  rw [hlong, hverbatim, hquoted, herror, hbreak, hraw]
  exact ⟨by decide, by decide, by decide⟩

end Tcvm
