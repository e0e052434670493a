/-
The numbers that texts stand for.

The compiler and `tonumber` convert the same spellings with different functions.  They share the one
for hexadecimal floats; beyond the range of an integer the compiler has no value, where `tonumber`
has a float, or wraps.

* `i64FromStr`, `u64FromStr`, `f64FromStr` — the conversions of the host;
* `parseInt`, `parseHexInt`, `parseFloat`, `parseHexFloat`, `literalValue` — the literals;
* `strToNumber` — the texts at run time.
-/

import Tcvm.StringLiteral
import Tcvm.Binary64

namespace Tcvm

/-! ### Conversions of the host -/

def isDigitIn (radix : ℕ) (c : Char) : Bool := if radix = 16 then isHexDigit c else isDecDigit c

/-- Digits, and at least one. -/
def parseDigits (radix : ℕ) (s : List Char) : Option ℕ :=
  if s != [] && s.all (isDigitIn radix) then some (digitsValue radix s) else none

/-- An integer between two bounds, with an optional sign. -/
def parseSigned (radix : ℕ) (least greatest : ℤ) (s : List Char) : Option ℤ :=
  let fits := fun n : ℤ => if least ≤ n ∧ n ≤ greatest then some n else none
  match s with
  | '-' :: digits => (parseDigits radix digits).bind fun n => fits (-n)
  | '+' :: digits => (parseDigits radix digits).bind fun n => fits n
  | digits => (parseDigits radix digits).bind fun n => fits n

/-- `i64::from_str_radix`. -/
def i64FromStr (radix : ℕ) (s : List Char) : Option Int64 :=
  (parseSigned radix (-2 ^ 63) (2 ^ 63 - 1) s).map Int64.ofInt

/-- `i32::from_str`. -/
def i32FromStr (s : List Char) : Option ℤ := parseSigned 10 (-2 ^ 31) (2 ^ 31 - 1) s

/-- `u64::from_str_radix`, which knows no minus. -/
def u64FromStr (radix : ℕ) (s : List Char) : Option ℕ :=
  let digits := match s with
    | '+' :: digits => digits
    | digits => digits
  (parseDigits radix digits).bind fun n => if n < 2 ^ 64 then some n else none

/-- The text in front of the first character of a kind, and the text behind it. -/
def splitFirst (p : Char → Bool) : List Char → List Char × Option (List Char)
  | [] => ([], none)
  | c :: s =>
      if p c then ([], some s)
      else ((c :: (splitFirst p s).1), (splitFirst p s).2)

def isExpMark (c : Char) : Bool := c == 'e' || c == 'E'

def isBinaryMark (c : Char) : Bool := c == 'p' || c == 'P'

/-- The double nearest to `m * 10 ^ e`. -/
def ofDecimal (negative : Bool) (m : ℕ) (e : ℤ) : UInt64 :=
  Binary64.ofRatio negative (m * 10 ^ e.toNat * Binary64.one) (10 ^ (-e).toNat)

/-- An exponent of any size. -/
def parseExponent : Option (List Char) → Option ℤ
  | none => some 0
  | some ('-' :: digits) => (parseDigits 10 digits).map fun n : ℕ => -(n : ℤ)
  | some ('+' :: digits) => (parseDigits 10 digits).map fun n : ℕ => (n : ℤ)
  | some digits => (parseDigits 10 digits).map fun n : ℕ => (n : ℤ)

/-- An unsigned decimal number. -/
def parseDecimal (negative : Bool) (s : List Char) : Option UInt64 :=
  let (mantissa, exponent) := splitFirst isExpMark s
  let (int, frac) := splitFirst (· == '.') mantissa
  let frac := frac.getD []
  if int ++ frac != [] && (int ++ frac).all isDecDigit then
    (parseExponent exponent).map fun e =>
      ofDecimal negative (digitsValue 10 (int ++ frac)) (e - frac.length)
  else none

/-- The names that are numbers to the host, in any case. -/
def parseSpecial (negative : Bool) (s : List Char) : Option UInt64 :=
  let lower := String.ofList (s.map Char.toLower)
  if lower = "inf" ∨ lower = "infinity" then some (Binary64.ofSign negative Binary64.infBits)
  else if lower = "nan" then some Binary64.nan
  else none

def f64Unsigned (negative : Bool) (s : List Char) : Option UInt64 :=
  (parseSpecial negative s).orElse fun _ => parseDecimal negative s

/-- `f64::from_str`. -/
def f64FromStr (s : List Char) : Option UInt64 :=
  match s with
  | '-' :: s => f64Unsigned true s
  | '+' :: s => f64Unsigned false s
  | s => f64Unsigned false s

/-! ### Literals -/

/-- Without `0x` or `0X`. -/
def stripHex : List Char → Option (List Char)
  | '0' :: 'x' :: s => some s
  | '0' :: 'X' :: s => some s
  | _ => none

def parseInt (s : List Char) : Option Int64 := i64FromStr 10 s

def parseHexInt (s : List Char) : Option Int64 := i64FromStr 16 ((stripHex s).getD s)

def parseFloat (s : List Char) : Option UInt64 := f64FromStr s

/-- The loop over the digits behind the point. -/
def addFraction : List Char → UInt64 → UInt64 → Option UInt64
  | [], value, _ => some value
  | c :: s, value, place =>
      if isHexDigit c then
        addFraction s
          (Binary64.add value (Binary64.mul (Binary64.ofInt (digitOf c)) place))
          (Binary64.div place (Binary64.ofInt 16))
      else none

/-- `parse_hex_float`; `powi` are the powers of two of the host. -/
def parseHexFloat (powi : ℤ → UInt64) (s : List Char) : Option UInt64 :=
  (stripHex s).bind fun s =>
    let (mantissa, exponent) := splitFirst isBinaryMark s
    let (int, frac) := splitFirst (· == '.') mantissa
    let whole := if int = [] then some 0 else u64FromStr 16 int
    whole.bind fun n =>
      (addFraction (frac.getD []) (Binary64.ofInt n)
        (Binary64.div (Binary64.ofInt 1) (Binary64.ofInt 16))).bind fun value =>
          match exponent with
          | none => some value
          | some exponent => (i32FromStr exponent).map fun e => Binary64.mul value (powi e)

/-- The tokens that are numerals. -/
inductive NumeralToken
  | int
  | hexInt
  | float
  | hexFloat
  deriving DecidableEq

/-- `Literal::value` of a numeral. -/
def literalValue (powi : ℤ → UInt64) : NumeralToken → List Char → Option Value
  | NumeralToken.int, s => (parseInt s).map Value.integer
  | NumeralToken.hexInt, s => (parseHexInt s).map Value.integer
  | NumeralToken.float, s => (parseFloat s).map Value.float
  | NumeralToken.hexFloat, s => (parseHexFloat powi s).map Value.float

/-! ### Texts at run time -/

/-- `u8::is_ascii_whitespace`: there is no vertical tab. -/
def isAsciiWhitespace (c : Char) : Bool :=
  c == ' ' || c == '\t' || c == '\n' || c == '\x0c' || c == '\r'

/-- `trim_matches`. -/
def trimMatches (p : Char → Bool) (s : List Char) : List Char :=
  ((s.dropWhile p).reverse.dropWhile p).reverse

/-- A sign in front. -/
def takeSign : List Char → Bool × List Char
  | '+' :: s => (false, s)
  | '-' :: s => (true, s)
  | s => (false, s)

def isDecimalChar (c : Char) : Bool :=
  isDecDigit c || c == '.' || c == 'e' || c == 'E' || c == '+' || c == '-'

/-- The digits of a hexadecimal integer, in arithmetic that wraps. -/
def wrapDigits (digits : List Char) : Int64 :=
  (digits.foldl (fun acc c => acc * 16 + UInt64.ofNat (digitOf c)) (0 : UInt64)).toInt64

/-- `str_to_number`, of a text that is valid UTF-8. -/
def strToNumber (powi : ℤ → UInt64) (text : List Char) : Option Value :=
  let s := trimMatches isAsciiWhitespace text
  if s = [] then none
  else
    let (neg, body) := takeSign s
    match stripHex body with
    | some hex =>
        if hex = [] then none
        else if hex.any fun c => c == '.' || c == 'p' || c == 'P' then
          (parseHexFloat powi body).map fun f => Value.float (if neg then Binary64.neg f else f)
        else if hex.all isHexDigit then
          some (Value.integer (if neg then -wrapDigits hex else wrapDigits hex))
        else none
    | none =>
        if !body.all isDecimalChar || !body.any isDecDigit then none
        else
          match i64FromStr 10 s with
          | some i => some (Value.integer i)
          | none => (f64FromStr s).map Value.float

theorem parseDigits_eq {radix : ℕ} {s : List Char} (hne : s ≠ [])
    (hall : ∀ c ∈ s, isDigitIn radix c = true) :
    parseDigits radix s = some (digitsValue radix s) := by
  rw [parseDigits, if_pos]
  simp only [Bool.and_eq_true, bne_iff_ne, ne_eq, List.all_eq_true]
  exact ⟨hne, hall⟩

/-- Without a sign, the digits are the number. -/
theorem parseSigned_unsigned (radix : ℕ) (least greatest : ℤ) {s : List Char}
    (hsign : ∀ c ∈ s.head?, c ≠ '-' ∧ c ≠ '+') :
    parseSigned radix least greatest s = (parseDigits radix s).bind fun n =>
      if least ≤ (n : ℤ) ∧ (n : ℤ) ≤ greatest then some (n : ℤ) else none := by
  unfold parseSigned
  split
  · exact absurd rfl (hsign '-' rfl).1
  · exact absurd rfl (hsign '+' rfl).2
  · rfl

example : strToNumber (fun _ => 0) " -0x10 ".toList = some (Value.integer (-16)) := by rfl

example : strToNumber (fun _ => 0) "9223372036854775808".toList =
    some (Value.float 0x43E0000000000000) := by decide +kernel

end Tcvm
