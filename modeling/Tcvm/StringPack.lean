/-
# `string.pack` and `string.unpack`

The two functions walk the same format, one option at a time: `getOption` reads an option and the
numeral attached to it, `getDetails` finds the padding in front of it, and then a value is written
behind the bytes so far or read at the current position.  A format is given by what is left of it,
and the values on the stack have the format itself below them.

What a string or a float denotes, and how a float is narrowed, is a parameter (`NumberRules`).

## Main definitions

* `KOption`, `Header`, `getOption`, `getDetails` — the options of a format;
* `packIntBytes`, `unpackInt` — an integer of any width;
* `packOption`, `packLoop`, `luaPack` — packing;
* `unpackOption`, `unpackLoop`, `luaUnpack` — unpacking.

## Main results

* `getOption_ok` — an option consumes the format and has a size of its kind;
* `getDetails_ok`, `getDetails_name` — **both functions read the same options**.
-/

import Tcvm.ByteOrder
import Tcvm.LuaValue

namespace Tcvm

/-! ### Arguments -/

/-- `type_name`. -/
def Value.typeName : Value → String
  | nil => "nil"
  | boolean _ => "boolean"
  | integer _ => "number"
  | float _ => "number"
  | string _ => "string"
  | table _ => "table"
  | function _ => "function"
  | thread _ => "thread"
  | userdata _ => "userdata"

/-- What ends a call without results. -/
inductive PackError
  | message (text : String)
  | badArg (n : ℕ) (fname msg : String)
  /-- The buffer would be longer than `isize::MAX`, which panics. -/
  | capacity
  /-- The loop ran out of steps. -/
  | steps
  deriving DecidableEq

namespace PackError

/-- The text of an error, as Lua sees it. -/
def text : PackError → Option String
  | message text => some text
  | badArg n fname msg =>
      some ("bad argument #" ++ toString n ++ " to '" ++ fname ++ "' (" ++ msg ++ ")")
  | _ => none

end PackError

/-- Texts as numbers, numbers as texts, and the two formats of floats. -/
structure NumberRules where
  /-- `push_float`. -/
  floatText : UInt64 → LuaString
  /-- `str_to_number`. -/
  strToNumber : LuaString → Option Value
  /-- `i as f64`. -/
  ofInteger : Int64 → UInt64
  /-- `x as f32`. -/
  demote : UInt64 → UInt32
  /-- `x as f64`. -/
  promote : UInt32 → UInt64

/-- `float_to_integer`: a float that is an integer in the range of `i64`. -/
def floatToInteger (f : UInt64) : Option Int64 :=
  match f64ToNat? (UInt64.ofNat (f.toNat % 2 ^ 63)) with
  | some n =>
      if 2 ^ 63 ≤ f.toNat then
        if n ≤ 2 ^ 63 then some (Int64.ofInt (-n)) else none
      else if n < 2 ^ 63 then some (Int64.ofNat n) else none
  | none => none

namespace NumberRules

variable (N : NumberRules)

/-- `to_integer`. -/
def toInteger : Value → Option Int64
  | Value.integer i => some i
  | Value.float f => floatToInteger f
  | Value.string s =>
      match N.strToNumber s with
      | some (Value.integer i) => some i
      | some (Value.float f) => floatToInteger f
      | _ => none
  | _ => none

/-- `to_number`. -/
def toNumber : Value → Option UInt64
  | Value.integer i => some (N.ofInteger i)
  | Value.float f => some f
  | Value.string s =>
      match N.strToNumber s with
      | some (Value.integer i) => some (N.ofInteger i)
      | some (Value.float f) => some f
      | _ => none
  | _ => none

/-- The text of a string or a number. -/
def toText : Value → Option LuaString
  | Value.string s => some s
  | Value.integer i => some (bytes (toString i.toInt))
  | Value.float f => some (N.floatText f)
  | _ => none

def checkInteger (v : Value) (fname : String) (n : ℕ) : Except PackError Int64 :=
  match N.toInteger v, v with
  | some i, _ => Except.ok i
  | none, Value.float _ =>
      Except.error (PackError.badArg n fname "number has no integer representation")
  | none, v => Except.error (PackError.badArg n fname ("number expected, got " ++ v.typeName))

def checkNumber (v : Value) (fname : String) (n : ℕ) : Except PackError UInt64 :=
  match N.toNumber v with
  | some x => Except.ok x
  | none => Except.error (PackError.badArg n fname ("number expected, got " ++ v.typeName))

def checkStr (v : Value) (fname : String) (n : ℕ) : Except PackError LuaString :=
  match N.toText v with
  | some s => Except.ok s
  | none => Except.error (PackError.badArg n fname ("string expected, got " ++ v.typeName))

end NumberRules

/-! ### Options -/

/-- Width of an integer, from which on there is no overflow. -/
def SZINT : ℕ := 8

/-- The widest sized option. -/
def MAXINTSIZE : ℕ := 16

/-- `i64::MAX`, and the longest buffer. -/
def MAXSIZE : ℕ := 2 ^ 63 - 1

inductive KOption
  | int (signed : Bool)
  | float
  /-- A string with its length in front, of `size` bytes. -/
  | str
  /-- A string of `size` bytes. -/
  | char
  /-- A string with a zero behind it. -/
  | zstr
  | padding
  /-- The alignment of the next option. -/
  | paddAlign
  | nop
  deriving DecidableEq

/-- The byte order and the maximal alignment. -/
structure Header where
  little : Bool
  maxalign : ℕ
  deriving DecidableEq

/-- Byte order of the host, and its alignment. -/
def NATIVE_LITTLE : Bool := true

def NATIVE_ALIGN : ℕ := 8

/-- The header a walk starts with. -/
def Header.start : Header := { little := NATIVE_LITTLE, maxalign := 1 }

def isDigit (c : UInt8) : Bool := 48 ≤ c && c ≤ 57

/-- The digits of a numeral; those after the cap are left for the next option. -/
def getDigits (a : ℕ) : List UInt8 → ℕ × List UInt8
  | [] => (a, [])
  | c :: cs =>
      if isDigit c && a ≤ (MAXSIZE - 9) / 10 then getDigits (a * 10 + (c - 48).toNat) cs
      else (a, c :: cs)

/-- `get_num`. -/
def getNum (fmt : List UInt8) (df : ℕ) : ℕ × List UInt8 :=
  match fmt with
  | [] => (df, [])
  | c :: cs => if isDigit c then getDigits 0 (c :: cs) else (df, c :: cs)

/-- `get_num_limit`: the error shows the numeral as a C `int`. -/
def getNumLimit (fmt : List UInt8) (df : ℕ) : Except PackError (ℕ × List UInt8) :=
  let (sz, rest) := getNum fmt df
  if 1 ≤ sz ∧ sz ≤ MAXINTSIZE then Except.ok (sz, rest)
  else
    Except.error (PackError.message ("integral size (" ++
      toString (UInt32.ofNat sz).toInt32.toInt ++ ") out of limits [1,16]"))

/-- `get_option`: the option of a character, its size, the header after it and the rest. -/
def getOption (h : Header) (opt : UInt8) (rest : List UInt8) :
    Except PackError (KOption × ℕ × Header × List UInt8) :=
  let sized := fun (o : KOption) (df : ℕ) =>
    (getNumLimit rest df).map fun (sz, rest) => (o, sz, h, rest)
  match Char.ofNat opt.toNat with
  | 'b' => Except.ok (KOption.int true, 1, h, rest)
  | 'B' => Except.ok (KOption.int false, 1, h, rest)
  | 'h' => Except.ok (KOption.int true, 2, h, rest)
  | 'H' => Except.ok (KOption.int false, 2, h, rest)
  | 'i' => sized (KOption.int true) 4
  | 'I' => sized (KOption.int false) 4
  | 'l' => Except.ok (KOption.int true, 8, h, rest)
  | 'j' => Except.ok (KOption.int true, 8, h, rest)
  | 'L' => Except.ok (KOption.int false, 8, h, rest)
  | 'J' => Except.ok (KOption.int false, 8, h, rest)
  | 'T' => Except.ok (KOption.int false, 8, h, rest)
  | 'f' => Except.ok (KOption.float, 4, h, rest)
  | 'd' => Except.ok (KOption.float, 8, h, rest)
  | 'n' => Except.ok (KOption.float, 8, h, rest)
  | 'c' =>
      match rest with
      | c :: _ =>
          if isDigit c then
            let (sz, rest) := getNum rest 0
            Except.ok (KOption.char, sz, h, rest)
          else Except.error (PackError.message "missing size for format option 'c'")
      | [] => Except.error (PackError.message "missing size for format option 'c'")
  | 's' => sized KOption.str SZINT
  | 'z' => Except.ok (KOption.zstr, 0, h, rest)
  | 'x' => Except.ok (KOption.padding, 1, h, rest)
  | 'X' => Except.ok (KOption.paddAlign, 0, h, rest)
  | ' ' => Except.ok (KOption.nop, 0, h, rest)
  | '<' => Except.ok (KOption.nop, 0, { h with little := true }, rest)
  | '>' => Except.ok (KOption.nop, 0, { h with little := false }, rest)
  | '=' => Except.ok (KOption.nop, 0, { h with little := NATIVE_LITTLE }, rest)
  | '!' =>
      (getNumLimit rest NATIVE_ALIGN).map fun (sz, rest) =>
        (KOption.nop, 0, { h with maxalign := sz }, rest)
  | other =>
      Except.error (PackError.message ("invalid format option '" ++ String.singleton other ++ "'"))

/-- The padding in front of an option that asks for an alignment, at a position. -/
def alignPadding (h : Header) (opt : KOption) (align totalsize : ℕ) (fname : String) :
    Except PackError ℕ :=
  if align ≤ 1 ∨ opt = KOption.char then Except.ok 0
  else
    let align := min align h.maxalign
    if align &&& (align - 1) ≠ 0 then
      Except.error (PackError.badArg 1 fname "format asks for alignment not power of 2")
    else Except.ok ((align - (totalsize &&& (align - 1))) &&& (align - 1))

/-- The alignment an option asks for.  `X` takes that of the option after it, and consumes it. -/
def getAlign (h : Header) (opt : KOption) (size : ℕ) (rest : List UInt8) (fname : String) :
    Except PackError (ℕ × Header × List UInt8) :=
  if opt = KOption.paddAlign then
    match rest with
    | [] => Except.error (PackError.badArg 1 fname "invalid next option for option 'X'")
    | c :: rest => do
        let (nextOpt, nextSize, h, rest) ← getOption h c rest
        if nextOpt = KOption.char ∨ nextSize = 0 then
          Except.error (PackError.badArg 1 fname "invalid next option for option 'X'")
        else Except.ok (nextSize, h, rest)
  else Except.ok (size, h, rest)

/-- `get_details`: the next option, its size, the padding in front of it, the header and the
rest. -/
def getDetails (h : Header) (totalsize : ℕ) (c : UInt8) (rest : List UInt8) (fname : String) :
    Except PackError (KOption × ℕ × ℕ × Header × List UInt8) := do
  let (opt, size, h, rest) ← getOption h c rest
  let (align, h, rest) ← getAlign h opt size rest fname
  let ntoalign ← alignPadding h opt align totalsize fname
  Except.ok (opt, size, ntoalign, h, rest)

/-! ### Integers -/

/-- `pack_int_bytes`: the bytes behind a word are `0xff` below a negative number. -/
def packIntBytes (n : UInt64) (little : Bool) (size : ℕ) (neg : Bool) : List UInt8 :=
  let low := littleBytes size n
  inOrder little
    (if neg && SZINT < size then low.take SZINT ++ List.replicate (size - SZINT) 0xff else low)

/-- `unpack_int`: the bytes that are not read must agree with the sign. -/
def unpackInt (bs : List UInt8) (little : Bool) (size : ℕ) (signed : Bool) :
    Except PackError Int64 :=
  let limit := min size SZINT
  let res := joinBytes ((List.range limit).map (byteAt bs little size))
  if size < SZINT then
    let res := if signed then signExtend res (1 <<< UInt64.ofNat (size * 8 - 1)) else res
    Except.ok res.toInt64
  else
    let fill : UInt8 := if !signed || 0 ≤ res.toInt64 then 0 else 0xff
    if (List.range size).all fun i => i < limit || byteAt bs little size i == fill then
      Except.ok res.toInt64
    else
      Except.error (PackError.message
        (toString size ++ "-byte integer does not fit into Lua Integer"))

/-! ### Packing -/

/-- The value at a place of the stack. -/
def stackGet (stack : List Value) (i : ℕ) : Value := stack.getD i Value.nil

/-- Put bytes behind the buffer. -/
def extend (out more : List UInt8) : Except PackError (List UInt8) :=
  if out.length + more.length ≤ MAXSIZE then Except.ok (out ++ more)
  else Except.error PackError.capacity

/-- The bytes of a float. -/
def floatBytes (N : NumberRules) (x : UInt64) (little : Bool) (size : ℕ) : List UInt8 :=
  if size = 4 then inOrder little (littleBytes 4 (N.demote x).toUInt64)
  else inOrder little (littleBytes 8 x)

/-- An option with its value, the argument `arg`. -/
def packOption (N : NumberRules) (little : Bool) (opt : KOption) (size : ℕ) (v : Value) (arg : ℕ)
    (out : List UInt8) : Except PackError (List UInt8) :=
  match opt with
  | KOption.int signed => do
      let n ← N.checkInteger v "pack" arg
      if signed then
        if size < SZINT ∧ ¬(-2 ^ (size * 8 - 1) ≤ n.toInt ∧ n.toInt < 2 ^ (size * 8 - 1)) then
          Except.error (PackError.badArg arg "pack" "integer overflow")
        else extend out (packIntBytes n.toUInt64 little size (n < 0))
      else
        if size < SZINT ∧ 2 ^ (size * 8) ≤ n.toUInt64.toNat then
          Except.error (PackError.badArg arg "pack" "unsigned overflow")
        else extend out (packIntBytes n.toUInt64 little size false)
  | KOption.float => do
      let x ← N.checkNumber v "pack" arg
      extend out (floatBytes N x little size)
  | KOption.char => do
      let s ← N.checkStr v "pack" arg
      if size < s.length then
        Except.error (PackError.badArg arg "pack" "string longer than given size")
      else
        let out ← extend out s
        if MAXSIZE < out.length + (size - s.length) then
          Except.error (PackError.message "not enough memory")
        else Except.ok (out ++ List.replicate (size - s.length) 0)
  | KOption.str => do
      let s ← N.checkStr v "pack" arg
      if size < SZINT ∧ 2 ^ (size * 8) ≤ s.length then
        Except.error (PackError.badArg arg "pack" "string length does not fit in given size")
      else
        let out ← extend out (packIntBytes (UInt64.ofNat s.length) little size false)
        extend out s
  | KOption.zstr => do
      let s ← N.checkStr v "pack" arg
      if 0 ∈ s then Except.error (PackError.badArg arg "pack" "string contains zeros")
      else
        let out ← extend out s
        extend out [0]
  | KOption.padding => extend out [0]
  | KOption.paddAlign => Except.ok out
  | KOption.nop => Except.ok out

/-- Padding, alignment and settings take no argument. -/
def KOption.takesValue : KOption → Bool
  | padding => false
  | paddAlign => false
  | nop => false
  | _ => true

/-- The loop of `lua_pack`; `arg` is the last argument that was read. -/
def packLoop (N : NumberRules) (stack : List Value) :
    ℕ → Header → List UInt8 → ℕ → List UInt8 → Except PackError (List UInt8)
  | _, _, [], _, out => Except.ok out
  | 0, _, _ :: _, _, _ => Except.error PackError.steps
  | fuel + 1, h, c :: rest, arg, out => do
      let (opt, size, ntoalign, h, rest) ← getDetails h out.length c rest "pack"
      let out ← extend out (List.replicate ntoalign 0)
      let out ← packOption N h.little opt size (stackGet stack arg) (arg + 1) out
      packLoop N stack fuel h rest (if opt.takesValue then arg + 1 else arg) out

/-- `lua_pack`: the format is the first value on the stack. -/
def luaPack (N : NumberRules) (stack : List Value) : Except PackError (List Value) := do
  let fmt ← N.checkStr (stackGet stack 0) "pack" 1
  let out ← packLoop N stack fmt.length Header.start fmt 1 []
  Except.ok [Value.string out]

/-! ### Unpacking -/

/-- `posrelat`. -/
def posrelat (pos : ℤ) (len : ℕ) : ℤ :=
  if 0 ≤ pos then pos else if (len : ℤ) < -pos then 0 else len + pos + 1

/-- An option at a position: the value it gives, if any, and the next position. -/
def unpackOption (N : NumberRules) (little : Bool) (opt : KOption) (size : ℕ) (data : List UInt8)
    (pos : ℕ) : Except PackError (List Value × ℕ) :=
  match opt with
  | KOption.int signed => do
      let n ← unpackInt (data.drop pos) little size signed
      Except.ok ([Value.integer n], pos + size)
  | KOption.float =>
      if size = 4 then
        let b := joinBytes ((List.range 4).map (byteAt (data.drop pos) little 4))
        Except.ok ([Value.float (N.promote b.toUInt32)], pos + size)
      else
        let b := joinBytes ((List.range 8).map (byteAt (data.drop pos) little 8))
        Except.ok ([Value.float b], pos + size)
  | KOption.char => Except.ok ([Value.string ((data.drop pos).take size)], pos + size)
  | KOption.str => do
      let n ← unpackInt (data.drop pos) little size false
      let len := n.toUInt64.toNat
      if data.length - pos - size < len then
        Except.error (PackError.badArg 2 "unpack" "data string too short")
      else Except.ok ([Value.string ((data.drop (pos + size)).take len)], pos + len + size)
  | KOption.zstr =>
      match (data.drop pos).findIdx? (· == 0) with
      | none => Except.error (PackError.badArg 2 "unpack" "unfinished string for format 'z'")
      | some len => Except.ok ([Value.string ((data.drop pos).take len)], pos + (len + 1) + size)
  | _ => Except.ok ([], pos + size)

/-- The loop of `lua_unpack`. -/
def unpackLoop (N : NumberRules) (data : List UInt8) :
    ℕ → Header → List UInt8 → ℕ → List Value → Except PackError (List Value)
  | _, _, [], pos, out => Except.ok (out ++ [Value.integer (Int64.ofNat (pos + 1))])
  | 0, _, _ :: _, _, _ => Except.error PackError.steps
  | fuel + 1, h, c :: rest, pos, out => do
      let (opt, size, ntoalign, h, rest) ← getDetails h pos c rest "unpack"
      if data.length - pos < ntoalign + size then
        Except.error (PackError.badArg 2 "unpack" "data string too short")
      else
        let (value, pos) ← unpackOption N h.little opt size data (pos + ntoalign)
        unpackLoop N data fuel h rest pos (out ++ value)

/-- The initial position, the start if there is none. -/
def unpackInit (N : NumberRules) : Value → Except PackError Int64
  | Value.nil => Except.ok 1
  | v => N.checkInteger v "unpack" 3

/-- `lua_unpack`: a format, the data and an initial position. -/
def luaUnpack (N : NumberRules) (stack : List Value) : Except PackError (List Value) := do
  let fmt ← N.checkStr (stackGet stack 0) "unpack" 1
  let data ← N.checkStr (stackGet stack 1) "unpack" 2
  let init ← unpackInit N (stackGet stack 2)
  let p := posrelat init.toInt data.length
  if data.length + 1 < p then
    Except.error (PackError.badArg 3 "unpack" "initial position out of string")
  else unpackLoop N data fmt.length Header.start fmt (max p 1 - 1).toNat []

/-! ### Inversion -/

namespace PackError

variable {α β : Type}

theorem bind_ok {m : Except PackError α} {f : α → Except PackError β} {b : β}
    (h : (m >>= f) = Except.ok b) : ∃ a, m = Except.ok a ∧ f a = Except.ok b := by
  cases m with
  | error e => exact absurd h (by simp [bind, Except.bind])
  | ok a => exact ⟨a, rfl, h⟩

theorem map_ok {m : Except PackError α} {f : α → β} {b : β} (h : m.map f = Except.ok b) :
    ∃ a, m = Except.ok a ∧ f a = b := by
  cases m with
  | error e => exact absurd h (by simp [Except.map])
  | ok a => exact ⟨a, rfl, Except.ok.inj h⟩

end PackError

/-! ### What an option consumes -/

theorem getDigits_length (a : ℕ) (fmt : List UInt8) :
    (getDigits a fmt).2.length ≤ fmt.length := by
  induction fmt generalizing a with
  | nil => exact le_rfl
  | cons c cs ih =>
      rw [getDigits]
      split
      · exact (ih _).trans (by simp)
      · exact le_rfl

theorem getNum_length (fmt : List UInt8) (df : ℕ) : (getNum fmt df).2.length ≤ fmt.length := by
  cases fmt with
  | nil => exact le_rfl
  | cons c cs =>
      rw [getNum]
      split
      · exact getDigits_length 0 _
      · exact le_rfl

theorem getNumLimit_ok {fmt : List UInt8} {df sz : ℕ} {rest : List UInt8}
    (h : getNumLimit fmt df = Except.ok (sz, rest)) :
    rest.length ≤ fmt.length ∧ 1 ≤ sz ∧ sz ≤ 16 := by
  have hlen := getNum_length fmt df
  rw [getNumLimit] at h
  generalize hnum : getNum fmt df = num at h hlen
  obtain ⟨sz', rest'⟩ := num
  dsimp only at h
  split at h
  case isTrue hlimit =>
    obtain ⟨rfl, rfl⟩ := Prod.mk.inj (Except.ok.inj h)
    exact ⟨hlen, hlimit⟩
  case isFalse => cases h

/-- The sizes an option of each kind can have. -/
def KOption.HasSize : KOption → ℕ → Prop
  | int _, size => 1 ≤ size ∧ size ≤ 16
  | float, size => size = 4 ∨ size = 8
  | str, size => 1 ≤ size ∧ size ≤ 16
  | char, _ => True
  | padding, size => size = 1
  | _, size => size = 0

/-- An option that takes a numeral. -/
theorem sized_ok {h h' : Header} {o opt : KOption} {df size : ℕ} {rest rest' : List UInt8}
    (hsize : ∀ sz, 1 ≤ sz → sz ≤ 16 → o.HasSize sz)
    (hopt : (getNumLimit rest df).map (fun p => (o, p.1, h, p.2)) =
      Except.ok (opt, size, h', rest')) : rest'.length ≤ rest.length ∧ opt.HasSize size := by
  obtain ⟨⟨sz, r⟩, hnum, heq⟩ := PackError.map_ok hopt
  obtain ⟨hlen, hmin, hmax⟩ := getNumLimit_ok hnum
  cases heq
  exact ⟨hlen, hsize sz hmin hmax⟩

/-- **An option consumes the format**, and has a size of its kind. -/
theorem getOption_ok {h h' : Header} {c : UInt8} {rest rest' : List UInt8} {opt : KOption}
    {size : ℕ} (hopt : getOption h c rest = Except.ok (opt, size, h', rest')) :
    rest'.length ≤ rest.length ∧ opt.HasSize size := by
  rw [getOption.eq_def] at hopt
  dsimp only at hopt
  split at hopt
  case h_15 =>
    split at hopt
    case h_1 c' cs =>
      split at hopt
      · have hlen := getNum_length (c' :: cs) 0
        cases hopt
        exact ⟨hlen, trivial⟩
      · cases hopt
    case h_2 => cases hopt
  case h_24 =>
    obtain ⟨⟨sz, r⟩, hnum, heq⟩ := PackError.map_ok hopt
    cases heq
    exact ⟨(getNumLimit_ok hnum).1, rfl⟩
  case h_5 | h_6 | h_16 =>
    refine sized_ok ?_ hopt
    intro sz hmin hmax
    exact ⟨hmin, hmax⟩
  case h_25 => cases hopt
  all_goals
    cases hopt
    simp [KOption.HasSize]

/-- The option `X` borrows from. -/
theorem getAlign_ok {h h' : Header} {opt : KOption} {size align : ℕ} {rest rest' : List UInt8}
    {fname : String} (halign : getAlign h opt size rest fname = Except.ok (align, h', rest')) :
    (opt ≠ KOption.paddAlign ∧ align = size ∧ h' = h ∧ rest' = rest) ∨
      ∃ c₁ r₁ opt₁, opt = KOption.paddAlign ∧ rest = c₁ :: r₁ ∧
        getOption h c₁ r₁ = Except.ok (opt₁, align, h', rest') := by
  rw [getAlign.eq_def] at halign
  split at halign
  case isTrue hx =>
    cases rest with
    | nil => cases halign
    | cons c₁ r₁ =>
        obtain ⟨⟨opt₁, size₁, h₃, r₃⟩, hnext, hif⟩ := PackError.bind_ok halign
        dsimp only at hif
        split at hif
        · cases hif
        · cases hif
          exact Or.inr ⟨c₁, r₁, opt₁, hx, rfl, hnext⟩
  case isFalse hx =>
    cases halign
    exact Or.inl ⟨hx, rfl, rfl, rfl⟩

/-- An option with its padding: what `getOption` says, once, or twice for `X`. -/
theorem getDetails_ok {h h' : Header} {totalsize : ℕ} {c : UInt8} {rest rest' : List UInt8}
    {fname : String} {opt : KOption} {size ntoalign : ℕ}
    (hdetails : getDetails h totalsize c rest fname = Except.ok (opt, size, ntoalign, h', rest')) :
    (opt ≠ KOption.paddAlign ∧ getOption h c rest = Except.ok (opt, size, h', rest')) ∨
      ∃ h₁ c₁ r₁ opt₁ size₁, opt = KOption.paddAlign ∧
        getOption h c rest = Except.ok (opt, size, h₁, c₁ :: r₁) ∧
        getOption h₁ c₁ r₁ = Except.ok (opt₁, size₁, h', rest') := by
  obtain ⟨⟨opt', size', h₁, r⟩, hopt, hrest⟩ := PackError.bind_ok hdetails
  obtain ⟨⟨align, h₂, r₂⟩, halign, hrest⟩ := PackError.bind_ok hrest
  obtain ⟨n, hn, heq⟩ := PackError.bind_ok hrest
  cases heq
  rcases getAlign_ok halign with ⟨hx, -, rfl, rfl⟩ | ⟨c₁, r₁, opt₁, hx, rfl, hnext⟩
  · exact Or.inl ⟨hx, hopt⟩
  · exact Or.inr ⟨h₁, c₁, r₁, opt₁, align, hx, hopt, hnext⟩

/-- **An option consumes the format**, with its padding. -/
theorem getDetails_size {h h' : Header} {totalsize : ℕ} {c : UInt8} {rest rest' : List UInt8}
    {fname : String} {opt : KOption} {size ntoalign : ℕ}
    (hdetails : getDetails h totalsize c rest fname = Except.ok (opt, size, ntoalign, h', rest')) :
    rest'.length ≤ rest.length ∧ opt.HasSize size := by
  rcases getDetails_ok hdetails with ⟨-, hopt⟩ | ⟨h₁, c₁, r₁, opt₁, size₁, -, hopt, hnext⟩
  · exact getOption_ok hopt
  · obtain ⟨hlen, hsize⟩ := getOption_ok hopt
    obtain ⟨hlen₁, -⟩ := getOption_ok hnext
    refine ⟨?_, hsize⟩
    simp at hlen
    omega

theorem alignPadding_name {h : Header} {opt : KOption} {align totalsize n : ℕ} {fname : String}
    (hn : alignPadding h opt align totalsize fname = Except.ok n) (fname' : String) :
    alignPadding h opt align totalsize fname' = Except.ok n := by
  rw [alignPadding] at hn ⊢
  split at hn
  case isTrue hle =>
    rw [if_pos hle]
    exact hn
  case isFalse hgt =>
    rw [if_neg hgt]
    dsimp only at hn ⊢
    split at hn
    · cases hn
    case isFalse hpow =>
      rw [if_neg hpow]
      exact hn

theorem getAlign_name {h : Header} {opt : KOption} {size : ℕ} {rest : List UInt8}
    {fname : String} {r : ℕ × Header × List UInt8}
    (halign : getAlign h opt size rest fname = Except.ok r) (fname' : String) :
    getAlign h opt size rest fname' = Except.ok r := by
  rw [getAlign.eq_def] at halign ⊢
  split at halign
  case isFalse hx =>
    rw [if_neg hx]
    exact halign
  case isTrue hx =>
    rw [if_pos hx]
    cases rest with
    | nil => cases halign
    | cons c₁ r₁ =>
        obtain ⟨⟨opt₁, size₁, h₃, r₃⟩, hnext, hif⟩ := PackError.bind_ok halign
        dsimp only at hif ⊢
        rw [hnext]
        split at hif
        · cases hif
        case isFalse hsize => exact (if_neg hsize).trans hif

/-- **The two functions agree on the options of a format.** -/
theorem getDetails_name {h : Header} {totalsize : ℕ} {c : UInt8} {rest : List UInt8}
    {fname : String} {d : KOption × ℕ × ℕ × Header × List UInt8}
    (hdetails : getDetails h totalsize c rest fname = Except.ok d) (fname' : String) :
    getDetails h totalsize c rest fname' = Except.ok d := by
  obtain ⟨⟨opt, size, h₁, r⟩, hopt, hrest⟩ := PackError.bind_ok hdetails
  obtain ⟨⟨align, h₂, r₂⟩, halign, hrest⟩ := PackError.bind_ok hrest
  obtain ⟨n, hn, heq⟩ := PackError.bind_ok hrest
  rw [getDetails, hopt]
  show (getAlign h₁ opt size r fname' >>= _) = _
  rw [getAlign_name halign]
  show (alignPadding h₂ opt align totalsize fname' >>= _) = _
  rw [alignPadding_name hn]
  exact heq

/-! ### The loops end with the format -/

end Tcvm
