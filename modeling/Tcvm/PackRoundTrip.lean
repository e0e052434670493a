/-
# `string.unpack` after `string.pack`

Both functions walk the format in the same way: the encoder is at the end of its buffer when the
decoder is at the same position, so byte order, alignment and padding agree, and what is read there
is what was written.  A value comes back as its option reads it: a number is a number of the
option's kind, a string or a number is a text, and a fixed string is filled up with zeros.

## Main definitions

* `valueOptions` — the options of a format that take a value;
* `readAs` — the value an option makes of an argument;
* `ownValue` — what it makes of an argument of its own type.

## Main results

* `unpackInt_packIntBytes` — integers of every width and sign, in both orders;
* `packOption_unpackOption` — one option;
* `unpackLoop_packLoop` — **the loops**, by induction on the format;
* `unpack_pack` — **unpacking inverts packing**.
-/

import Tcvm.StringPack

namespace Tcvm

/-! ### Values and their options -/

/-- The options of a format that take a value, with their sizes; `X` hides the option after it. -/
def valueOptions : ℕ → Header → List UInt8 → List (KOption × ℕ)
  | fuel + 1, h, c :: rest =>
      match getOption h c rest with
      | Except.ok (KOption.paddAlign, _, h, c :: rest) =>
          match getOption h c rest with
          | Except.ok (_, _, h, rest) => valueOptions fuel h rest
          | Except.error _ => []
      | Except.ok (opt, size, h, rest) =>
          if opt.takesValue then (opt, size) :: valueOptions fuel h rest
          else valueOptions fuel h rest
      | Except.error _ => []
  | _, _, _ => []

/-- The value options of a whole format. -/
def formatOptions (fmt : List UInt8) : List (KOption × ℕ) :=
  valueOptions fmt.length Header.start fmt

/-- A string filled up with zeros. -/
def zeroPadded (s : List UInt8) (size : ℕ) : List UInt8 := s ++ List.replicate (size - s.length) 0

/-- A float in the format of an option. -/
def narrowed (N : NumberRules) (size : ℕ) (x : UInt64) : UInt64 :=
  if size = 4 then N.promote (N.demote x) else x

/-- The value an option makes of an argument. -/
def readAs (N : NumberRules) : KOption → ℕ → Value → Value
  | KOption.int _, _, v => (N.toInteger v).elim Value.nil Value.integer
  | KOption.float, size, v =>
      (N.toNumber v).elim Value.nil fun x => Value.float (narrowed N size x)
  | KOption.char, size, v => (N.toText v).elim Value.nil fun s => Value.string (zeroPadded s size)
  | _, _, v => (N.toText v).elim Value.nil Value.string

/-- What comes back of an argument of the option's own type. -/
def ownValue (N : NumberRules) : KOption → ℕ → Value → Option Value
  | KOption.int _, _, Value.integer n => some (Value.integer n)
  | KOption.float, size, Value.float x => some (Value.float (narrowed N size x))
  | KOption.char, size, Value.string s => some (Value.string (zeroPadded s size))
  | KOption.str, _, Value.string s => some (Value.string s)
  | KOption.zstr, _, Value.string s => some (Value.string s)
  | _, _, _ => none

/-- An argument of the option's own type is not changed. -/
theorem readAs_own {N : NumberRules} {opt : KOption} {size : ℕ} {v w : Value}
    (h : ownValue N opt size v = some w) : readAs N opt size v = w := by
  cases opt <;> cases v <;> cases h <;> rfl

/-- What a whole format makes of the arguments. -/
def readValues (N : NumberRules) (options : List (KOption × ℕ)) (args : List Value) : List Value :=
  List.zipWith (fun o v => readAs N o.1 o.2 v) options args

theorem valueOptions_getDetails {h h' : Header} {totalsize : ℕ} {c : UInt8}
    {rest rest' : List UInt8} {fname : String} {opt : KOption} {size ntoalign : ℕ}
    (hdetails : getDetails h totalsize c rest fname = Except.ok (opt, size, ntoalign, h', rest'))
    (fuel : ℕ) :
    valueOptions (fuel + 1) h (c :: rest) =
      (if opt.takesValue then [(opt, size)] else []) ++ valueOptions fuel h' rest' := by
  rcases getDetails_ok hdetails with ⟨hx, hopt⟩ | ⟨h₁, c₁, r₁, opt₁, size₁, rfl, hopt, hnext⟩
  · rw [valueOptions, hopt]
    cases opt with
    | paddAlign => exact absurd rfl hx
    | _ => rfl
  · rw [valueOptions, hopt]
    dsimp only
    rw [hnext]
    rfl

/-! ### Integers -/

/-- The bytes of an integer, least significant first. -/
def intBytes (n : UInt64) (size : ℕ) (neg : Bool) : List UInt8 :=
  if neg && SZINT < size then
    (littleBytes size n).take SZINT ++ List.replicate (size - SZINT) 0xff
  else littleBytes size n

theorem packIntBytes_eq (n : UInt64) (little : Bool) (size : ℕ) (neg : Bool) :
    packIntBytes n little size neg = inOrder little (intBytes n size neg) := rfl

@[simp] theorem intBytes_length (n : UInt64) (size : ℕ) (neg : Bool) :
    (intBytes n size neg).length = size := by
  rw [intBytes]
  split
  case isTrue h =>
    simp [SZINT] at h ⊢
    omega
  case isFalse => exact littleBytes_length _ _

@[simp] theorem packIntBytes_length (n : UInt64) (little : Bool) (size : ℕ) (neg : Bool) :
    (packIntBytes n little size neg).length = size := by
  rw [packIntBytes_eq, inOrder_length, intBytes_length]

/-- The eight low bytes are those of the word. -/
theorem intBytes_take (n : UInt64) (size : ℕ) (neg : Bool) :
    (intBytes n size neg).take (min size SZINT) = littleBytes (min size SZINT) n := by
  rw [intBytes]
  split
  case isTrue h =>
    have hlt : SZINT < size := by
      simp at h
      exact h.2
    rw [Nat.min_eq_right hlt.le, List.take_append_of_le_length (by simp [hlt.le]),
      List.take_take, Nat.min_self]
    exact littleBytes_take hlt.le n
  case isFalse => exact littleBytes_take (Nat.min_le_left _ _) n

/-- Above them are the bytes of the sign. -/
theorem intBytes_high {n : UInt64} {size i : ℕ} (neg : Bool) (hi : SZINT ≤ i) (hsize : i < size) :
    (intBytes n size neg).getD i 0 = if neg then 0xff else 0 := by
  have hlt : SZINT < size := by omega
  cases neg with
  | false => exact littleBytes_getD_high hsize hi n
  | true =>
      have hlen : ((littleBytes size n).take SZINT).length = SZINT := by
        rw [List.length_take, littleBytes_length]
        exact Nat.min_eq_left hlt.le
      simp only [intBytes, hlt, decide_true, Bool.and_self, if_true]
      rw [List.getD_append_right _ _ _ _ (by omega), hlen,
        List.getD_eq_getElem _ _ (by simp; omega), List.getElem_replicate]

/-- The word that is read is made of the low bytes. -/
theorem joined_packIntBytes (n : UInt64) (little : Bool) (size : ℕ) (neg : Bool)
    (more : List UInt8) :
    joinBytes ((List.range (min size SZINT)).map
      (byteAt (packIntBytes n little size neg ++ more) little size)) =
      joinBytes (littleBytes (min size SZINT) n) := by
  have hmap := map_byteAt_inOrder (intBytes n size neg) (show min size SZINT ≤ _ by simp)
    little more
  rw [intBytes_length, intBytes_take] at hmap
  rw [packIntBytes_eq, hmap]

/-- An integer that `pack` accepts for a width. -/
def IntFits (n : Int64) (size : ℕ) (signed : Bool) : Prop :=
  if signed then size < SZINT → -2 ^ (size * 8 - 1) ≤ n.toInt ∧ n.toInt < 2 ^ (size * 8 - 1)
  else size < SZINT → n.toUInt64.toNat < 2 ^ (size * 8)

/-- **Integers of every width and sign, in both orders.** -/
theorem unpackInt_packIntBytes {n : Int64} {size : ℕ} {signed : Bool} (hsize : 1 ≤ size)
    (hfits : IntFits n size signed) (little : Bool) (more : List UInt8) :
    unpackInt (packIntBytes n.toUInt64 little size (signed && n < 0) ++ more) little size signed =
      Except.ok n := by
  rw [unpackInt]
  dsimp only
  rw [joined_packIntBytes]
  by_cases hwidth : size < SZINT
  · -- narrow integers: the low bytes are the integer modulo a power of two
    rw [if_pos hwidth, Nat.min_eq_left hwidth.le]
    have hlow := joinBytes_littleBytes hwidth.le n.toUInt64
    have hpos : 8 * size = size * 8 - 1 + 1 := by omega
    cases signed with
    | true =>
        obtain ⟨hmin, hmax⟩ := hfits hwidth
        have hmask : ((1 : UInt64) <<< UInt64.ofNat (size * 8 - 1)).toNat = 2 ^ (size * 8 - 1) := by
          have hbits : size * 8 - 1 < 64 := by
            simp [SZINT] at hwidth
            omega
          have hpow : 2 ^ (size * 8 - 1) < 2 ^ 64 := Nat.pow_lt_pow_right (by omega) hbits
          rw [UInt64.toNat_shiftLeft, UInt64.toNat_ofNat',
            Nat.mod_eq_of_lt (show size * 8 - 1 < 2 ^ 64 by omega), Nat.mod_eq_of_lt hbits,
            UInt64.toNat_one, Nat.one_shiftLeft, Nat.mod_eq_of_lt hpow]
        rw [hpos] at hlow
        have hext := signExtend_low (by simp [SZINT] at hwidth; omega) hmin hmax hlow hmask
        simp only [if_true]
        rw [hext]
        rfl
    | false =>
        have hlt := hfits hwidth
        have heq : joinBytes (littleBytes size n.toUInt64) = n.toUInt64 := by
          apply UInt64.toNat_inj.mp
          rw [hlow, Nat.mod_eq_of_lt (by rw [Nat.mul_comm]; exact hlt)]
        simp only [Bool.false_eq_true, if_false]
        rw [heq]
        rfl
  · -- wide integers: all bits of the word, and the sign above
    have hle : SZINT ≤ size := by omega
    have hjoin : joinBytes (littleBytes (min size SZINT) n.toUInt64) = n.toUInt64 := by
      rw [Nat.min_eq_right hle]
      apply UInt64.toNat_inj.mp
      have hlt := n.toUInt64.toNat_lt
      rw [joinBytes_littleBytes (show SZINT ≤ 8 from le_rfl),
        Nat.mod_eq_of_lt (by simpa [SZINT] using hlt)]
    rw [if_neg hwidth, hjoin]
    have hall : (List.range size).all (fun i => i < min size SZINT ||
        byteAt (packIntBytes n.toUInt64 little size (signed && n < 0) ++ more) little size i ==
          if !signed || 0 ≤ n.toUInt64.toInt64 then 0 else 0xff) = true := by
      rw [List.all_eq_true]
      intro i hi
      have hi' : i < size := List.mem_range.mp hi
      by_cases hlow : i < SZINT
      · simp [hlow, hi']
      · have hbyte := byteAt_inOrder (intBytes n.toUInt64 size (signed && n < 0))
          (show i < _ by simpa using hi') little more
        rw [intBytes_length, intBytes_high _ (by omega) hi'] at hbyte
        rw [packIntBytes_eq, hbyte]
        cases signed with
        | false => simp
        | true =>
            have hneg : n < 0 ↔ ¬0 ≤ n := Int64.not_le.symm
            rw [show n.toUInt64.toInt64 = n from rfl]
            by_cases hn : 0 ≤ n
            · simp [hn, hneg]
            · simp [hn, hneg]
    simp only [hall, if_true]
    rfl

/-! ### One option -/

theorem extend_ok {out more out' : List UInt8} (h : extend out more = Except.ok out') :
    out' = out ++ more ∧ out'.length ≤ MAXSIZE := by
  rw [extend] at h
  split at h
  case isTrue hle =>
    cases h
    exact ⟨rfl, by simpa using hle⟩
  case isFalse => cases h

/-- The bytes of a float, read back. -/
theorem joined_floatBytes {size : ℕ} (v : UInt64) (little : Bool) (more : List UInt8)
    (hsize : size ≤ 8) (hlt : v.toNat < 2 ^ (8 * size)) :
    joinBytes ((List.range size).map
      (byteAt (inOrder little (littleBytes size v) ++ more) little size)) = v := by
  have hmap := map_byteAt_inOrder (littleBytes size v) (show size ≤ _ by simp) little more
  rw [littleBytes_length, littleBytes_take le_rfl] at hmap
  apply UInt64.toNat_inj.mp
  rw [hmap, joinBytes_littleBytes hsize, Nat.mod_eq_of_lt hlt]

theorem findIdx_zero {s more : List UInt8} (h : (0 : UInt8) ∉ s) :
    (s ++ [0] ++ more).findIdx? (· == 0) = some s.length := by
  induction s with
  | nil => rfl
  | cons b s ih =>
      have hb : b ≠ 0 := fun hb => h (by simp [hb])
      have hs : (0 : UInt8) ∉ s := fun hs => h (by simp [hs])
      have := ih hs
      simp_all [List.findIdx?_cons]

/-- The values an option gives: one, or none. -/
def optionValues (N : NumberRules) (opt : KOption) (size : ℕ) (v : Value) : List Value :=
  if opt.takesValue then [readAs N opt size v] else []

theorem checkInteger_ok {N : NumberRules} {v : Value} {fname : String} {k : ℕ} {n : Int64}
    (h : N.checkInteger v fname k = Except.ok n) : N.toInteger v = some n := by
  rw [NumberRules.checkInteger.eq_def] at h
  split at h
  case h_1 i hread =>
    cases h
    exact hread
  all_goals cases h

theorem checkNumber_ok {N : NumberRules} {v : Value} {fname : String} {k : ℕ} {x : UInt64}
    (h : N.checkNumber v fname k = Except.ok x) : N.toNumber v = some x := by
  rw [NumberRules.checkNumber] at h
  split at h <;> cases h
  assumption

theorem checkStr_ok {N : NumberRules} {v : Value} {fname : String} {k : ℕ} {s : LuaString}
    (h : N.checkStr v fname k = Except.ok s) : N.toText v = some s := by
  rw [NumberRules.checkStr] at h
  split at h <;> cases h
  assumption

/-- What an option does to the buffer, and to a decoder at the end of the buffer, whatever is
written afterwards. -/
structure OptionTrip (N : NumberRules) (little : Bool) (opt : KOption) (size : ℕ) (v : Value)
    (out out' : List UInt8) : Prop where
  grows : out <+: out'
  room : out.length + size ≤ out'.length
  unpacks : ∀ more, unpackOption N little opt size (out' ++ more) out.length =
    Except.ok (optionValues N opt size v, out'.length)

theorem int_trip {N : NumberRules} {little signed : Bool} {size k : ℕ} {v : Value}
    {out out' : List UInt8} (hsize : 1 ≤ size)
    (h : packOption N little (KOption.int signed) size v k out = Except.ok out') :
    OptionTrip N little (KOption.int signed) size v out out' := by
  obtain ⟨n, hn, h⟩ := PackError.bind_ok h
  have hread := checkInteger_ok hn
  have hext : IntFits n size signed ∧
      extend out (packIntBytes n.toUInt64 little size (signed && n < 0)) = Except.ok out' := by
    cases signed with
    | true =>
        simp only [if_true] at h
        split at h
        · cases h
        case isFalse hfits =>
          refine ⟨fun hlt => ?_, h⟩
          by_contra hno
          exact hfits ⟨hlt, hno⟩
    | false =>
        simp only [Bool.false_eq_true, if_false] at h
        split at h
        · cases h
        case isFalse hfits =>
          refine ⟨fun hlt => ?_, h⟩
          by_contra hno
          exact hfits ⟨hlt, not_lt.mp hno⟩
  obtain ⟨hfits, hext⟩ := hext
  obtain ⟨rfl, -⟩ := extend_ok hext
  refine ⟨List.prefix_append _ _, by simp, ?_⟩
  intro more
  have hint := unpackInt_packIntBytes hsize hfits little more
  rw [unpackOption, List.append_assoc, List.drop_left, hint]
  simp only [optionValues, KOption.takesValue, if_true, readAs, hread, Option.elim,
    List.length_append, packIntBytes_length]
  rfl

theorem float_trip {N : NumberRules} {little : Bool} {size k : ℕ} {v : Value}
    {out out' : List UInt8} (hsize : size = 4 ∨ size = 8)
    (h : packOption N little KOption.float size v k out = Except.ok out') :
    OptionTrip N little KOption.float size v out out' := by
  obtain ⟨x, hx, h⟩ := PackError.bind_ok h
  have hread := checkNumber_ok hx
  obtain ⟨rfl, -⟩ := extend_ok h
  rcases hsize with rfl | rfl
  · have hlt := (N.demote x).toNat_lt
    refine ⟨List.prefix_append _ _, by simp [floatBytes], ?_⟩
    intro more
    rw [unpackOption, List.append_assoc, List.drop_left]
    simp only [floatBytes, if_true]
    rw [joined_floatBytes _ little more (by omega) (by simpa using hlt)]
    simp only [optionValues, KOption.takesValue, if_true, readAs, hread, Option.elim, narrowed,
      List.length_append, inOrder_length, littleBytes_length, UInt32.toUInt32_toUInt64]
  · have hlt := x.toNat_lt
    refine ⟨List.prefix_append _ _, by simp [floatBytes], ?_⟩
    intro more
    rw [unpackOption, List.append_assoc, List.drop_left]
    simp only [floatBytes, show ¬(8 = 4) by omega, if_false]
    rw [joined_floatBytes _ little more le_rfl (by simpa using hlt)]
    simp only [optionValues, KOption.takesValue, if_true, readAs, hread, Option.elim, narrowed,
      List.length_append, inOrder_length, littleBytes_length, show ¬(8 = 4) by omega, if_false]

theorem char_trip {N : NumberRules} {little : Bool} {size k : ℕ} {v : Value}
    {out out' : List UInt8} (h : packOption N little KOption.char size v k out = Except.ok out') :
    OptionTrip N little KOption.char size v out out' := by
  obtain ⟨s, hs, h⟩ := PackError.bind_ok h
  have hread := checkStr_ok hs
  split at h
  · cases h
  case isFalse hlen =>
    obtain ⟨out₁, hext, h⟩ := PackError.bind_ok h
    obtain ⟨rfl, -⟩ := extend_ok hext
    split at h
    · cases h
    · cases h
      have hpad : (zeroPadded s size).length = size := by
        simp [zeroPadded]
        omega
      have hout : out ++ s ++ List.replicate (size - s.length) 0 = out ++ zeroPadded s size :=
        List.append_assoc _ _ _
      rw [hout]
      refine ⟨List.prefix_append _ _, by simp [hpad], ?_⟩
      intro more
      rw [unpackOption, List.append_assoc, List.drop_left, List.take_left' hpad]
      simp only [optionValues, KOption.takesValue, if_true, readAs, hread, Option.elim,
        List.length_append, hpad]

theorem str_trip {N : NumberRules} {little : Bool} {size k : ℕ} {v : Value}
    {out out' : List UInt8} (hsize : 1 ≤ size)
    (h : packOption N little KOption.str size v k out = Except.ok out') :
    OptionTrip N little KOption.str size v out out' := by
  obtain ⟨s, hs, h⟩ := PackError.bind_ok h
  have hread := checkStr_ok hs
  split at h
  · cases h
  case isFalse hfits =>
    obtain ⟨out₁, hext, h⟩ := PackError.bind_ok h
    obtain ⟨rfl, -⟩ := extend_ok hext
    obtain ⟨rfl, hmax⟩ := extend_ok h
    -- the length is below the longest buffer, so its word is exact
    have hlen : s.length < 2 ^ 63 := by
      simp [MAXSIZE] at hmax
      omega
    have hword : (UInt64.ofNat s.length).toNat = s.length := by
      rw [UInt64.toNat_ofNat', Nat.mod_eq_of_lt (by omega)]
    have hlenfits : IntFits (UInt64.ofNat s.length).toInt64 size false := by
      intro hlt
      show (UInt64.ofNat s.length).toNat < _
      rw [hword]
      by_contra hno
      exact hfits ⟨hlt, not_lt.mp hno⟩
    refine ⟨?_, by simp, ?_⟩
    · rw [List.append_assoc]
      exact List.prefix_append _ _
    · intro more
      have hint := unpackInt_packIntBytes hsize hlenfits little (s ++ more)
      have hdrop : (out ++ packIntBytes (UInt64.ofNat s.length) little size false ++ s ++ more).drop
          out.length = packIntBytes (UInt64.ofNat s.length) little size false ++ (s ++ more) := by
        simp only [List.append_assoc, List.drop_left]
      have hbody : (out ++ packIntBytes (UInt64.ofNat s.length) little size false ++ s ++ more).drop
          (out.length + size) = s ++ more := by
        rw [List.append_assoc]
        exact List.drop_left' (by simp)
      rw [unpackOption, hdrop]
      simp only [Bool.false_and] at hint
      show (unpackInt (packIntBytes (UInt64.ofNat s.length).toInt64.toUInt64 little size false ++
        (s ++ more)) little size false >>= _) = _
      rw [hint]
      have hword' : (UInt64.ofNat s.length).toInt64.toUInt64.toNat = s.length := hword
      show (if _ < (UInt64.ofNat s.length).toInt64.toUInt64.toNat then _ else _) = _
      rw [hword', if_neg (by simp), hbody, List.take_left]
      simp only [optionValues, KOption.takesValue, if_true, readAs, hread, Option.elim,
        List.length_append, packIntBytes_length]
      congr 2
      omega

theorem zstr_trip {N : NumberRules} {little : Bool} {k : ℕ} {v : Value} {out out' : List UInt8}
    (h : packOption N little KOption.zstr 0 v k out = Except.ok out') :
    OptionTrip N little KOption.zstr 0 v out out' := by
  obtain ⟨s, hs, h⟩ := PackError.bind_ok h
  have hread := checkStr_ok hs
  split at h
  · cases h
  case isFalse hzero =>
    obtain ⟨out₁, hext, h⟩ := PackError.bind_ok h
    obtain ⟨rfl, -⟩ := extend_ok hext
    obtain ⟨rfl, -⟩ := extend_ok h
    refine ⟨?_, by simp, ?_⟩
    · rw [List.append_assoc]
      exact List.prefix_append _ _
    · intro more
      have hdrop : (out ++ s ++ [0] ++ more).drop out.length = s ++ [0] ++ more := by
        simp only [List.append_assoc, List.drop_left]
      rw [unpackOption, hdrop, findIdx_zero hzero]
      dsimp only
      rw [List.append_assoc, List.take_left]
      simp only [optionValues, KOption.takesValue, if_true, readAs, hread, Option.elim,
        List.length_append, List.length_singleton]
      rfl

/-- An option without a value writes nothing, or one byte that is skipped. -/
theorem plain_trip {N : NumberRules} {little : Bool} {opt : KOption} {size : ℕ} {v : Value}
    {out out' : List UInt8} (more : List UInt8) (hopt : opt.takesValue = false)
    (hlen : more.length = size) (hout : out' = out ++ more) :
    OptionTrip N little opt size v out out' := by
  subst hout
  refine ⟨List.prefix_append _ _, by simp [hlen], ?_⟩
  intro rest
  cases opt with
  | padding | paddAlign | nop => simp [unpackOption, optionValues, KOption.takesValue, hlen]
  | _ => cases hopt

/-- **One option**: what is written at the end of the buffer is read there. -/
theorem packOption_unpackOption {N : NumberRules} {little : Bool} {opt : KOption} {size k : ℕ}
    {v : Value} {out out' : List UInt8} (hsize : opt.HasSize size)
    (h : packOption N little opt size v k out = Except.ok out') :
    OptionTrip N little opt size v out out' := by
  cases opt with
  | int signed => exact int_trip hsize.1 h
  | float => exact float_trip hsize h
  | str => exact str_trip hsize.1 h
  | char => exact char_trip h
  | zstr =>
      obtain rfl : size = 0 := hsize
      exact zstr_trip h
  | padding => exact plain_trip [0] rfl hsize.symm (extend_ok h).1
  | paddAlign =>
      cases h
      exact plain_trip [] rfl hsize.symm (List.append_nil _).symm
  | nop =>
      cases h
      exact plain_trip [] rfl hsize.symm (List.append_nil _).symm

/-- `nil` is no number and no text. -/
theorem packOption_nil {N : NumberRules} {little : Bool} {opt : KOption} {size k : ℕ}
    {out out' : List UInt8} (hopt : opt.takesValue = true) :
    packOption N little opt size Value.nil k out ≠ Except.ok out' := by
  intro h
  cases opt with
  | padding | paddAlign | nop => cases hopt
  | int signed =>
      obtain ⟨n, hn, -⟩ := PackError.bind_ok h
      cases hn
  | float =>
      obtain ⟨x, hx, -⟩ := PackError.bind_ok h
      cases hx
  | _ =>
      obtain ⟨s, hs, -⟩ := PackError.bind_ok h
      cases hs

/-! ### Whole formats -/

/-- **The loops**: when `pack` ends with a buffer, `unpack` reads that buffer from the place where
`pack` is, and finds the values of the options that are left. -/
theorem unpackLoop_packLoop {N : NumberRules} {stack : List Value} {fuel : ℕ} {h : Header}
    {fmt : List UInt8} {arg : ℕ} {out final : List UInt8}
    (hpack : packLoop N stack fuel h fmt arg out = Except.ok final) :
    out <+: final ∧ (valueOptions fuel h fmt).length ≤ (stack.drop arg).length ∧
      ∀ values, unpackLoop N final fuel h fmt out.length values =
        Except.ok (values ++ readValues N (valueOptions fuel h fmt) (stack.drop arg) ++
          [Value.integer (Int64.ofNat (final.length + 1))]) := by
  induction fuel generalizing h fmt arg out with
  | zero =>
      cases fmt with
      | nil =>
          cases hpack
          refine ⟨List.prefix_rfl, Nat.zero_le _, ?_⟩
          intro values
          simp [unpackLoop, valueOptions, readValues]
      | cons c rest => cases hpack
  | succ fuel ih =>
      cases fmt with
      | nil =>
          cases hpack
          refine ⟨List.prefix_rfl, Nat.zero_le _, ?_⟩
          intro values
          simp [unpackLoop, valueOptions, readValues]
      | cons c rest =>
          obtain ⟨⟨opt, size, ntoalign, h', rest'⟩, hdetails, hafter⟩ := PackError.bind_ok hpack
          obtain ⟨out₁, halign, hvalue⟩ := PackError.bind_ok hafter
          obtain ⟨out₂, hoption, hnext⟩ := PackError.bind_ok hvalue
          obtain ⟨rfl, -⟩ := extend_ok halign
          have htrip := packOption_unpackOption (getDetails_size hdetails).2 hoption
          obtain ⟨hfinal, hcount, hunpack⟩ := ih hnext
          have hoptions := valueOptions_getDetails hdetails fuel
          obtain ⟨more, rfl⟩ := hfinal
          -- the values of this option and of the others
          have hvalues : (valueOptions (fuel + 1) h (c :: rest)).length ≤ (stack.drop arg).length ∧
              readValues N (valueOptions (fuel + 1) h (c :: rest)) (stack.drop arg) =
                optionValues N opt size (stackGet stack arg) ++
                  readValues N (valueOptions fuel h' rest')
                    (stack.drop (if opt.takesValue then arg + 1 else arg)) := by
            rw [hoptions]
            by_cases htakes : opt.takesValue = true
            · have hlt : arg < stack.length := by
                by_contra hge
                have hnil : stackGet stack arg = Value.nil :=
                  List.getD_eq_default _ _ (not_lt.mp hge)
                rw [hnil] at hoption
                exact packOption_nil htakes hoption
              have hget : stackGet stack arg = stack[arg] := List.getD_eq_getElem _ _ hlt
              simp only [htakes, if_true] at hcount ⊢
              rw [List.drop_eq_getElem_cons hlt, hget, optionValues, if_pos htakes]
              exact ⟨Nat.succ_le_succ hcount, rfl⟩
            · simp only [htakes] at hcount ⊢
              rw [optionValues, if_neg htakes]
              exact ⟨hcount, rfl⟩
          refine ⟨?_, hvalues.1, ?_⟩
          · exact ((List.prefix_append _ _).trans htrip.grows).trans (List.prefix_append _ _)
          · intro values
            have hroom := htrip.room
            rw [List.length_append, List.length_replicate] at hroom
            have hread := htrip.unpacks more
            rw [List.length_append, List.length_replicate] at hread
            rw [unpackLoop, getDetails_name hdetails "unpack"]
            show (if (out₂ ++ more).length - out.length < ntoalign + size then _ else
              (unpackOption N h'.little opt size (out₂ ++ more) (out.length + ntoalign) >>= _)) = _
            rw [if_neg (by rw [List.length_append]; omega), hread]
            show unpackLoop N (out₂ ++ more) fuel h' rest' out₂.length
              (values ++ optionValues N opt size (stackGet stack arg)) = _
            rw [hunpack, hvalues.2, List.append_assoc values]

/-- Without an initial position the loop starts at the front. -/
theorem luaUnpack_start (N : NumberRules) (fmt data : List UInt8) :
    luaUnpack N [Value.string fmt, Value.string data] =
      unpackLoop N data fmt.length Header.start fmt 0 [] := by
  have hstart : ¬(data.length : ℤ) + 1 < posrelat (1 : Int64).toInt data.length := by
    rw [show posrelat (1 : Int64).toInt data.length = 1 from rfl]
    omega
  show (if (data.length : ℤ) + 1 < posrelat (1 : Int64).toInt data.length then
    Except.error (PackError.badArg 3 "unpack" "initial position out of string") else _) = _
  rw [if_neg hstart]
  rfl

/-- **Unpacking inverts packing.**  For every format and all arguments that `pack` accepts, the
packed string unpacks to one value for each option that takes one, which is the argument as the
option reads it (itself, when it is of the option's own type; with zeros behind it in a fixed
string), and to the position behind the string. -/
theorem unpack_pack {N : NumberRules} {fmt : List UInt8} {args results : List Value}
    (hpack : luaPack N (Value.string fmt :: args) = Except.ok results) :
    ∃ packed : List UInt8, results = [Value.string packed] ∧
      (formatOptions fmt).length ≤ args.length ∧
      luaUnpack N [Value.string fmt, Value.string packed] =
        Except.ok (readValues N (formatOptions fmt) args ++
          [Value.integer (Int64.ofNat (packed.length + 1))]) ∧
      ∀ (i : ℕ) (o : KOption × ℕ) (v w : Value), (formatOptions fmt)[i]? = some o →
        args[i]? = some v → ownValue N o.1 o.2 v = some w →
          (readValues N (formatOptions fmt) args)[i]? = some w := by
  obtain ⟨s, hs, hafter⟩ := PackError.bind_ok hpack
  cases hs
  obtain ⟨packed, hloop, hresults⟩ := PackError.bind_ok hafter
  cases hresults
  obtain ⟨-, hcount, hunpack⟩ := unpackLoop_packLoop hloop
  refine ⟨packed, rfl, hcount, ?_, ?_⟩
  · rw [luaUnpack_start]
    exact hunpack []
  · intro i o v w ho hv hw
    rw [readValues, List.getElem?_zipWith, ho, hv]
    exact congrArg some (readAs_own hw)

/-- Rules under which no text is a number. -/
def noTexts : NumberRules where
  floatText _ := []
  strToNumber _ := none
  ofInteger _ := 0
  demote _ := 0
  promote _ := 0

/-- Three bytes with a sign, two bytes in the other order, an alignment that is borrowed, a fixed
string, a string with its length and a string with a zero. -/
theorem unpack_pack_mixed :
    luaUnpack noTexts [Value.string (bytes "<i3>I2!4Xi4c2s1z"),
        Value.string [254, 255, 255, 1, 2, 0, 0, 0, 97, 0, 1, 98, 99, 0]] =
      Except.ok [Value.integer (-2), Value.integer 258, Value.string [97, 0], Value.string [98],
        Value.string [99], Value.integer 15] := by
  have hpack : luaPack noTexts (Value.string (bytes "<i3>I2!4Xi4c2s1z") :: [Value.integer (-2),
      Value.integer 258, Value.string [97], Value.string [98], Value.string [99]]) =
      Except.ok [Value.string [254, 255, 255, 1, 2, 0, 0, 0, 97, 0, 1, 98, 99, 0]] := rfl
  obtain ⟨packed, hpacked, -, hunpack, -⟩ := unpack_pack hpack
  cases hpacked
  exact hunpack

/-- The value itself, with zeros behind a fixed string. -/
def sameValue : KOption → ℕ → Value → Value
  | KOption.char, size, Value.string s => Value.string (zeroPadded s size)
  | _, _, v => v

/-- A number that is no integer by type comes back as one: `5.0` in the option `i1`. -/
theorem not_unpack_same :
    ¬ ∀ (N : NumberRules) (fmt : List UInt8) (args : List Value) (packed : List UInt8),
      luaPack N (Value.string fmt :: args) = Except.ok [Value.string packed] →
      luaUnpack N [Value.string fmt, Value.string packed] =
        Except.ok (List.zipWith (fun o v => sameValue o.1 o.2 v) (formatOptions fmt) args ++
          [Value.integer (Int64.ofNat (packed.length + 1))]) := by
  intro hsame
  have hpack : luaPack noTexts [Value.string (bytes "i1"), Value.float 0x4014000000000000] =
      Except.ok [Value.string [5]] := rfl
  have hunpack : luaUnpack noTexts [Value.string (bytes "i1"), Value.string [5]] =
      Except.ok [Value.integer 5, Value.integer 2] := rfl
  have hvalues := hsame noTexts (bytes "i1") [Value.float 0x4014000000000000] [5] hpack
  rw [hunpack] at hvalues
  have hlist := Except.ok.inj hvalues
  exact absurd (List.head_eq_of_cons_eq hlist) (by decide)

end Tcvm
