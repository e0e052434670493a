/-
The `utf8` library.

`len`, `codepoint`, `offset` and the iterator of `codes`, with the positions as `i64` and each sum
checked.  `len` and `codepoint` decode, `offset` skips continuation bytes, and `codes_aux` decodes
the character that it has delivered once more to find the next one.

* `luaLen`, `luaCodepoint`, `luaOffset`, `codesAux` — the library functions;
* `Iteration` — what a `for` loop over `codes` gets;
* `decoder_advances`, `decoder_fits` — a decoded character lies behind its position, in the string;
* `lenLoop_walk`, `codepointLoop_walk`, `Iteration.of_walk` — **the loops walk over the string**.
-/

import Tcvm.DecoderWalk
import Tcvm.PackRoundTrip
import Tcvm.Utf8Codec
import Tcvm.WhileLoop

namespace Tcvm

open DecoderWalk ExtendedUtf8 WhileLoop

/-! ### Checked positions -/

/-- What ends a call: an error for Lua, an overflow of `i64`, or a loop that does not end. -/
inductive Utf8Fault
  | raise (e : PackError)
  | overflow
  | steps
  deriving DecidableEq

/-- The result of an `i64` operation on positions. -/
def checkedPos (z : ℤ) : Except Utf8Fault ℤ :=
  if -2 ^ 63 ≤ z ∧ z < 2 ^ 63 then Except.ok z else Except.error Utf8Fault.overflow

/-- `posrelat`. -/
def checkedPosrelat (pos : ℤ) (len : ℕ) : Except Utf8Fault ℤ :=
  if 0 ≤ pos then Except.ok pos
  else if len < pos.natAbs then Except.ok 0
  else do
    let sum ← checkedPos (len + pos)
    checkedPos (sum + 1)

/-- A position as a value. -/
def posValue (z : ℤ) : Value := Value.integer (Int64.ofInt z)

/-- `as usize`. -/
def asUsize (z : ℤ) : ℕ := (z % 2 ^ 64).toNat

/-- `iscont`: a continuation byte at a position that counts from 1. -/
def iscont (bytes : List UInt8) (idx1 : ℤ) : Bool :=
  1 ≤ idx1 && (bytes[(idx1 - 1).toNat]?).any fun c => c &&& 0xC0 == 0x80

/-! ### Arguments -/

def Value.getString : Value → Option LuaString
  | string s => some s
  | _ => none

def Value.getInteger : Value → Option Int64
  | integer i => some i
  | _ => none

/-- `check_str`. -/
def checkText (v : Value) (fname : String) (n : ℕ) : Except Utf8Fault LuaString :=
  match v.getString with
  | some s => Except.ok s
  | none =>
      Except.error (Utf8Fault.raise
        (PackError.badArg n fname ("string expected, got " ++ v.typeName)))

def NumberRules.checkPosition (N : NumberRules) (v : Value) (fname : String) (n : ℕ) :
    Except Utf8Fault ℤ :=
  match N.checkInteger v fname n with
  | Except.ok i => Except.ok i.toInt
  | Except.error e => Except.error (Utf8Fault.raise e)

/-- A position argument with a default. -/
def NumberRules.positionOr (N : NumberRules) (v : Value) (default : ℤ) (fname : String) (n : ℕ) :
    Except Utf8Fault ℤ :=
  if v.isNil then Except.ok default else N.checkPosition v fname n

def badArg (n : ℕ) (fname msg : String) : Utf8Fault :=
  Utf8Fault.raise (PackError.badArg n fname msg)

def invalidCode : Utf8Fault := Utf8Fault.raise (PackError.message "invalid UTF-8 code")

/-! ### `codepoint` and `len` -/

/-- The loop of `lua_codepoint`. -/
def codepointLoop (bytes : List UInt8) (strict : Bool) (last : ℕ) :
    ℕ → ℕ → List Value → Except Utf8Fault (List Value)
  | 0, _, _ => Except.error Utf8Fault.steps
  | rounds + 1, pos, out =>
      if pos < last then
        match decode bytes pos strict with
        | some (code, next) =>
            codepointLoop bytes strict last rounds next (out ++ [posValue code])
        | none => Except.error invalidCode
      else Except.ok out

/-- `lua_codepoint`. -/
def luaCodepoint (N : NumberRules) (stack : List Value) : Except Utf8Fault (List Value) := do
  let s ← checkText (stackGet stack 0) "codepoint" 1
  let i ← N.positionOr (stackGet stack 1) 1 "codepoint" 2
  let j ← N.positionOr (stackGet stack 2) i "codepoint" 3
  let posi ← checkedPosrelat i s.length
  let posj ← checkedPosrelat j s.length
  if posi < 1 then Except.error (badArg 2 "codepoint" "out of bounds")
  else if s.length < posj then Except.error (badArg 3 "codepoint" "out of bounds")
  else do
    let first ← checkedPos (posi - 1)
    let strict := (stackGet stack 3).isFalsy
    codepointLoop s strict (asUsize posj) (s.length + 1) (asUsize first) []

/-- The loop of `lua_len`. -/
def lenLoop (bytes : List UInt8) (strict : Bool) (posj : ℤ) :
    ℕ → ℤ → ℤ → Except Utf8Fault (List Value)
  | 0, _, _ => Except.error Utf8Fault.steps
  | rounds + 1, posi, count =>
      if posi ≤ posj then do
        let pos ← checkedPos (posi - 1)
        match decode bytes (asUsize pos) strict with
        | some (_, next) => do
            let count ← checkedPos (count + 1)
            let posi ← checkedPos (next + 1)
            lenLoop bytes strict posj rounds posi count
        | none => Except.ok [Value.nil, posValue posi]
      else Except.ok [posValue count]

/-- `lua_len`. -/
def luaLen (N : NumberRules) (stack : List Value) : Except Utf8Fault (List Value) := do
  let s ← checkText (stackGet stack 0) "len" 1
  let i ← N.positionOr (stackGet stack 1) 1 "len" 2
  let j ← N.positionOr (stackGet stack 2) (-1) "len" 3
  let posi ← checkedPosrelat i s.length
  let posj ← checkedPosrelat j s.length
  let past ← checkedPos (s.length + 1)
  if posi < 1 ∨ past < posi then
    Except.error (badArg 2 "len" "initial position out of bounds")
  else if s.length < posj then
    Except.error (badArg 3 "len" "final position out of bounds")
  else lenLoop s (stackGet stack 3).isFalsy posj (s.length + 1) posi 0

/-! ### `offset` -/

/-- `while posi > 1 && iscont(bytes, posi) { posi -= 1 }`. -/
def backToStart (bytes : List UInt8) : ℤ → Except Utf8Fault ℤ :=
  WhileLoop.whileLoop Utf8Fault.steps (fun posi => 1 < posi && iscont bytes posi)
    (fun posi => checkedPos (posi - 1)) (bytes.length + 2)

/-- `while posi <= len && iscont(bytes, posi) { posi += 1 }`. -/
def skipToStart (bytes : List UInt8) : ℤ → Except Utf8Fault ℤ :=
  WhileLoop.whileLoop Utf8Fault.steps (fun posi => posi ≤ bytes.length && iscont bytes posi)
    (fun posi => checkedPos (posi + 1)) (bytes.length + 2)

/-- `while e < len && iscont(bytes, e + 1) { e += 1 }`. -/
def skipToEnd (bytes : List UInt8) : ℤ → Except Utf8Fault ℤ :=
  WhileLoop.whileLoop Utf8Fault.steps (fun e => e < bytes.length && iscont bytes (e + 1))
    (fun e => checkedPos (e + 1)) (bytes.length + 2)

/-- One character forwards: the number of characters still to go, and the position. -/
def forward (bytes : List UInt8) (x : ℤ × ℤ) : Except Utf8Fault (ℤ × ℤ) := do
  let posi ← checkedPos (x.2 + 1)
  let posi ← skipToStart bytes posi
  let n ← checkedPos (x.1 - 1)
  return (n, posi)

/-- One character backwards. -/
def backward (bytes : List UInt8) (x : ℤ × ℤ) : Except Utf8Fault (ℤ × ℤ) := do
  let posi ← checkedPos (x.2 - 1)
  let posi ← backToStart bytes posi
  let n ← checkedPos (x.1 + 1)
  return (n, posi)

/-- The position that `lua_offset` finds. -/
def findOffset (bytes : List UInt8) (n posi : ℤ) : Except Utf8Fault (Option ℤ) :=
  if n = 0 then some <$> backToStart bytes posi
  else if posi ≤ bytes.length ∧ iscont bytes posi then
    Except.error (Utf8Fault.raise (PackError.message "initial position is a continuation byte"))
  else if 0 < n then do
    let n ← checkedPos (n - 1)
    let (n, posi) ← WhileLoop.whileLoop Utf8Fault.steps
      (fun x => 0 < x.1 && x.2 ≤ (bytes.length : ℤ)) (forward bytes) (bytes.length + 2) (n, posi)
    return if 0 < n then none else some posi
  else do
    let (n, posi) ← WhileLoop.whileLoop Utf8Fault.steps (fun x => x.1 < 0 && 1 < x.2)
      (backward bytes) (bytes.length + 2) (n, posi)
    return if n < 0 then none else some posi

/-- The results of `lua_offset`: the position and the last byte of the character there. -/
def offsetResults (bytes : List UInt8) : Option ℤ → Except Utf8Fault (List Value)
  | none => Except.ok [Value.nil]
  | some p => do
      let last ← if bytes.length < p then Except.ok p else skipToEnd bytes p
      return [posValue p, posValue last]

/-- `lua_offset`. -/
def luaOffset (N : NumberRules) (stack : List Value) : Except Utf8Fault (List Value) := do
  let s ← checkText (stackGet stack 0) "offset" 1
  let n ← N.checkPosition (stackGet stack 1) "offset" 2
  let past ← checkedPos (s.length + 1)
  let default := if 0 ≤ n then 1 else past
  let i ← N.positionOr (stackGet stack 2) default "offset" 3
  let posi ← checkedPosrelat i s.length
  if posi < 1 ∨ past < posi then
    Except.error (badArg 3 "offset" "position out of bounds")
  else do
    let found ← findOffset s n posi
    offsetResults s found

/-! ### `codes` -/

/-- Where `codes_aux` goes on, behind the character at the control position `i`. -/
def codesPos (bytes : List UInt8) (i : ℤ) : Except Utf8Fault ℕ :=
  if i = 0 then Except.ok 0
  else do
    let prev ← checkedPos (i - 1)
    match decode bytes (asUsize prev) true with
    | some (_, next) => Except.ok next
    | none => Except.error invalidCode

/-- What `codes_aux` delivers at a position. -/
def codesItem (bytes : List UInt8) (pos : ℕ) : Except Utf8Fault (List Value) :=
  if bytes.length ≤ pos then Except.ok []
  else
    match decode bytes pos true with
    | some (code, _) => do
        let place ← checkedPos (pos + 1)
        return [posValue place, posValue code]
    | none => Except.error invalidCode

/-- `codes_aux`, the iterator of `lua_codes`. -/
def codesAux (stack : List Value) : Except Utf8Fault (List Value) := do
  let s ← checkText (stackGet stack 0) "codes" 1
  let i := ((stackGet stack 1).getInteger.getD 0).toInt
  let pos ← codesPos s i
  codesItem s pos

/-- `lua_codes`: what the iterator is called with first. -/
def luaCodes (stack : List Value) : Except Utf8Fault (List Value) := do
  let s ← checkText (stackGet stack 0) "codes" 1
  return [Value.string s, posValue 0]

/-- A `for` loop over `codes`: what it delivers from a control value on, and the fault that ends
it, if any. -/
inductive Iteration (state : Value) : Value → List (Value × Value) → Option Utf8Fault → Prop
  | ends {control : Value} : codesAux [state, control] = Except.ok [] →
      Iteration state control [] none
  | raises {control : Value} {e : Utf8Fault} : codesAux [state, control] = Except.error e →
      Iteration state control [] (some e)
  | delivers {control place code : Value} {rest : List (Value × Value)} {fault : Option Utf8Fault} :
      codesAux [state, control] = Except.ok [place, code] → Iteration state place rest fault →
      Iteration state control ((place, code) :: rest) fault

/-! ### The decoder -/

/-- The decoder of a string. -/
def decoder (s : List UInt8) (strict : Bool) (pos : ℕ) : Option (ℕ × ℕ) := decode s pos strict

/-- A decoded character: its first byte starts a character, the bytes behind it do not. -/
theorem decoder_shape {s : List UInt8} {strict : Bool} {pos code next : ℕ}
    (h : decoder s strict pos = some (code, next)) :
    code < 2 ^ 31 ∧ pos < next ∧ next ≤ s.length ∧ (s[pos]?).any isCont = false ∧
      ∀ p, pos < p → p < next → (s[p]?).any isCont = true := by
  have hlax : decode s pos false = some (code, next) := by
    cases strict with
    | false => exact h
    | true =>
        rw [decoder, decode_strict] at h
        exact (Option.filter_eq_some_iff.1 h).1
  obtain ⟨hcode, hprefix, hnext⟩ := decode_eq_some_iff.1 hlax
  rw [encode_eq hcode] at hprefix hnext
  obtain ⟨c, cs, hform, hc, hcs⟩ := form_shape hcode
  rw [hform] at hprefix hnext
  obtain ⟨rest, hrest⟩ := hprefix
  have hget : ∀ k, s[pos + k]? = (c :: cs ++ rest)[k]? := by
    intro k
    rw [hrest, List.getElem?_drop]
  have hlen := congrArg List.length hrest
  rw [List.length_append, List.length_drop] at hlen
  rw [List.length_cons] at hnext hlen
  refine ⟨hcode, by omega, by omega, ?_, fun p hlo hhi => ?_⟩
  · have hfirst := hget 0
    rw [Nat.add_zero, List.cons_append, List.getElem?_cons_zero] at hfirst
    rw [hfirst, Option.any_some, hc]
  · have hin : p - pos - 1 < cs.length := by omega
    have hbyte := hget (p - pos - 1 + 1)
    rw [List.cons_append, List.getElem?_cons_succ, List.getElem?_append_left hin,
      List.getElem?_eq_getElem hin, show pos + (p - pos - 1 + 1) = p by omega] at hbyte
    rw [hbyte, Option.any_some, hcs _ (List.getElem_mem hin)]

theorem decoder_advances (s : List UInt8) (strict : Bool) : Advances (decoder s strict) :=
  fun _ _ _ h => (decoder_shape h).2.1

theorem decoder_fits {s : List UInt8} {strict : Bool} {pos code next : ℕ}
    (h : decoder s strict pos = some (code, next)) : next ≤ s.length := (decoder_shape h).2.2.1

/-- Nothing is decoded at a continuation byte. -/
theorem decoder_isCont {s : List UInt8} {strict : Bool} {pos : ℕ}
    (h : (s[pos]?).any isCont = true) : decoder s strict pos = none := by
  cases hread : decoder s strict pos with
  | none => rfl
  | some r =>
      obtain ⟨-, -, -, hfirst, -⟩ := decoder_shape hread
      rw [h] at hfirst
      cases hfirst

/-! ### Positions -/

theorem Utf8Fault.ok_bind {α β : Type} (a : α) (f : α → Except Utf8Fault β) :
    (Except.ok a >>= f) = f a := rfl

open Utf8Fault (ok_bind)

theorem checkedPos_ok {z : ℤ} (hlo : -2 ^ 63 ≤ z) (hhi : z < 2 ^ 63) :
    checkedPos z = Except.ok z := if_pos ⟨hlo, hhi⟩

theorem checkedPosrelat_of_nonneg {pos : ℤ} {len : ℕ} (h : 0 ≤ pos) :
    checkedPosrelat pos len = Except.ok pos := if_pos h

theorem checkedPosrelat_eq {pos : ℤ} {len : ℕ} (hpos : -2 ^ 63 ≤ pos) (hlen : len < 2 ^ 63) :
    checkedPosrelat pos len = Except.ok (posrelat pos len) := by
  unfold checkedPosrelat posrelat
  by_cases hnonneg : 0 ≤ pos
  · rw [if_pos hnonneg, if_pos hnonneg]
  · rw [if_neg hnonneg, if_neg hnonneg]
    by_cases hfar : (len : ℤ) < -pos
    · rw [if_pos hfar, if_pos (by omega)]
    · rw [if_neg hfar, if_neg (by omega), checkedPos_ok (by omega) (by omega)]
      exact checkedPos_ok (by omega) (by omega)

theorem asUsize_natCast {n : ℕ} (h : n < 2 ^ 64) : asUsize n = n := by
  unfold asUsize
  omega

theorem iscont_succ (s : List UInt8) (p : ℕ) : iscont s (p + 1) = (s[p]?).any isCont := by
  have hbyte : ∀ c : UInt8, (c &&& 0xC0 == 0x80) = isCont c := by
    intro c
    have h := and_C0_iff c
    cases hc : isCont c <;> simp [hc] at h ⊢ <;> exact h
  unfold iscont
  rw [decide_eq_true (by omega), Bool.true_and, Int.add_sub_cancel, Int.toNat_natCast]
  exact congrArg (fun f => Option.any f s[p]?) (funext hbyte)

/-! ### Calls without an overflow -/

/-- If the call fails, then with an error for Lua. -/
def Safe {α : Type} (r : Except Utf8Fault α) : Prop :=
  ∀ fault, r = Except.error fault → ∃ e, fault = Utf8Fault.raise e

theorem Safe.ok {α : Type} (a : α) : Safe (Except.ok a) := by
  intro fault h
  cases h

theorem Safe.raise {α : Type} (e : PackError) :
    Safe (Except.error (Utf8Fault.raise e) : Except Utf8Fault α) := by
  intro fault h
  cases h
  exact ⟨e, rfl⟩

theorem Safe.bind {α β : Type} {m : Except Utf8Fault α} {f : α → Except Utf8Fault β}
    (hm : Safe m) (hf : ∀ a, m = Except.ok a → Safe (f a)) : Safe (m >>= f) := by
  cases m with
  | error fault =>
      intro fault' h
      obtain rfl : fault = fault' := Except.error.inj h
      exact hm fault rfl
  | ok a => exact hf a rfl

theorem checkText_safe (v : Value) (fname : String) (n : ℕ) : Safe (checkText v fname n) := by
  unfold checkText
  cases v.getString with
  | none => exact Safe.raise _
  | some s => exact Safe.ok s

theorem string_of_checkText {v : Value} {fname : String} {n : ℕ} {s : LuaString}
    (h : checkText v fname n = Except.ok s) : v = Value.string s := by
  cases v with
  | string t => exact congrArg Value.string (Except.ok.inj h)
  | _ => cases h

theorem checkPosition_safe (N : NumberRules) (v : Value) (fname : String) (n : ℕ) :
    Safe (N.checkPosition v fname n) := by
  unfold NumberRules.checkPosition
  cases N.checkInteger v fname n with
  | error e => exact Safe.raise e
  | ok i => exact Safe.ok i.toInt

theorem positionOr_safe (N : NumberRules) (v : Value) (default : ℤ) (fname : String) (n : ℕ) :
    Safe (N.positionOr v default fname n) := by
  unfold NumberRules.positionOr
  split
  · exact Safe.ok default
  · exact checkPosition_safe N v fname n

/-- A position argument is an `i64`. -/
theorem checkPosition_fits {N : NumberRules} {v : Value} {fname : String} {n : ℕ} {i : ℤ}
    (h : N.checkPosition v fname n = Except.ok i) : -2 ^ 63 ≤ i ∧ i < 2 ^ 63 := by
  unfold NumberRules.checkPosition at h
  cases hi : N.checkInteger v fname n with
  | error e =>
      rw [hi] at h
      cases h
  | ok k =>
      rw [hi] at h
      cases h
      exact ⟨k.le_toInt, k.toInt_lt⟩

theorem positionOr_fits {N : NumberRules} {v : Value} {default : ℤ} {fname : String} {n : ℕ} {i : ℤ}
    (hlo : -2 ^ 63 ≤ default) (hhi : default < 2 ^ 63)
    (h : N.positionOr v default fname n = Except.ok i) : -2 ^ 63 ≤ i ∧ i < 2 ^ 63 := by
  unfold NumberRules.positionOr at h
  split at h
  · obtain rfl := Except.ok.inj h
    exact ⟨hlo, hhi⟩
  · exact checkPosition_fits h

/-! ### The loops walk over the string -/

variable {s : LuaString} {strict : Bool} {items : List (ℕ × ℕ)} {stuck : Option ℕ} {pos rounds : ℕ}

/-- What `len` returns behind a walk. -/
def lenResults (count : ℕ) : Option ℕ → List Value
  | none => [posValue count]
  | some p => [Value.nil, posValue (p + 1)]

theorem lenLoop_walk {posj : ℤ} (hlen : s.length < 2 ^ 63 - 1) (hposj : posj ≤ s.length)
    (h : Walk (decoder s strict) posj.toNat pos items stuck) :
    ∀ {rounds count : ℕ}, items.length < rounds → count ≤ pos →
      lenLoop s strict posj rounds (pos + 1) count =
        Except.ok (lenResults (count + items.length) stuck) := by
  induction h with
  | @ends pos hpos =>
      intro rounds count hrounds hcount
      obtain ⟨rounds, rfl⟩ := Nat.exists_eq_succ_of_ne_zero (Nat.ne_of_gt hrounds)
      rw [Nat.succ_eq_add_one, lenLoop, if_neg (by omega)]
      rfl
  | @stuck pos hlt hread =>
      intro rounds count hrounds hcount
      obtain ⟨rounds, rfl⟩ := Nat.exists_eq_succ_of_ne_zero (Nat.ne_of_gt hrounds)
      rw [decoder] at hread
      rw [Nat.succ_eq_add_one, lenLoop, if_pos (by omega), Int.add_sub_cancel,
        checkedPos_ok (by omega) (by omega), ok_bind, asUsize_natCast (by omega), hread]
      rfl
  | @item pos next a items stuck hlt hread _ ih =>
      intro rounds count hrounds hcount
      obtain ⟨rounds, rfl⟩ :=
        Nat.exists_eq_succ_of_ne_zero (Nat.ne_of_gt (Nat.zero_lt_of_lt hrounds))
      obtain ⟨-, hnext, hfits, -⟩ := decoder_shape hread
      rw [List.length_cons] at hrounds
      rw [decoder] at hread
      rw [Nat.succ_eq_add_one, lenLoop, if_pos (by omega), Int.add_sub_cancel,
        checkedPos_ok (by omega) (by omega), ok_bind, asUsize_natCast (by omega), hread]
      dsimp only
      rw [checkedPos_ok (by omega) (by omega), ok_bind, checkedPos_ok (by omega) (by omega),
        ok_bind]
      have htail := @ih rounds (count + 1) (Nat.lt_of_succ_lt_succ hrounds) (by omega)
      rw [Int.natCast_succ] at htail
      rw [htail, List.length_cons, Nat.add_assoc, Nat.add_comm 1]

/-- What `codepoint` returns behind a walk. -/
def codepointResults (out : List Value) : Option ℕ → Except Utf8Fault (List Value)
  | none => Except.ok out
  | some _ => Except.error invalidCode

theorem codepointLoop_walk {last : ℕ} (h : Walk (decoder s strict) last pos items stuck) :
    ∀ {rounds : ℕ} {out : List Value}, items.length < rounds →
      codepointLoop s strict last rounds pos out =
        codepointResults (out ++ items.map fun r => posValue r.2) stuck := by
  induction h with
  | ends hpos =>
      intro rounds out hrounds
      obtain ⟨rounds, rfl⟩ := Nat.exists_eq_succ_of_ne_zero (Nat.ne_of_gt hrounds)
      rw [Nat.succ_eq_add_one, codepointLoop, if_neg (Nat.not_lt.2 hpos), List.map_nil,
        List.append_nil]
      rfl
  | stuck hlt hread =>
      intro rounds out hrounds
      obtain ⟨rounds, rfl⟩ := Nat.exists_eq_succ_of_ne_zero (Nat.ne_of_gt hrounds)
      rw [decoder] at hread
      rw [Nat.succ_eq_add_one, codepointLoop, if_pos hlt, hread]
      rfl
  | item hlt hread _ ih =>
      intro rounds out hrounds
      obtain ⟨rounds, rfl⟩ :=
        Nat.exists_eq_succ_of_ne_zero (Nat.ne_of_gt (Nat.zero_lt_of_lt hrounds))
      rw [decoder] at hread
      rw [Nat.succ_eq_add_one, codepointLoop, if_pos hlt, hread]
      dsimp only
      rw [ih (Nat.lt_of_succ_lt_succ hrounds), List.map_cons, List.append_assoc,
        List.singleton_append]

/-- What `codes` delivers for an item of a walk. -/
def delivered (r : ℕ × ℕ) : Value × Value := (posValue (r.1 + 1), posValue r.2)

theorem getInteger_posValue {z : ℤ} (hlo : -2 ^ 63 ≤ z) (hhi : z < 2 ^ 63) :
    ((posValue z).getInteger.getD 0).toInt = z := Int64.toInt_ofInt_of_le hlo (by omega)

theorem codesAux_eq {control : ℤ} (hlo : -2 ^ 63 ≤ control) (hhi : control < 2 ^ 63)
    (hcontrol : codesPos s control = Except.ok pos) :
    codesAux [Value.string s, posValue control] = codesItem s pos := by
  have hs : checkText (stackGet [Value.string s, posValue control] 0) "codes" 1 = Except.ok s := rfl
  have hi : ((stackGet [Value.string s, posValue control] 1).getInteger.getD 0).toInt = control :=
    getInteger_posValue hlo hhi
  rw [codesAux, hs, ok_bind, hi]
  dsimp only
  rw [hcontrol, ok_bind]

/-- Behind a delivered character the iterator goes on where it ends. -/
theorem codesPos_succ {code next : ℕ} (hpos : pos < 2 ^ 63 - 1)
    (hread : decoder s true pos = some (code, next)) :
    codesPos s (pos + 1) = Except.ok next := by
  rw [decoder] at hread
  rw [codesPos, if_neg (by omega), Int.add_sub_cancel, checkedPos_ok (by omega) (by omega),
    ok_bind, asUsize_natCast (by omega), hread]

/-- **The iterator** walks over the string. -/
theorem Iteration.of_walk (hlen : s.length < 2 ^ 63 - 1)
    (h : Walk (decoder s true) s.length pos items stuck) :
    ∀ {control : ℤ}, -2 ^ 63 ≤ control → control < 2 ^ 63 →
      codesPos s control = Except.ok pos →
      Iteration (Value.string s) (posValue control) (items.map delivered)
        (stuck.map fun _ => invalidCode) := by
  induction h with
  | ends hpos =>
      intro control hlo hhi hcontrol
      refine Iteration.ends ?_
      rw [codesAux_eq hlo hhi hcontrol, codesItem, if_pos hpos]
  | stuck hlt hread =>
      intro control hlo hhi hcontrol
      refine Iteration.raises ?_
      rw [decoder] at hread
      rw [codesAux_eq hlo hhi hcontrol, codesItem, if_neg (Nat.not_le.2 hlt), hread]
  | @item pos next a items stuck hlt hread _ ih =>
      intro control hlo hhi hcontrol
      have htail := @ih (pos + 1) (by omega) (by omega) (codesPos_succ (by omega) hread)
      refine Iteration.delivers ?_ htail
      rw [decoder] at hread
      rw [codesAux_eq hlo hhi hcontrol, codesItem, if_neg (Nat.not_le.2 hlt), hread]
      dsimp only
      rw [checkedPos_ok (by omega) (by omega), ok_bind]
      rfl

end Tcvm
