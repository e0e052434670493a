/-
# Integers as bytes

An integer of 64 bits is written as a list of bytes, least significant first or most significant
first, and read back.  A width below eight bytes keeps the low bytes; a signed reading extends the
sign with an exclusive or and a subtraction.

## Main definitions

* `littleBytes`, `joinBytes` — the bytes of a word, and the word of bytes;
* `inOrder`, `byteAt` — a byte order, and the byte of a given significance;
* `signExtend` — the signed reading of a narrow word.

## Main results

* `joinBytes_littleBytes` — **the low bytes are the word modulo a power of two**;
* `byteAt_inOrder` — a byte is found where its order puts it;
* `signExtend_low` — **sign extension recovers every integer that fits**.
-/

import Mathlib.Data.Nat.Bitwise
import Mathlib.Tactic.Ring

namespace Tcvm

/-! ### Words and bytes -/

/-- The `size` low bytes of a word, least significant first; the word is exhausted to zero. -/
def littleBytes : ℕ → UInt64 → List UInt8
  | 0, _ => []
  | size + 1, v => (v &&& 0xff).toUInt8 :: littleBytes size (v >>> 8)

/-- The word of bytes, least significant first. -/
def joinBytes : List UInt8 → UInt64
  | [] => 0
  | b :: bs => (joinBytes bs <<< 8) ||| b.toUInt64

/-- Bytes in little or big order. -/
def inOrder (little : Bool) (bs : List UInt8) : List UInt8 := if little then bs else bs.reverse

/-- The byte of significance `i`, of `size` bytes at the front of a list. -/
def byteAt (bs : List UInt8) (little : Bool) (size i : ℕ) : UInt8 :=
  bs.getD (if little then i else size - 1 - i) 0

@[simp] theorem littleBytes_length (size : ℕ) (v : UInt64) :
    (littleBytes size v).length = size := by
  induction size generalizing v with
  | zero => rfl
  | succ size ih => simp [littleBytes, ih]

@[simp] theorem inOrder_length (little : Bool) (bs : List UInt8) :
    (inOrder little bs).length = bs.length := by
  cases little <;> simp [inOrder]

/-- The natural number of bytes, least significant first. -/
def bytesToNat : List UInt8 → ℕ
  | [] => 0
  | b :: bs => b.toNat + 256 * bytesToNat bs

theorem bytesToNat_lt (bs : List UInt8) : bytesToNat bs < 256 ^ bs.length := by
  induction bs with
  | nil => simp [bytesToNat]
  | cons b bs ih =>
      have hb := b.toNat_lt
      rw [bytesToNat, List.length_cons, Nat.pow_succ]
      omega

theorem joinBytes_toNat {bs : List UInt8} (h : bs.length ≤ 8) :
    (joinBytes bs).toNat = bytesToNat bs := by
  induction bs with
  | nil => rfl
  | cons b bs ih =>
      have hlen : bs.length ≤ 7 := Nat.le_of_succ_le_succ h
      have hlt : bytesToNat bs < 256 ^ 7 :=
        (bytesToNat_lt bs).trans_le (Nat.pow_le_pow_right (by omega) hlen)
      have hb : b.toNat < 2 ^ 8 := b.toNat_lt
      rw [joinBytes, UInt64.toNat_or, UInt64.toNat_shiftLeft, ih (by omega)]
      simp only [UInt8.toNat_toUInt64]
      have hshift : bytesToNat bs <<< ((8 : UInt64).toNat % 64) % 2 ^ 64 =
        2 ^ 8 * bytesToNat bs := by
        rw [show (8 : UInt64).toNat % 64 = 8 from rfl, Nat.shiftLeft_eq]
        omega
      rw [hshift, ← Nat.two_pow_add_eq_or_of_lt hb, bytesToNat]
      omega

theorem bytesToNat_littleBytes (size : ℕ) (v : UInt64) :
    bytesToNat (littleBytes size v) = v.toNat % 256 ^ size := by
  induction size generalizing v with
  | zero => simp [littleBytes, bytesToNat, Nat.mod_one]
  | succ size ih =>
      have hlow : ((v &&& 0xff).toUInt8).toNat = v.toNat % 256 := by
        simp only [UInt64.toNat_toUInt8, UInt64.toNat_and]
        rw [show (0xff : UInt64).toNat = 2 ^ 8 - 1 from rfl, Nat.and_two_pow_sub_one_eq_mod]
        omega
      have hhigh : (v >>> 8).toNat = v.toNat / 256 := by
        rw [UInt64.toNat_shiftRight]
        exact Nat.shiftRight_eq_div_pow _ 8
      rw [littleBytes, bytesToNat, hlow, ih, hhigh, Nat.pow_succ', Nat.mod_mul]

/-- **The low bytes of a word are the word modulo a power of two.** -/
theorem joinBytes_littleBytes {size : ℕ} (h : size ≤ 8) (v : UInt64) :
    (joinBytes (littleBytes size v)).toNat = v.toNat % 2 ^ (8 * size) := by
  rw [joinBytes_toNat (by simpa using h), bytesToNat_littleBytes, Nat.pow_mul]

/-- All the bytes of a word, and any number of zeros above. -/
theorem littleBytes_take {n size : ℕ} (h : n ≤ size) (v : UInt64) :
    (littleBytes size v).take n = littleBytes n v := by
  induction n generalizing size v with
  | zero => simp [littleBytes]
  | succ n ih =>
      obtain ⟨size, rfl⟩ : ∃ m, size = m + 1 := ⟨size - 1, by omega⟩
      rw [littleBytes, littleBytes, List.take_succ_cons, ih (by omega)]

theorem littleBytes_getD {size i : ℕ} (h : i < size) (v : UInt64) :
    ((littleBytes size v).getD i 0).toNat = v.toNat / 256 ^ i % 256 := by
  induction size generalizing i v with
  | zero => omega
  | succ size ih =>
      cases i with
      | zero =>
          simp only [littleBytes, List.getD_cons_zero, UInt64.toNat_toUInt8, UInt64.toNat_and]
          rw [show (0xff : UInt64).toNat = 2 ^ 8 - 1 from rfl, Nat.and_two_pow_sub_one_eq_mod]
          simp
      | succ i =>
          have hhigh : (v >>> 8).toNat = v.toNat / 256 := by
            rw [UInt64.toNat_shiftRight]
            exact Nat.shiftRight_eq_div_pow _ 8
          rw [littleBytes, List.getD_cons_succ, ih (by omega), hhigh, Nat.pow_succ',
            Nat.div_div_eq_div_mul]

/-- Above eight bytes a word has zeros. -/
theorem littleBytes_getD_high {size i : ℕ} (h : i < size) (hi : 8 ≤ i) (v : UInt64) :
    (littleBytes size v).getD i 0 = 0 := by
  have hlt : v.toNat < 256 ^ i :=
    v.toNat_lt.trans_le (Nat.pow_le_pow_right (n := 256) (by omega) hi)
  apply UInt8.toNat_inj.mp
  rw [littleBytes_getD h, Nat.div_eq_of_lt hlt]
  rfl

/-! ### Byte orders -/

/-- **A byte is found where its order puts it**, whatever comes after. -/
theorem byteAt_inOrder (bs : List UInt8) {i : ℕ} (h : i < bs.length) (little : Bool)
    (more : List UInt8) : byteAt (inOrder little bs ++ more) little bs.length i = bs.getD i 0 := by
  have hat : (if little then i else bs.length - 1 - i) < (inOrder little bs).length := by
    rw [inOrder_length]
    split <;> omega
  rw [byteAt, List.getD_append _ _ _ _ hat]
  cases little with
  | true => simp [inOrder]
  | false =>
      have hlt : bs.length - 1 - i < bs.reverse.length := by simp; omega
      simp only [inOrder, Bool.false_eq_true, if_false]
      rw [List.getD_eq_getElem _ _ hlt, List.getElem_reverse, List.getD_eq_getElem _ _ h]
      congr 1
      omega

theorem map_byteAt_inOrder (bs : List UInt8) {n : ℕ} (h : n ≤ bs.length) (little : Bool)
    (more : List UInt8) :
    (List.range n).map (byteAt (inOrder little bs ++ more) little bs.length) = bs.take n := by
  apply List.ext_getElem
  · simpa using h
  · intro i hi hi'
    have hlt : i < bs.length := by
      simp at hi
      omega
    rw [List.getElem_map, List.getElem_range, byteAt_inOrder bs hlt, List.getD_eq_getElem _ _ hlt,
      List.getElem_take]

/-! ### Signs -/

/-- The signed reading of a word whose sign bit is `mask`. -/
def signExtend (res mask : UInt64) : UInt64 := (res ^^^ mask) - mask

theorem xor_two_pow_of_lt {a k : ℕ} (h : a < 2 ^ k) : a ^^^ 2 ^ k = a + 2 ^ k := by
  have hor := Nat.two_pow_add_eq_or_of_lt h 1
  rw [Nat.mul_one] at hor
  rw [Nat.add_comm, hor]
  apply Nat.eq_of_testBit_eq
  intro i
  rw [Nat.testBit_xor, Nat.testBit_or]
  by_cases hi : k = i
  · subst hi
    rw [Nat.testBit_lt_two_pow h]
    simp
  · simp [hi]

theorem xor_two_pow_of_le {a k : ℕ} (hle : 2 ^ k ≤ a) (h : a < 2 ^ (k + 1)) :
    a ^^^ 2 ^ k = a - 2 ^ k := by
  have hlt : a - 2 ^ k < 2 ^ k := by
    rw [Nat.pow_succ] at h
    omega
  have hxor := xor_two_pow_of_lt hlt
  rw [Nat.sub_add_cancel hle] at hxor
  rw [← hxor, Nat.xor_assoc, Nat.xor_self, Nat.xor_zero, hxor]

/-- The bits of an integer, as a natural number. -/
theorem toUInt64_toNat (n : Int64) :
    (n.toUInt64.toNat : ℤ) = if 0 ≤ n.toInt then n.toInt else n.toInt + 2 ^ 64 := by
  have hlt := n.toUInt64.toNat_lt
  have hcond : n.toInt =
      if 2 * n.toUInt64.toNat < 2 ^ 64 then (n.toUInt64.toNat : ℤ)
      else (n.toUInt64.toNat : ℤ) - 2 ^ 64 := BitVec.toInt_eq_toNat_cond _
  split at hcond <;> split <;> omega

/-- **Sign extension recovers every integer that fits.** -/
theorem signExtend_low {k : ℕ} (hk : k < 63) {n : Int64} {low : UInt64}
    (hmin : -2 ^ k ≤ n.toInt) (hmax : n.toInt < 2 ^ k)
    (hlow : low.toNat = n.toUInt64.toNat % 2 ^ (k + 1)) {mask : UInt64}
    (hmask : mask.toNat = 2 ^ k) :
    signExtend low mask = n.toUInt64 := by
  have hbits := toUInt64_toNat n
  have hdouble : 2 ^ (k + 1) = 2 * 2 ^ k := Nat.pow_succ'
  have hbound : 2 ^ (k + 1) ≤ 2 ^ 63 := Nat.pow_le_pow_right (by omega) (by omega)
  have hmin' : -((2 ^ k : ℕ) : ℤ) ≤ n.toInt := by simpa using hmin
  have hmax' : n.toInt < ((2 ^ k : ℕ) : ℤ) := by simpa using hmax
  generalize hp : 2 ^ k = p at *
  apply UInt64.toNat_inj.mp
  rw [signExtend, UInt64.toNat_sub, UInt64.toNat_xor, hmask]
  by_cases hsign : 0 ≤ n.toInt
  · -- the low bytes are the integer, and its sign bit is clear
    rw [if_pos hsign] at hbits
    have hlow' : low.toNat = n.toUInt64.toNat := by
      rw [hlow, Nat.mod_eq_of_lt (by omega)]
    have hxor : low.toNat ^^^ p = low.toNat + p := by
      rw [← hp]
      exact xor_two_pow_of_lt (by omega)
    rw [hxor]
    omega
  · -- the integer is a multiple of the modulus below its bits
    rw [if_neg hsign] at hbits
    have hfactor : 2 ^ 64 = 2 ^ (k + 1) * 2 ^ (63 - k) := by
      rw [← Nat.pow_add]
      congr 1
      omega
    have hlow' : (low.toNat : ℤ) = n.toInt + 2 * p := by
      have hsplit : n.toUInt64.toNat =
        (n.toInt + 2 * p).toNat + 2 ^ (k + 1) * (2 ^ (63 - k) - 1) := by
        rw [Nat.mul_sub, ← hfactor, hdouble]
        omega
      rw [hlow, hsplit, Nat.add_mul_mod_self_left, Nat.mod_eq_of_lt (by omega)]
      omega
    have hxor : low.toNat ^^^ p = low.toNat - p := by
      rw [← hp]
      exact xor_two_pow_of_le (by omega) (by omega)
    rw [hxor]
    omega

end Tcvm
