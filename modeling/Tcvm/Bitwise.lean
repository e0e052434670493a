/-
The bitwise operators against the manual.

The manual lets a float take part in a bitwise operation when it denotes an integer of 64 bits, and
shifts fill with zeros: a negative count shifts the other way, and a count of 64 or more shifts
everything out.  `op_bit` cuts the first rule off at `2 ^ 53` and panics beyond, takes every count
modulo 64, and keeps the sign when it shifts to the right.  This module says for which operands the
two agree.

* `logicalShift`, `BitOp.manual`, `manualBit` — the rules of the manual;
* `shl_eq_zero_iff`, `shl_eq_ushr_iff`, `sshr_eq_ushr_iff`, `sshr_eq_zero_iff`, `sshr_eq_shl_iff`
  — when shifts of 64 bits meet;
* `exactFloatToInt_eq_some_iff` — which floats take part;
* `BitOp.CountFits`, `OperandsFit` — the condition;
* **`bitwise_agrees_iff`** — the operators agree with the manual exactly under it.
-/

import Tcvm.Numeric

namespace Tcvm

open Binary64

/-! ### The manual -/

/-- Shift left, or right for a negative count, and fill with zeros. -/
def logicalShift (v : Int64) (n : ℤ) : Int64 :=
  if 64 ≤ n.natAbs then 0
  else if 0 ≤ n then Int64.ofBitVec (v.toBitVec <<< n.natAbs)
  else Int64.ofBitVec (v.toBitVec >>> n.natAbs)

/-- An operator of the manual on integers. -/
def BitOp.manual (lhs rhs : Int64) : BitOp → Int64
  | band => lhs &&& rhs
  | bor => lhs ||| rhs
  | bxor => lhs ^^^ rhs
  | shl => logicalShift lhs rhs.toInt
  | shr => logicalShift lhs (-rhs.toInt)

/-- The integer an operand stands for: a float does when `float_to_integer` succeeds. -/
def manualOperand : Value → Option Int64
  | Value.integer i => some i
  | Value.float f => floatToInteger f
  | _ => none

/-- A bitwise operation of the manual; it fails when an operand stands for no integer. -/
def manualBit (op : BitOp) (lhs rhs : Value) : Except Missed Value :=
  match manualOperand lhs, manualOperand rhs with
  | some l, some r => Except.ok (Value.integer (op.manual l r))
  | _, _ => Except.error Missed.declined

/-! ### Shifts of 64 bits -/

section Shifts

variable {x : BitVec 64} {j k : ℕ}

/-- Moving the low part of a number to the top gives its high part only for zero. -/
theorem mul_pow_mod_eq_div_iff {n : ℕ} (hn : n < 2 ^ 64) (hj : j < 64) :
    n * 2 ^ (64 - j) % 2 ^ 64 = n / 2 ^ j ↔ n = 0 := by
  have hpow : 2 ^ 64 = 2 ^ j * 2 ^ (64 - j) := by
    rw [← pow_add]
    congr 1
    omega
  constructor
  · intro h
    rw [hpow, Nat.mul_mod_mul_right] at h
    have hq : n / 2 ^ j < 2 ^ (64 - j) := by
      rw [Nat.div_lt_iff_lt_mul (by positivity), Nat.mul_comm, ← hpow]
      exact hn
    have hsplit := Nat.div_add_mod n (2 ^ j)
    rcases Nat.eq_zero_or_pos (n % 2 ^ j) with h0 | hpos
    · rw [h0, Nat.zero_mul] at h
      rw [h0, ← h] at hsplit
      omega
    · have := Nat.le_mul_of_pos_left (2 ^ (64 - j)) hpos
      omega
  · rintro rfl
    simp

theorem shl_eq_zero_iff (hk : k < 64) : x <<< k = 0#64 ↔ 2 ^ (64 - k) ∣ x.toNat := by
  have hpow : 2 ^ 64 = 2 ^ (64 - k) * 2 ^ k := by
    rw [← pow_add]
    congr 1
    omega
  rw [← BitVec.toNat_inj, BitVec.toNat_shiftLeft, Nat.shiftLeft_eq, BitVec.toNat_ofNat,
    Nat.zero_mod, ← Nat.dvd_iff_mod_eq_zero, hpow]
  exact Nat.mul_dvd_mul_iff_right (by positivity)

theorem shl_eq_ushr_iff (hj : j < 64) : x <<< (64 - j) = x >>> j ↔ x = 0#64 := by
  rw [← BitVec.toNat_inj, ← BitVec.toNat_inj, BitVec.toNat_shiftLeft, Nat.shiftLeft_eq,
    BitVec.toNat_ushiftRight, Nat.shiftRight_eq_div_pow, BitVec.toNat_ofNat, Nat.zero_mod]
  exact mul_pow_mod_eq_div_iff x.isLt hj

theorem sshr_eq_ushr_iff (hk : k < 64) :
    x.sshiftRight k = x >>> k ↔ k = 0 ∨ x.msb = false := by
  constructor
  · intro h
    by_contra hne
    obtain ⟨hk0, hmsb⟩ := not_or.1 hne
    have hm := congrArg BitVec.msb h
    rw [BitVec.msb_sshiftRight, BitVec.msb_ushiftRight] at hm
    rw [Bool.not_eq_false] at hmsb
    rw [hmsb] at hm
    simp [hk0] at hm
  · rintro (rfl | hmsb)
    · simp
    · exact BitVec.sshiftRight_eq_of_msb_false hmsb

theorem msb_eq_false_of_lt {n : ℕ} (hn : n < 64) (h : x.toNat < 2 ^ n) : x.msb = false := by
  rw [BitVec.msb_eq_false_iff_two_mul_lt]
  have : 2 ^ n ≤ 2 ^ 63 := Nat.pow_le_pow_right (by omega) (by omega)
  omega

theorem sshr_eq_zero_iff (hk : k < 64) : x.sshiftRight k = 0#64 ↔ x.toNat < 2 ^ k := by
  have hdiv : x >>> k = 0#64 ↔ x.toNat < 2 ^ k := by
    rw [← BitVec.toNat_inj, BitVec.toNat_ushiftRight, Nat.shiftRight_eq_div_pow,
      BitVec.toNat_ofNat, Nat.zero_mod, Nat.div_eq_zero_iff]
    simp
  constructor
  · intro h
    have hm := congrArg BitVec.msb h
    rw [BitVec.msb_sshiftRight] at hm
    rw [BitVec.sshiftRight_eq_of_msb_false (by simpa using hm)] at h
    exact hdiv.1 h
  · intro h
    rw [BitVec.sshiftRight_eq_of_msb_false (msb_eq_false_of_lt hk h)]
    exact hdiv.2 h

/-- Shifting the sign in from the left is no shift to the left, but for zero. -/
theorem sshr_eq_shl_iff (hj0 : 0 < j) (hj : j < 64) :
    x.sshiftRight (64 - j) = x <<< j ↔ x = 0#64 := by
  cases hmsb : x.msb with
  | false =>
      have hflip := shl_eq_ushr_iff (x := x) (j := 64 - j) (by omega)
      rw [BitVec.sshiftRight_eq_of_msb_false hmsb, eq_comm, ← hflip]
      have : 64 - (64 - j) = j := by omega
      rw [this]
  | true =>
      have hne : x ≠ 0#64 := by
        rintro rfl
        simp at hmsb
      refine iff_of_false (fun h => ?_) hne
      have hn := congrArg BitVec.toNat h
      rw [BitVec.toNat_sshiftRight, if_pos hmsb, BitVec.toNat_shiftLeft, Nat.shiftLeft_eq,
        Nat.shiftRight_eq_div_pow] at hn
      have hlow := (BitVec.msb_eq_true_iff_two_mul_ge).1 hmsb
      have hpow : 2 ^ 64 = 2 ^ (64 - j) * 2 ^ j := by
        rw [← pow_add]
        congr 1
        omega
      -- the left side is short of a multiple of `2 ^ j` by less than that
      have ht : (2 ^ 64 - 1 - x.toNat) / 2 ^ (64 - j) < 2 ^ (j - 1) := by
        rw [Nat.div_lt_iff_lt_mul (by positivity), ← pow_add]
        have : j - 1 + (64 - j) = 63 := by omega
        rw [this]
        omega
      have hhalf : 2 ^ j = 2 * 2 ^ (j - 1) := by
        rw [← pow_succ']
        congr 1
        omega
      have hdvd : 2 ^ j ∣ x.toNat * 2 ^ j % 2 ^ 64 := by
        rw [hpow, Nat.mul_mod_mul_right]
        exact Nat.dvd_mul_left _ _
      rw [← hn] at hdvd
      have hsum : 2 ^ j ∣ (2 ^ 64 - 1 - (2 ^ 64 - 1 - x.toNat) / 2 ^ (64 - j)) +
          ((2 ^ 64 - 1 - x.toNat) / 2 ^ (64 - j) + 1) := by
        have hle : (2 ^ 64 - 1 - x.toNat) / 2 ^ (64 - j) ≤ 2 ^ 64 - 1 :=
          (Nat.div_le_self _ _).trans (Nat.sub_le _ _)
        have : (2 ^ 64 - 1 - (2 ^ 64 - 1 - x.toNat) / 2 ^ (64 - j)) +
            ((2 ^ 64 - 1 - x.toNat) / 2 ^ (64 - j) + 1) = 2 ^ 64 := by omega
        rw [this]
        exact Nat.pow_dvd_pow 2 (by omega)
      have hstep := (Nat.dvd_add_right hdvd).1 hsum
      have := Nat.le_of_dvd (by omega) hstep
      omega

end Shifts

/-! ### The operands -/

/-- The bounds of `exact_float_to_int` are doubles. -/
theorem value_exactMin : value (integerToFloat exactMin) = -2 ^ 53 * (one : ℤ) := by
  decide +kernel

theorem value_exactMax : value (integerToFloat exactMax) = 2 ^ 53 * (one : ℤ) := by
  decide +kernel

/-- **The floats that take part** denote an integer of magnitude at most `2 ^ 53`. -/
theorem exactFloatToInt_eq_some_iff {f : UInt64} {i : Int64} :
    exactFloatToInt f = some i ↔ f64ToInt? f = some i.toInt ∧ |i.toInt| ≤ 2 ^ 53 := by
  unfold exactFloatToInt
  by_cases hfin : isNan f ∨ isInf f
  · rw [if_pos hfin]
    refine iff_of_false (by simp) fun h => ?_
    have hlt := (f64ToInt?_eq_some_iff.1 h.1).1
    rcases hfin with hnan | hinf
    · unfold isNan at hnan
      have := of_decide_eq_true hnan
      omega
    · unfold isInf at hinf
      have := of_decide_eq_true hinf
      omega
  · rw [if_neg hfin]
    obtain ⟨hnan, -⟩ := not_or.1 hfin
    rw [Bool.not_eq_true] at hnan
    have hmin : lt f (integerToFloat exactMin) = true ↔ value f < -2 ^ 53 * (one : ℤ) := by
      rw [lt_iff hnan (isNan_integerToFloat _), value_exactMin]
    have hmax : lt (integerToFloat exactMax) f = true ↔ 2 ^ 53 * (one : ℤ) < value f := by
      rw [lt_iff (isNan_integerToFloat _) hnan, value_exactMax]
    cases hz : f64ToInt? f with
    | none => simp
    | some z =>
        obtain ⟨-, hval⟩ := f64ToInt?_eq_some_iff.1 hz
        have hlow : value f < -2 ^ 53 * (one : ℤ) ↔ z < -2 ^ 53 := by
          rw [hval]
          exact Int.mul_lt_mul_right value_one_pos
        have hup : 2 ^ 53 * (one : ℤ) < value f ↔ 2 ^ 53 < z := by
          rw [hval]
          exact Int.mul_lt_mul_right value_one_pos
        have hcut : (lt f (integerToFloat exactMin) = true ∨
          lt (integerToFloat exactMax) f = true) ↔
            (z < -2 ^ 53 ∨ 2 ^ 53 < z) := by
          rw [hmin, hmax, hlow, hup]
        by_cases hrange : z < -2 ^ 53 ∨ 2 ^ 53 < z
        · rw [if_pos (hcut.2 hrange)]
          refine iff_of_false (by simp) fun h => ?_
          obtain rfl := Option.some_inj.1 h.1
          have := abs_le.1 h.2
          omega
        · rw [if_neg (fun h => hrange (hcut.1 h)), Option.some_inj, Option.some_inj]
          obtain ⟨h1, h2⟩ := not_or.1 hrange
          constructor
          · rintro rfl
            rw [Int64.toInt_ofInt_of_le (by omega) (by omega)]
            exact ⟨rfl, abs_le.2 ⟨by omega, by omega⟩⟩
          · rintro ⟨rfl, -⟩
            exact Int64.ofInt_toInt _

/-- A float that denotes an integer of magnitude at most `2 ^ 53`, or no float at all. -/
def Narrow (v : Value) : Prop :=
  ∀ f, v = Value.float f → ∃ z, f64ToInt? f = some z ∧ |z| ≤ 2 ^ 53

/-- A narrow operand is read as the manual reads it. -/
theorem bitOperand_of_narrow {v : Value} (h : Narrow v) :
    bitOperand v =
      match manualOperand v with
      | some i => Except.ok i
      | none => Except.error Missed.declined := by
  cases v with
  | float f =>
      obtain ⟨z, hz, hrange⟩ := h f rfl
      have hz' := abs_le.1 hrange
      have hi : (Int64.ofInt z).toInt = z := Int64.toInt_ofInt_of_le (by omega) (by omega)
      have hexact : exactFloatToInt f = some (Int64.ofInt z) :=
        exactFloatToInt_eq_some_iff.2 ⟨by rw [hi]; exact hz, by rw [hi]; exact hrange⟩
      have hlib : floatToInteger f = some (Int64.ofInt z) :=
        floatToInteger_eq_some_iff.2 (by rw [hi]; exact hz)
      simp only [bitOperand, manualOperand, hexact, hlib]
  | _ => rfl

/-- Any other float stops the host. -/
theorem bitOperand_of_not_narrow {v : Value} (h : ¬ Narrow v) :
    bitOperand v = Except.error Missed.panic := by
  unfold Narrow at h
  push Not at h
  obtain ⟨f, rfl, hf⟩ := h
  cases hexact : exactFloatToInt f with
  | none => simp only [bitOperand, hexact]
  | some i =>
      obtain ⟨hz, hrange⟩ := exactFloatToInt_eq_some_iff.1 hexact
      exact absurd hrange (Int.not_le.2 (hf _ hz))

/-! ### The counts -/

theorem shiftAmount_eq (n : Int64) : shiftAmount n = (n.toInt % 64).toNat := by
  unfold shiftAmount
  rw [UInt64.toNat_toUInt32]
  have hn : (n.toUInt64.toNat : ℤ) = n.toInt % 2 ^ 64 := by
    rw [← Int64.toInt_toBitVec, BitVec.toInt_eq_toNat_cond, Int64.toNat_toBitVec]
    have := n.toUInt64.toNat_lt
    split <;> omega
  omega

/-- When an operator's result on two integers is that of the manual.  A shift by 64 or more, or by
a negative count, is taken modulo 64, and a shift to the right keeps the sign. -/
def BitOp.CountFits (v n : Int64) : BitOp → Prop
  | shl => v = 0 ∨ (0 ≤ n.toInt ∧ n.toInt < 64) ∨
      (64 ≤ |n.toInt| ∧ 2 ^ (64 - (n.toInt % 64).toNat) ∣ v.toUInt64.toNat)
  | shr => v = 0 ∨ n = 0 ∨ (0 ≤ n.toInt ∧ n.toInt < 64 ∧ 0 ≤ v.toInt) ∨
      (64 ≤ |n.toInt| ∧ v.toUInt64.toNat < 2 ^ (n.toInt % 64).toNat)
  | _ => True

theorem ofBitVec_eq_iff {x y : BitVec 64} : Int64.ofBitVec x = Int64.ofBitVec y ↔ x = y := by
  constructor
  · intro h
    have := congrArg Int64.toBitVec h
    simpa using this
  · rintro rfl
    rfl

theorem ofBitVec_eq_zero_iff {x : BitVec 64} : Int64.ofBitVec x = 0 ↔ x = 0#64 := ofBitVec_eq_iff

theorem toNat_zero : (Int64.toUInt64 0).toNat = 0 := rfl

theorem toBitVec_eq_zero_iff (v : Int64) : v.toBitVec = 0#64 ↔ v = 0 := by
  rw [← Int64.toBitVec_inj]
  rfl

theorem wrappingShl_eq_iff (v n : Int64) :
    wrappingShl v n = logicalShift v n.toInt ↔ BitOp.shl.CountFits v n := by
  unfold wrappingShl logicalShift BitOp.CountFits
  rw [shiftAmount_eq]
  by_cases hbig : 64 ≤ n.toInt.natAbs
  · have habs : 64 ≤ |n.toInt| := by rw [Int.abs_eq_natAbs]; omega
    rw [if_pos hbig, ofBitVec_eq_zero_iff, shl_eq_zero_iff (by omega), Int64.toNat_toBitVec]
    constructor
    · exact fun h => Or.inr (Or.inr ⟨habs, h⟩)
    · rintro (rfl | h | h)
      · rw [toNat_zero]
        exact Nat.dvd_zero _
      · omega
      · exact h.2
  · rw [if_neg hbig]
    rcases Int.lt_or_le n.toInt 0 with hneg | hpos
    · have hk : (n.toInt % 64).toNat = 64 - n.toInt.natAbs := by omega
      have hflip := shl_eq_ushr_iff (x := v.toBitVec) (j := n.toInt.natAbs) (by omega)
      rw [if_neg (by omega), ofBitVec_eq_iff, hk, hflip, toBitVec_eq_zero_iff]
      constructor
      · exact Or.inl
      · rintro (h | h | h)
        · exact h
        · omega
        · rw [Int.abs_eq_natAbs] at h
          omega
    · have hk : (n.toInt % 64).toNat = n.toInt.natAbs := by omega
      rw [if_pos hpos, hk]
      exact iff_of_true rfl (Or.inr (Or.inl ⟨hpos, by omega⟩))

theorem msb_eq_false_iff (v : Int64) : v.toBitVec.msb = false ↔ 0 ≤ v.toInt := by
  rw [BitVec.msb_eq_toInt, Int64.toInt_toBitVec]
  simp

theorem wrappingShr_eq_iff (v n : Int64) :
    wrappingShr v n = logicalShift v (-n.toInt) ↔ BitOp.shr.CountFits v n := by
  unfold wrappingShr logicalShift BitOp.CountFits
  rw [shiftAmount_eq, Int.natAbs_neg]
  have hn0 : n = 0 ↔ n.toInt = 0 := (toInt_eq_zero_iff n).symm
  by_cases hbig : 64 ≤ n.toInt.natAbs
  · have habs : 64 ≤ |n.toInt| := by rw [Int.abs_eq_natAbs]; omega
    rw [if_pos hbig, ofBitVec_eq_zero_iff, sshr_eq_zero_iff (by omega), Int64.toNat_toBitVec]
    constructor
    · exact fun h => Or.inr (Or.inr (Or.inr ⟨habs, h⟩))
    · rintro (rfl | h | h | h)
      · rw [toNat_zero]
        positivity
      · rw [hn0] at h
        omega
      · omega
      · exact h.2
  · have hsmall : ¬ 64 ≤ |n.toInt| := by rw [Int.abs_eq_natAbs]; omega
    rw [if_neg hbig]
    rcases Int.lt_trichotomy n.toInt 0 with hneg | h0 | hpos
    · have hk : (n.toInt % 64).toNat = 64 - n.toInt.natAbs := by omega
      have hflip := sshr_eq_shl_iff (x := v.toBitVec) (j := n.toInt.natAbs) (by omega) (by omega)
      rw [if_pos (by omega), ofBitVec_eq_iff, hk, hflip, toBitVec_eq_zero_iff]
      constructor
      · exact Or.inl
      · rintro (h | h | h | h)
        · exact h
        · rw [hn0] at h
          omega
        · omega
        · exact absurd h.1 hsmall
    · rw [h0]
      exact iff_of_true (by simp) (Or.inr (Or.inl (hn0.2 h0)))
    · have hk : (n.toInt % 64).toNat = n.toInt.natAbs := by omega
      rw [if_neg (by omega), ofBitVec_eq_iff, hk, sshr_eq_ushr_iff (by omega), msb_eq_false_iff]
      constructor
      · rintro (h | h)
        · omega
        · exact Or.inr (Or.inr (Or.inl ⟨by omega, by omega, h⟩))
      · rintro (rfl | h | h | h)
        · exact Or.inr (Int.le_refl _)
        · rw [hn0] at h
          omega
        · exact Or.inr h.2.2
        · exact absurd h.1 hsmall

theorem int_eq_manual_iff (op : BitOp) (v n : Int64) :
    op.int v n = op.manual v n ↔ op.CountFits v n := by
  cases op with
  | shl => exact wrappingShl_eq_iff v n
  | shr => exact wrappingShr_eq_iff v n
  | _ => exact iff_of_true rfl trivial

/-- The host's shifts are opposite to each other only at multiples of 64. -/
theorem wrappingShl_eq_wrappingShr_iff (v n : Int64) :
    wrappingShl v n = wrappingShr v (-n) ↔ v = 0 ∨ (64 : ℤ) ∣ n.toInt := by
  have hneg : (-n).toInt % 64 = -n.toInt % 64 := by
    rw [Int64.toInt_neg, Int.bmod_def]
    split <;> omega
  unfold wrappingShl wrappingShr
  rw [shiftAmount_eq, shiftAmount_eq, hneg, ofBitVec_eq_iff]
  by_cases hdvd : (64 : ℤ) ∣ n.toInt
  · have h1 : (n.toInt % 64).toNat = 0 := by omega
    have h2 : (-n.toInt % 64).toNat = 0 := by omega
    rw [h1, h2]
    exact iff_of_true (by simp) (Or.inr hdvd)
  · have hk : (-n.toInt % 64).toNat = 64 - (n.toInt % 64).toNat := by omega
    rw [hk, eq_comm, sshr_eq_shl_iff (by omega) (by omega), toBitVec_eq_zero_iff]
    simp [hdvd]

/-! ### The operators -/

/-- The operands on which an operator follows the manual. -/
structure OperandsFit (op : BitOp) (lhs rhs : Value) : Prop where
  left : Narrow lhs
  /-- The right operand is read when the left one stands for an integer. -/
  right : manualOperand lhs ≠ none → Narrow rhs
  count : ∀ a b, manualOperand lhs = some a → manualOperand rhs = some b → op.CountFits a b

theorem manualBit_ne_panic (op : BitOp) (lhs rhs : Value) :
    manualBit op lhs rhs ≠ Except.error Missed.panic := by
  unfold manualBit
  split <;> simp

theorem opBit_eq_manualBit_iff (op : BitOp) (lhs rhs : Value) :
    opBit op lhs rhs = manualBit op lhs rhs ↔ OperandsFit op lhs rhs := by
  by_cases hl : Narrow lhs
  · have hleft := bitOperand_of_narrow hl
    cases ha : manualOperand lhs with
    | none =>
        rw [ha] at hleft
        refine iff_of_true ?_ ⟨hl, fun h => absurd ha h, fun a b h => ?_⟩
        · simp [opBit, manualBit, hleft, ha, bind, Except.bind]
        · rw [ha] at h
          exact absurd h (by simp)
    | some a =>
        rw [ha] at hleft
        by_cases hr : Narrow rhs
        · have hright := bitOperand_of_narrow hr
          cases hb : manualOperand rhs with
          | none =>
              rw [hb] at hright
              refine iff_of_true ?_ ⟨hl, fun _ => hr, fun a b _ h => ?_⟩
              · simp [opBit, manualBit, hleft, hright, ha, hb, bind, Except.bind]
              · rw [hb] at h
                exact absurd h (by simp)
          | some b =>
              rw [hb] at hright
              have hcode : opBit op lhs rhs = Except.ok (Value.integer (op.int a b)) := by
                simp [opBit, hleft, hright, bind, Except.bind]
              have hmanual : manualBit op lhs rhs =
                  Except.ok (Value.integer (op.manual a b)) := by
                simp [manualBit, ha, hb]
              rw [hcode, hmanual, Except.ok.injEq, Value.integer.injEq, int_eq_manual_iff]
              constructor
              · intro h
                refine ⟨hl, fun _ => hr, fun a' b' ha' hb' => ?_⟩
                rw [ha, Option.some_inj] at ha'
                rw [hb, Option.some_inj] at hb'
                subst ha' hb'
                exact h
              · exact fun h => h.count a b ha hb
        · have hright := bitOperand_of_not_narrow hr
          refine iff_of_false (fun h => ?_) fun h => hr (h.right (by simp [ha]))
          refine manualBit_ne_panic op lhs rhs (h.symm.trans ?_)
          simp [opBit, hleft, hright, bind, Except.bind]
  · refine iff_of_false (fun h => ?_) fun h => hl h.left
    refine manualBit_ne_panic op lhs rhs (h.symm.trans ?_)
    simp [opBit, bitOperand_of_not_narrow hl, bind, Except.bind]

/-- `exact_float_to_int` is `float_to_integer` up to `2 ^ 53`. -/
theorem exactFloatToInt_eq_iff (f : UInt64) :
    exactFloatToInt f = floatToInteger f ↔
      ∀ i, floatToInteger f = some i → |i.toInt| ≤ 2 ^ 53 := by
  constructor
  · intro h i hi
    exact (exactFloatToInt_eq_some_iff.1 (h.trans hi)).2
  · intro h
    apply Option.ext
    intro i
    rw [exactFloatToInt_eq_some_iff, ← floatToInteger_eq_some_iff]
    exact ⟨fun hi => hi.1, fun hi => ⟨hi, h i hi⟩⟩

/-- **When the bitwise operators follow the manual**: the operands are integers, narrow floats or
no numbers, and a shift does not need its count as it is.  The two shifts are opposite to each
other at multiples of 64, and the two conversions of a float agree up to `2 ^ 53`. -/
theorem bitwise_agrees_iff (op : BitOp) (lhs rhs : Value) (v n : Int64) (f : UInt64) :
    (opBit op lhs rhs = manualBit op lhs rhs ↔ OperandsFit op lhs rhs) ∧
      (BitOp.shl.int v n = BitOp.shr.int v (-n) ↔ v = 0 ∨ (64 : ℤ) ∣ n.toInt) ∧
        (exactFloatToInt f = floatToInteger f ↔
          ∀ i, floatToInteger f = some i → |i.toInt| ≤ 2 ^ 53) :=
  ⟨opBit_eq_manualBit_iff op lhs rhs, wrappingShl_eq_wrappingShr_iff v n, exactFloatToInt_eq_iff f⟩

/-- `1.5 & 1` panics where the manual fails, and `1 << 64` is 1 where the manual gives 0. -/
theorem bitwise_differs :
    opBit BitOp.band (Value.float 0x3FF8000000000000) (Value.integer 1) =
        Except.error Missed.panic ∧
      manualBit BitOp.band (Value.float 0x3FF8000000000000) (Value.integer 1) =
          Except.error Missed.declined ∧
        opBit BitOp.shl (Value.integer 1) (Value.integer 64) = Except.ok (Value.integer 1) ∧
          manualBit BitOp.shl (Value.integer 1) (Value.integer 64) =
            Except.ok (Value.integer 0) := by
  refine ⟨?_, ?_, ?_, ?_⟩ <;> decide +kernel

end Tcvm
