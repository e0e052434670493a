/-
The arithmetic and bitwise operators on numbers.

`op_arith` works on two integers or on two doubles, and `op_bit` on two integers; what is no number
is left to the metamethods.  Integers wrap around, and the operators that round down are built from
the truncating division of the host, which stops on a zero divisor.

* `ArithOp`, `BitOp` — the operators with their integer and float forms;
* `Missed`, `opArith`, `opBit`, `exactFloatToInt` — the operators on values;
* `Heap.binopMetamethod`, `Heap.binopHandler` — the instructions that run them;
* `adjusted_div`, `adjusted_rem` — rounding down by adjusting a truncated quotient;
* **`integer_division`** — integer division and modulo, over all of `i64`.
-/

import Mathlib.Data.Rat.Floor
import Tcvm.FloatValues

namespace Tcvm

open Binary64

/-- The host's `powf`, which rounds as its mathematical library does. -/
structure Libm where
  powf : UInt64 → UInt64 → UInt64

/-- What keeps an operator from giving a value: it declines (`None`), or the host panics. -/
inductive Missed
  | declined
  | panic
  deriving DecidableEq

/-! ### Arithmetic -/

inductive ArithOp
  | add | sub | mul | mod | pow | div | idiv
  deriving DecidableEq, Repr

/-- `wrapping_div`: truncates, and `MIN / -1` is `MIN`; it panics on zero. -/
def wrappingDiv (lhs rhs : Int64) : Except Missed Int64 :=
  if rhs = 0 then Except.error Missed.panic else Except.ok (lhs / rhs)

/-- `wrapping_rem`: has the sign of `lhs`, and `MIN % -1` is zero; it panics on zero. -/
def wrappingRem (lhs rhs : Int64) : Except Missed Int64 :=
  if rhs = 0 then Except.error Missed.panic else Except.ok (lhs % rhs)

/-- `i as f64`. -/
def integerToFloat (i : Int64) : UInt64 := ofInt i.toInt

theorem value_minValue : value (integerToFloat Int64.minValue) = -2 ^ 63 * (one : ℤ) := by
  decide +kernel

/-- The greatest integer rounds up. -/
theorem value_maxValue : value (integerToFloat Int64.maxValue) = 2 ^ 63 * (one : ℤ) := by
  decide +kernel

@[simp] theorem isNan_integerToFloat (i : Int64) : isNan (integerToFloat i) = false := isNan_ofInt _

namespace ArithOp

variable (m : Libm)

/-- `INT_ZERO_DIVISOR_RAISES`. -/
def intZeroDivisorRaises : ArithOp → Bool
  | mod | idiv => true
  | _ => false

/-- `Op::int`. -/
def int (lhs rhs : Int64) : ArithOp → Except Missed Value
  | add => Except.ok (Value.integer (lhs + rhs))
  | sub => Except.ok (Value.integer (lhs - rhs))
  | mul => Except.ok (Value.integer (lhs * rhs))
  | mod => do
      let r ← wrappingRem lhs rhs
      let adjusted := if r ≠ 0 ∧ r ^^^ rhs < 0 then r + rhs else r
      Except.ok (Value.integer adjusted)
  | pow => Except.ok (Value.float (m.powf (integerToFloat lhs) (integerToFloat rhs)))
  | div => Except.ok (Value.float (Binary64.div (integerToFloat lhs) (integerToFloat rhs)))
  | idiv => do
      let q ← wrappingDiv lhs rhs
      let r ← wrappingRem lhs rhs
      let adjusted := if r ≠ 0 ∧ lhs ^^^ rhs < 0 then q - 1 else q
      Except.ok (Value.integer adjusted)

/-- `Op::float`. -/
def float (lhs rhs : UInt64) : ArithOp → UInt64
  | add => Binary64.add lhs rhs
  | sub => Binary64.sub lhs rhs
  | mul => Binary64.mul lhs rhs
  | mod =>
      let r := rem lhs rhs
      if (lt 0 r ∧ lt rhs 0) ∨ (lt r 0 ∧ lt 0 rhs) then Binary64.add r rhs else r
  | pow => m.powf lhs rhs
  | div => Binary64.div lhs rhs
  | idiv => floor (Binary64.div lhs rhs)

end ArithOp

/-- A number as a double. -/
def Value.asFloat : Value → Option UInt64
  | Value.integer i => some (integerToFloat i)
  | Value.float f => some f
  | _ => none

/-- `op_arith`. -/
def opArith (m : Libm) (op : ArithOp) (lhs rhs : Value) : Except Missed Value :=
  match lhs, rhs with
  | Value.integer li, Value.integer ri =>
      if op.intZeroDivisorRaises ∧ ri = 0 then Except.error Missed.declined else op.int m li ri
  | _, _ =>
      match lhs.asFloat, rhs.asFloat with
      | some x, some y => Except.ok (Value.float (op.float m x y))
      | _, _ => Except.error Missed.declined

/-! ### Bitwise operators -/

inductive BitOp
  | band | bor | bxor | shl | shr
  deriving DecidableEq, Repr

/-- `rhs as u32`, masked to the width of an integer by the host's wrapping shifts. -/
def shiftAmount (rhs : Int64) : ℕ := rhs.toUInt64.toUInt32.toNat % 64

/-- `wrapping_shl`. -/
def wrappingShl (lhs rhs : Int64) : Int64 := Int64.ofBitVec (lhs.toBitVec <<< shiftAmount rhs)

/-- `wrapping_shr` of a signed integer keeps its sign. -/
def wrappingShr (lhs rhs : Int64) : Int64 :=
  Int64.ofBitVec (lhs.toBitVec.sshiftRight (shiftAmount rhs))

/-- `Op::int`. -/
def BitOp.int (lhs rhs : Int64) : BitOp → Int64
  | band => lhs &&& rhs
  | bor => lhs ||| rhs
  | bxor => lhs ^^^ rhs
  | shl => wrappingShl lhs rhs
  | shr => wrappingShr lhs rhs

/-- The bounds of `exact_float_to_int`, where `2 << 53 - 1` is `2 << 52`. -/
def exactMin : Int64 := -((2 : Int64) <<< (52 : Int64))

def exactMax : Int64 := (2 : Int64) <<< (52 : Int64)

/-- `exact_float_to_int`. -/
def exactFloatToInt (f : UInt64) : Option Int64 :=
  if isNan f ∨ isInf f then none
  else if lt f (integerToFloat exactMin) ∨ lt (integerToFloat exactMax) f then none
  else
    -- `f.trunc() != f` where `f` denotes no integer
    match f64ToInt? f with
    | none => none
    | some z => some (Int64.ofInt z)

/-- An operand of `op_bit`, where a float is unwrapped. -/
def bitOperand : Value → Except Missed Int64
  | Value.integer i => Except.ok i
  | Value.float f =>
      match exactFloatToInt f with
      | some i => Except.ok i
      | none => Except.error Missed.panic
  | _ => Except.error Missed.declined

/-- `op_bit`. -/
def opBit (op : BitOp) (lhs rhs : Value) : Except Missed Value := do
  let l ← bitOperand lhs
  let r ← bitOperand rhs
  Except.ok (Value.integer (op.int l r))

/-! ### The instructions -/

namespace Heap

variable (h : Heap)

/-- `get_metamethod` of a table. -/
def getMetamethod (t : TableId) (name : LuaString) : Value :=
  match (h.tables t).metatable with
  | some mt => h.rawGet mt (Value.string name)
  | none => Value.nil

/-- `binop_metamethod`: only tables have metamethods of binary operators. -/
def binopMetamethod (lhs rhs : Value) (name : LuaString) : Value :=
  let right :=
    match rhs.getTable with
    | some t => h.getMetamethod t name
    | none => Value.nil
  match lhs.getTable with
  | some t =>
      let m := h.getMetamethod t name
      if !m.isNil then m else right
  | none => right

/-- `binop_handler!`: what the instruction of an operator does with the operator's answer. -/
def binopHandler (answer : Except Missed Value) (lhs rhs : Value) (mm : Metamethod) : Outcome :=
  match answer with
  | Except.ok v => Outcome.value v
  | Except.error Missed.panic => Outcome.panic
  | Except.error Missed.declined =>
      let func := h.binopMetamethod lhs rhs mm.name
      if func.isNil then Outcome.raise else Outcome.invoke func [lhs, rhs]

def opIdiv (m : Libm) (lhs rhs : Value) : Outcome :=
  h.binopHandler (opArith m ArithOp.idiv lhs rhs) lhs rhs Metamethod.idiv

def opMod (m : Libm) (lhs rhs : Value) : Outcome :=
  h.binopHandler (opArith m ArithOp.mod lhs rhs) lhs rhs Metamethod.mod

end Heap

/-! ### Rounding down -/

theorem xor_neg_iff (a b : Int64) : a ^^^ b < 0 ↔ (a.toInt < 0 ↔ ¬ b.toInt < 0) := by
  have hneg : ∀ c : Int64, c < 0 ↔ c.toBitVec.msb = true := by
    intro c
    rw [Int64.lt_iff_toInt_lt, BitVec.msb_eq_toInt]
    simp
  have hsign : ∀ c : Int64, c.toInt < 0 ↔ c.toBitVec.msb = true := by
    intro c
    rw [BitVec.msb_eq_toInt]
    simp
  rw [hneg, hsign, hsign, Int64.toBitVec_xor, BitVec.msb_xor]
  cases a.toBitVec.msb <;> cases b.toBitVec.msb <;> simp

theorem ofInt_tdiv (a b : Int64) : Int64.ofInt (a.toInt.tdiv b.toInt) = a / b := by
  rw [← Int64.toInt_inj, Int64.toInt_ofInt, Int64.toInt_div]

theorem ofInt_tmod (a b : Int64) : Int64.ofInt (a.toInt.tmod b.toInt) = a % b := by
  rw [← Int64.toInt_mod, Int64.ofInt_toInt]

theorem toInt_eq_zero_iff (a : Int64) : a.toInt = 0 ↔ a = 0 := by
  rw [← Int64.toInt_inj]
  simp

theorem rem_eq_zero_iff (a b : Int64) : a % b = 0 ↔ b.toInt ∣ a.toInt := by
  rw [← toInt_eq_zero_iff, Int64.toInt_mod, Int.dvd_iff_tmod_eq_zero]

/-- A truncated remainder has the sign of the dividend. -/
theorem rem_neg_iff {a b : Int64} (h : ¬ b.toInt ∣ a.toInt) :
    (a % b).toInt < 0 ↔ a.toInt < 0 := by
  rw [Int64.toInt_mod, ← Int.sign_eq_neg_one_iff_neg, Int.sign_tmod, if_neg h,
    Int.sign_eq_neg_one_iff_neg]

/-- The floor lies one below an inexact truncated quotient of operands with different signs. -/
theorem fdiv_eq_tdiv_sub (a : ℤ) {b : ℤ} (hb : b ≠ 0) :
    a.fdiv b = a.tdiv b - if ¬ b ∣ a ∧ (a < 0 ↔ ¬ b < 0) then 1 else 0 := by
  rw [Int.fdiv_eq_tdiv]
  congr 1
  by_cases hdvd : b ∣ a
  · rw [if_pos hdvd, if_neg (fun h => h.1 hdvd)]
  · rw [if_neg hdvd]
    rcases Int.lt_or_le a 0 with ha | ha
    · rw [if_neg (Int.not_le.2 ha)]
      rcases Int.lt_or_gt_of_ne hb with hneg | hpos
      · rw [if_neg (Int.not_le.2 hneg), if_neg (by omega), Int.sign_eq_neg_one_of_neg hneg]
        rfl
      · rw [if_pos (by omega : 0 ≤ b), if_pos ⟨hdvd, by omega⟩, Int.sign_eq_one_of_pos hpos]
    · rw [if_pos ha]
      rcases Int.lt_or_gt_of_ne hb with hneg | hpos
      · rw [if_neg (Int.not_le.2 hneg), if_pos ⟨hdvd, by omega⟩]
      · rw [if_pos (by omega : 0 ≤ b), if_neg (by omega)]

theorem fmod_eq_tmod_add (a : ℤ) {b : ℤ} (hb : b ≠ 0) :
    a.fmod b = a.tmod b + if ¬ b ∣ a ∧ (a < 0 ↔ ¬ b < 0) then b else 0 := by
  rw [Int.fmod_def, fdiv_eq_tdiv_sub a hb, Int.tmod_def]
  split
  · ring
  · ring

/-- The adjusted quotient is the floor. -/
theorem adjusted_div (a : Int64) {b : Int64} (hb : b ≠ 0) :
    (if a % b ≠ 0 ∧ a ^^^ b < 0 then a / b - 1 else a / b) =
      Int64.ofInt (a.toInt.fdiv b.toInt) := by
  have hcond : (a % b ≠ 0 ∧ a ^^^ b < 0) ↔
      (¬ b.toInt ∣ a.toInt ∧ (a.toInt < 0 ↔ ¬ b.toInt < 0)) := by
    rw [Ne, rem_eq_zero_iff, xor_neg_iff]
  rw [fdiv_eq_tdiv_sub _ (fun h => hb ((toInt_eq_zero_iff b).1 h)), Int64.ofInt_sub, ofInt_tdiv]
  by_cases h : a % b ≠ 0 ∧ a ^^^ b < 0
  · rw [if_pos h, if_pos (hcond.1 h)]
    rfl
  · rw [if_neg h, if_neg (fun h' => h (hcond.2 h'))]
    simp

/-- The adjusted remainder belongs to the floor. -/
theorem adjusted_rem (a : Int64) {b : Int64} (hb : b ≠ 0) :
    (if a % b ≠ 0 ∧ a % b ^^^ b < 0 then a % b + b else a % b) =
      Int64.ofInt (a.toInt.fmod b.toInt) := by
  have hcond : (a % b ≠ 0 ∧ a % b ^^^ b < 0) ↔
      (¬ b.toInt ∣ a.toInt ∧ (a.toInt < 0 ↔ ¬ b.toInt < 0)) := by
    rw [Ne, rem_eq_zero_iff, xor_neg_iff]
    exact and_congr_right fun hdvd => by rw [rem_neg_iff hdvd]
  rw [fmod_eq_tmod_add _ (fun h => hb ((toInt_eq_zero_iff b).1 h)), Int64.ofInt_add, ofInt_tmod]
  by_cases h : a % b ≠ 0 ∧ a % b ^^^ b < 0
  · rw [if_pos h, if_pos (hcond.1 h), Int64.ofInt_toInt]
  · rw [if_neg h, if_neg (fun h' => h (hcond.2 h'))]
    simp

/-- The remainder of the floor lies between zero and the divisor. -/
theorem fmod_between (a : ℤ) {b : ℤ} (hb : b ≠ 0) :
    (0 < b ∧ 0 ≤ a.fmod b ∧ a.fmod b < b) ∨ (b < 0 ∧ b < a.fmod b ∧ a.fmod b ≤ 0) := by
  rcases Int.lt_or_gt_of_ne hb with hneg | hpos
  · have hflip := Int.neg_fmod_neg (a := -a) (b := -b)
    have h0 := Int.fmod_nonneg_of_pos (-a) (by omega : 0 < -b)
    have hlt := Int.fmod_lt_of_pos (-a) (by omega : 0 < -b)
    rw [Int.neg_neg, Int.neg_neg] at hflip
    exact Or.inr ⟨hneg, by omega, by omega⟩
  · exact Or.inl ⟨hpos, Int.fmod_nonneg_of_pos a hpos, Int.fmod_lt_of_pos a hpos⟩

/-- `fdiv` is the floor of the exact quotient. -/
theorem floor_div_eq_fdiv (a : ℤ) {b : ℤ} (hb : b ≠ 0) : ⌊(a : ℚ) / b⌋ = a.fdiv b := by
  have hb' : (b : ℚ) ≠ 0 := by exact_mod_cast hb
  have hsplit : (a : ℚ) / b = a.fdiv b + (a.fmod b : ℚ) / b := by
    have hsum : (a : ℚ) = a.fmod b + b * a.fdiv b := by
      exact_mod_cast (Int.fmod_add_mul_fdiv a b).symm
    field_simp
    linarith
  rw [Int.floor_eq_iff, hsplit]
  rcases fmod_between a hb with ⟨hpos, h0, hlt⟩ | ⟨hneg, hlt, h0⟩
  · have hp : (0 : ℚ) < b := by exact_mod_cast hpos
    have hq0 : (0 : ℚ) ≤ (a.fmod b : ℚ) / b := div_nonneg (by exact_mod_cast h0) hp.le
    have hq1 : (a.fmod b : ℚ) / b < 1 := (div_lt_one hp).2 (by exact_mod_cast hlt)
    exact ⟨by linarith, by linarith⟩
  · have hp : (b : ℚ) < 0 := by exact_mod_cast hneg
    have hq0 : (0 : ℚ) ≤ (a.fmod b : ℚ) / b := div_nonneg_of_nonpos (by exact_mod_cast h0) hp.le
    have hq1 : (a.fmod b : ℚ) / b < 1 := (div_lt_one_of_neg hp).2 (by exact_mod_cast hlt)
    exact ⟨by linarith, by linarith⟩

/-! ### Integer division -/

/-- Integer division and modulo of `a` and `b`, as their instructions leave them. -/
structure DivisionRules (h : Heap) (m : Libm) (a b : Int64) : Prop where
  /-- A zero divisor is an error. -/
  zero : b = 0 → h.opIdiv m (Value.integer a) (Value.integer b) = Outcome.raise ∧
    h.opMod m (Value.integer a) (Value.integer b) = Outcome.raise
  /-- Any other divisor gives the floor of the exact quotient, wrapped around, and the remainder
  that belongs to it. -/
  floors : b ≠ 0 → ∃ q r : Int64,
    h.opIdiv m (Value.integer a) (Value.integer b) = Outcome.value (Value.integer q) ∧
      h.opMod m (Value.integer a) (Value.integer b) = Outcome.value (Value.integer r) ∧
        q = Int64.ofInt ⌊(a.toInt : ℚ) / b.toInt⌋ ∧
          (r = 0 ∨ r.toInt.sign = b.toInt.sign) ∧ |r.toInt| < |b.toInt| ∧ a = b * q + r

theorem opArith_idiv (m : Libm) (a : Int64) {b : Int64} (hb : b ≠ 0) :
    opArith m ArithOp.idiv (Value.integer a) (Value.integer b) =
      Except.ok (Value.integer (Int64.ofInt (a.toInt.fdiv b.toInt))) := by
  rw [← adjusted_div a hb]
  simp [opArith, ArithOp.intZeroDivisorRaises, ArithOp.int, wrappingDiv, wrappingRem, hb, bind,
    Except.bind]

theorem opArith_mod (m : Libm) (a : Int64) {b : Int64} (hb : b ≠ 0) :
    opArith m ArithOp.mod (Value.integer a) (Value.integer b) =
      Except.ok (Value.integer (Int64.ofInt (a.toInt.fmod b.toInt))) := by
  rw [← adjusted_rem a hb]
  simp [opArith, ArithOp.intZeroDivisorRaises, ArithOp.int, wrappingRem, hb, bind, Except.bind]

/-- **Integer division and modulo**: the quotient is the floor modulo `2 ^ 64`, the remainder lies
between zero and the divisor, both fit together, and only a zero divisor is an error. -/
theorem integer_division (h : Heap) (m : Libm) (a b : Int64) : DivisionRules h m a b := by
  refine ⟨?_, ?_⟩
  · rintro rfl
    exact ⟨rfl, rfl⟩
  · intro hb
    have hb' : b.toInt ≠ 0 := fun h => hb ((toInt_eq_zero_iff b).1 h)
    have hlow := b.le_toInt
    have hup := b.toInt_lt
    have hrange := fmod_between a.toInt hb'
    have hr : (Int64.ofInt (a.toInt.fmod b.toInt)).toInt = a.toInt.fmod b.toInt :=
      Int64.toInt_ofInt_of_le (by omega) (by omega)
    refine ⟨_, _, by rw [Heap.opIdiv, opArith_idiv m a hb]; rfl,
      by rw [Heap.opMod, opArith_mod m a hb]; rfl, by rw [floor_div_eq_fdiv _ hb'], ?_, ?_, ?_⟩
    · rw [hr]
      rcases hrange with ⟨hpos, h0, -⟩ | ⟨hneg, -, h0⟩
      · rcases Int.lt_or_eq_of_le h0 with hlt | heq
        · exact Or.inr (by rw [Int.sign_eq_one_of_pos hlt, Int.sign_eq_one_of_pos hpos])
        · exact Or.inl (by rw [← heq]; rfl)
      · rcases Int.lt_or_eq_of_le h0 with hlt | heq
        · exact Or.inr (by rw [Int.sign_eq_neg_one_of_neg hlt, Int.sign_eq_neg_one_of_neg hneg])
        · exact Or.inl (by rw [heq]; rfl)
    · rw [hr]
      rcases hrange with ⟨hpos, h0, hlt⟩ | ⟨hneg, hlt, h0⟩
      · rwa [abs_of_nonneg h0, abs_of_pos hpos]
      · rw [abs_of_nonpos h0, abs_of_neg hneg]
        omega
    · have hsum := congrArg Int64.ofInt (Int.mul_fdiv_add_fmod a.toInt b.toInt)
      rw [Int64.ofInt_add, Int64.ofInt_mul, Int64.ofInt_toInt, Int64.ofInt_toInt] at hsum
      exact hsum.symm

end Tcvm
