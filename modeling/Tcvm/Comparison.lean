/-
Comparing numbers.

`EQ` compares a kind and a payload, `LT` and `LE` compare an integer with a double by rounding the
integer first, `raw_eq` and the tables compare what the numbers denote.  This module says on which
numbers these agree and form one order: on all but an integer and a double it rounds to, and the
two zeros.

* `CompareOutcome`, `Heap.opEq`, `Heap.opLt`, `Heap.opLe` — the instructions;
* `rawEq` — the equality of the library;
* `OrderedNumber`, `exactValue` — numbers other than NaN, and what they denote;
* `Less`, `Same`, `LessEq` — the comparisons as the instructions compute them;
* `PairConsistent`, `Clash` — the order of two numbers, and where it breaks;
* `exact_of_value_lt`, `value_le_of_exact` — an integer and a double, before and after rounding;
* **`numeric_order_consistent_iff`** — the order is consistent exactly where nothing clashes.
-/

import Tcvm.Numeric

namespace Tcvm

open Binary64

/-! ### The instructions -/

/-- How a comparing instruction ends: the next instruction is skipped or not, a metamethod decides,
or an error is raised. -/
inductive CompareOutcome
  | next (skip : Bool)
  | invoke (func : Value) (args : List Value) (inverted : Bool)
  | raise
  deriving DecidableEq

/-- The numbers and strings that `op_lt` compares by itself. -/
def lessThan : Value → Value → Option Bool
  | Value.integer x, Value.integer y => some (decide (x < y))
  | Value.float x, Value.float y => some (lt x y)
  | Value.integer x, Value.float y => some (lt (integerToFloat x) y)
  | Value.float x, Value.integer y => some (lt x (integerToFloat y))
  | Value.string x, Value.string y => some (decide (x < y))
  | _, _ => none

/-- The numbers and strings that `op_le` compares by itself. -/
def lessEqual : Value → Value → Option Bool
  | Value.integer x, Value.integer y => some (decide (x ≤ y))
  | Value.float x, Value.float y => some (le x y)
  | Value.integer x, Value.float y => some (le (integerToFloat x) y)
  | Value.float x, Value.integer y => some (le x (integerToFloat y))
  | Value.string x, Value.string y => some (decide (x ≤ y))
  | _, _ => none

/-- The kinds for which `op_eq` asks for a metamethod. -/
def triesEqMeta : Value → Value → Bool
  | Value.table _, Value.table _ => true
  | Value.userdata _, Value.userdata _ => true
  | _, _ => false

namespace Heap

variable (h : Heap)

/-- `op_eq`. -/
def opEq (a b : Value) (inverted : Bool) : CompareOutcome :=
  if a = b then CompareOutcome.next (!inverted)
  else
    let func := if triesEqMeta a b then h.binopMetamethod a b Metamethod.eq.name else Value.nil
    if func.isNil then CompareOutcome.next inverted
    else CompareOutcome.invoke func [a, b] inverted

/-- `op_lt` and `op_le` on what they compare by themselves, and the metamethod of all else. -/
def compareOp (primitive : Option Bool) (mm : Metamethod) (a b : Value) (inverted : Bool) :
    CompareOutcome :=
  match primitive with
  | some r => CompareOutcome.next (r != inverted)
  | none =>
      let func := h.binopMetamethod a b mm.name
      if func.isNil then CompareOutcome.raise else CompareOutcome.invoke func [a, b] inverted

/-- `op_lt`. -/
def opLt (a b : Value) (inverted : Bool) : CompareOutcome :=
  h.compareOp (lessThan a b) Metamethod.lt a b inverted

/-- `op_le`. -/
def opLe (a b : Value) (inverted : Bool) : CompareOutcome :=
  h.compareOp (lessEqual a b) Metamethod.le a b inverted

end Heap

/-! ### The equality of the library -/

/-- `float_eq_int`. -/
def floatEqInt (f : UInt64) (i : Int64) : Bool := floatToInteger f == some i

/-- `raw_eq`. -/
def rawEq : Value → Value → Bool
  | Value.integer x, Value.integer y => x == y
  | Value.float x, Value.float y => eq x y
  | Value.integer x, Value.float y => floatEqInt y x
  | Value.float x, Value.integer y => floatEqInt x y
  | a, b => decide (a = b)

/-! ### The order of two numbers -/

/-- Numbers other than NaN. -/
inductive OrderedNumber
  | integer (i : Int64)
  | float (f : UInt64) (h : isNan f = false)

namespace OrderedNumber

/-- The value of a number. -/
def val : OrderedNumber → Value
  | integer i => Value.integer i
  | float f _ => Value.float f

/-- What a number denotes, in the unit of `Binary64.one`. -/
def exact : OrderedNumber → ℤ
  | integer i => i.toInt * one
  | float f _ => value f

end OrderedNumber

/-- An instruction answers a comparison, whichever polarity it is given. -/
def Answers (instr : Bool → CompareOutcome) (r : Bool) : Prop :=
  ∀ inverted, instr inverted = CompareOutcome.next (r != inverted)

section Order

variable (h : Heap)

/-- `a < b` as `LT` computes it. -/
def Less (a b : OrderedNumber) : Prop := Answers (h.opLt a.val b.val) true

/-- `a == b` as `EQ` computes it. -/
def Same (a b : OrderedNumber) : Prop := Answers (h.opEq a.val b.val) true

/-- `a <= b` as `LE` computes it. -/
def LessEq (a b : OrderedNumber) : Prop := Answers (h.opLe a.val b.val) true

/-- Two numbers are in one order, which is that of what they denote, and all equalities agree. -/
structure PairConsistent (a b : OrderedNumber) : Prop where
  /-- Exactly one of less, equal and greater. -/
  one : (Less h a b ∧ ¬ Same h a b ∧ ¬ Less h b a) ∨ (¬ Less h a b ∧ Same h a b ∧ ¬ Less h b a) ∨
    (¬ Less h a b ∧ ¬ Same h a b ∧ Less h b a)
  le : LessEq h a b ↔ Less h a b ∨ Same h a b
  raw : Same h a b ↔ rawEq a.val b.val = true
  /-- Table keys are identified exactly when they are equal. -/
  key : Same h a b ↔ keyOf a.val = keyOf b.val
  exactLess : Less h a b ↔ a.exact < b.exact
  exactSame : Same h a b ↔ a.exact = b.exact

end Order

/-- An integer and a double it rounds to, or two doubles that denote one number: the zeros. -/
def Clash : OrderedNumber → OrderedNumber → Prop
  | OrderedNumber.integer i, OrderedNumber.float f _ => value (integerToFloat i) = value f
  | OrderedNumber.float f _, OrderedNumber.integer i => value (integerToFloat i) = value f
  | OrderedNumber.float f _, OrderedNumber.float g _ => f ≠ g ∧ value f = value g
  | OrderedNumber.integer _, OrderedNumber.integer _ => False

/-! ### What the instructions answer -/

section Answers

variable {h : Heap}

theorem answers_true_iff {instr : Bool → CompareOutcome} {r : Bool} (hr : Answers instr r) :
    Answers instr true ↔ r = true := by
  constructor
  · intro ht
    have := (hr true).symm.trans (ht true)
    cases r <;> simp_all
  · rintro rfl
    exact hr

theorem less_iff {a b : OrderedNumber} {r : Bool} (hr : lessThan a.val b.val = some r) :
    Less h a b ↔ r = true :=
  answers_true_iff fun inverted => by simp only [Heap.opLt, Heap.compareOp, hr]

theorem lessEq_iff {a b : OrderedNumber} {r : Bool} (hr : lessEqual a.val b.val = some r) :
    LessEq h a b ↔ r = true :=
  answers_true_iff fun inverted => by simp only [Heap.opLe, Heap.compareOp, hr]

/-- `EQ` on numbers is the equality of values. -/
theorem same_iff (a b : OrderedNumber) : Same h a b ↔ a.val = b.val := by
  have hmeta : triesEqMeta a.val b.val = false := by cases a <;> cases b <;> rfl
  have hr : Answers (h.opEq a.val b.val) (decide (a.val = b.val)) := by
    intro inverted
    unfold Heap.opEq
    by_cases hab : a.val = b.val
    · simp [hab]
    · simp [hab, hmeta, Value.isNil]
  rw [Same, answers_true_iff hr, decide_eq_true_iff]

end Answers

/-! ### Integers and doubles -/

section Mixed

variable {i : Int64} {f : UInt64}

/-- What is below a double after rounding was below it before. -/
theorem exact_of_value_lt (hf : isNan f = false) (h : value (integerToFloat i) < value f) :
    i.toInt * one < value f := by
  by_contra hle
  exact absurd (le_value_ofScaled hf (Int.not_lt.1 hle)) (Int.not_le.2 h)

theorem exact_of_lt_value (hf : isNan f = false) (h : value f < value (integerToFloat i)) :
    value f < i.toInt * one := by
  by_contra hle
  exact absurd (value_ofScaled_le hf (Int.not_lt.1 hle)) (Int.not_le.2 h)

/-- An integer that a double denotes rounds to that double. -/
theorem value_integerToFloat_of_exact (hf : isNan f = false) (h : i.toInt * one = value f) :
    value (integerToFloat i) = value f := by
  rw [integerToFloat, ofInt, h]
  exact value_ofScaled_value hf

/-- An integer is a double exactly when their values say so. -/
theorem floatEqInt_iff : floatEqInt f i = true ↔ i.toInt * one = value f := by
  unfold floatEqInt
  rw [beq_iff_eq, floatToInteger_eq_some_iff, f64ToInt?_eq_some_iff]
  exact ⟨fun h => h.2.symm, fun h => ⟨magBits_lt_of_value h.symm, h.symm⟩⟩

end Mixed

/-! ### Keys -/

theorem eq_maxValue {i : Int64} (h : i.toInt.toNat = 2 ^ 63 - 1) : i = Int64.maxValue := by
  apply Int64.toInt_inj.1
  have : Int64.maxValue.toInt = 2 ^ 63 - 1 := by decide
  omega

/-- No double denotes the greatest integer. -/
theorem value_ne_maxValue {f : UInt64} (hf : isNan f = false) :
    value f ≠ ((2 ^ 63 - 1 : ℕ) : ℤ) * one := by
  intro h
  have hround := value_integerToFloat_of_exact (i := Int64.maxValue) hf h.symm
  rw [value_maxValue, h] at hround
  exact absurd hround (by decide +kernel)

theorem index_of_integer {i : Int64} {index : ℕ}
    (h : arrayIndex (Value.integer i) = some index) : i.toInt.toNat = index ∧ 1 ≤ i.toInt := by
  simp only [arrayIndex] at h
  split at h
  · exact ⟨Option.some_inj.1 h, by assumption⟩
  · exact absurd h (by simp)

/-- A key that is no string is looked up under its index, or else under itself. -/
theorem keyOf_eq_cases {a b : Value} (ha : ∀ s, a ≠ Value.string s) (hb : ∀ s, b ≠ Value.string s)
    (h : keyOf a = keyOf b) :
    a = b ∨ ∃ index, arrayIndex a = some index ∧ arrayIndex b = some index := by
  cases hia : arrayIndex a with
  | some index =>
      rw [keyOf_of_arrayIndex_some hia] at h
      cases hib : arrayIndex b with
      | some index' =>
          rw [keyOf_of_arrayIndex_some hib, Key.pos.injEq] at h
          have hpos := arrayIndex_pos hia
          have hpos' := arrayIndex_pos hib
          obtain rfl : index = index' := by omega
          exact Or.inr ⟨index, rfl, rfl⟩
      | none =>
          cases b with
          | string s => exact absurd rfl (hb s)
          | _ => simp [keyOf, hib] at h
  | none =>
      cases hib : arrayIndex b with
      | some index' =>
          rw [keyOf_of_arrayIndex_some hib] at h
          cases a with
          | string s => exact absurd rfl (ha s)
          | _ => simp [keyOf, hia] at h
      | none =>
          refine Or.inl ?_
          cases a with
          | string s => exact absurd rfl (ha s)
          | _ =>
              cases b with
              | string s => exact absurd rfl (hb s)
              | _ => simp_all [keyOf]

theorem val_ne_string (a : OrderedNumber) (s : LuaString) : a.val ≠ Value.string s := by
  cases a <;> exact Value.noConfusion

/-- Numbers that a table identifies are equal or clash. -/
theorem clash_of_keyOf_eq {a b : OrderedNumber} (h : keyOf a.val = keyOf b.val) :
    a.val = b.val ∨ Clash a b := by
  rcases keyOf_eq_cases (val_ne_string a) (val_ne_string b) h with heq | ⟨index, ha, hb⟩
  · exact Or.inl heq
  · have hmixed : ∀ {i : Int64} {f : UInt64}, isNan f = false →
        arrayIndex (Value.integer i) = some index → arrayIndex (Value.float f) = some index →
          value (integerToFloat i) = value f := by
      intro i f hf hi hfl
      obtain ⟨hnat, hpos⟩ := index_of_integer hi
      rcases value_of_arrayIndex hfl with ⟨hval, -⟩ | ⟨hval, hmax⟩
      · refine value_integerToFloat_of_exact hf ?_
        rw [hval, ← hnat, Int.toNat_of_nonneg (by omega)]
      · rw [eq_maxValue (hnat.trans hmax), value_maxValue, hval]
    cases a with
    | integer i =>
        cases b with
        | integer j =>
            obtain ⟨hi, hi1⟩ := index_of_integer ha
            obtain ⟨hj, hj1⟩ := index_of_integer hb
            left
            exact congrArg Value.integer (Int64.toInt_inj.1 (by omega))
        | float f hf => exact Or.inr (hmixed hf ha hb)
    | float f hf =>
        cases b with
        | integer j => exact Or.inr (hmixed hf hb ha)
        | float g hg =>
            by_cases hfg : f = g
            · exact Or.inl (congrArg Value.float hfg)
            · refine Or.inr ⟨hfg, ?_⟩
              rcases value_of_arrayIndex ha with ⟨hvf, hlf⟩ | ⟨hvf, hif⟩
              · rcases value_of_arrayIndex hb with ⟨hvg, -⟩ | ⟨hvg, hig⟩
                · rw [hvf, hvg]
                · rw [hig] at hvf
                  exact absurd hvf (value_ne_maxValue hf)
              · rcases value_of_arrayIndex hb with ⟨hvg, -⟩ | ⟨hvg, -⟩
                · rw [hif] at hvg
                  exact absurd hvg (value_ne_maxValue hg)
                · rw [hvf, hvg]

/-! ### The comparisons against what numbers denote -/

section Exact

variable {h : Heap} {a b c : OrderedNumber}

theorem less_integer_iff {i j : Int64} :
    Less h (OrderedNumber.integer i) (OrderedNumber.integer j) ↔ i.toInt < j.toInt := by
  rw [less_iff rfl, decide_eq_true_iff, Int64.lt_iff_toInt_lt]

theorem less_float_iff {f g : UInt64} {hf : isNan f = false} {hg : isNan g = false} :
    Less h (OrderedNumber.float f hf) (OrderedNumber.float g hg) ↔ value f < value g := by
  rw [less_iff rfl, lt_iff hf hg]

theorem less_integer_float_iff {i : Int64} {f : UInt64} {hf : isNan f = false} :
    Less h (OrderedNumber.integer i) (OrderedNumber.float f hf) ↔
      value (integerToFloat i) < value f := by
  rw [less_iff rfl, lt_iff (isNan_integerToFloat i) hf]

theorem less_float_integer_iff {i : Int64} {f : UInt64} {hf : isNan f = false} :
    Less h (OrderedNumber.float f hf) (OrderedNumber.integer i) ↔
      value f < value (integerToFloat i) := by
  rw [less_iff rfl, lt_iff hf (isNan_integerToFloat i)]

theorem exact_integer_lt {i j : Int64} : i.toInt * (one : ℤ) < j.toInt * one ↔ i.toInt < j.toInt :=
  Int.mul_lt_mul_right value_one_pos

/-- What is less as computed is less. -/
theorem exact_of_less (hab : Less h a b) : a.exact < b.exact := by
  cases a with
  | integer i =>
      cases b with
      | integer j => exact exact_integer_lt.2 (less_integer_iff.1 hab)
      | float f hf => exact exact_of_value_lt hf (less_integer_float_iff.1 hab)
  | float f hf =>
      cases b with
      | integer j => exact exact_of_lt_value hf (less_float_integer_iff.1 hab)
      | float g hg => exact less_float_iff.1 hab

/-- What is less is computed so, unless rounding makes it equal. -/
theorem less_of_exact (hab : a.exact < b.exact) : Less h a b ∨ Clash a b := by
  cases a with
  | integer i =>
      cases b with
      | integer j => exact Or.inl (less_integer_iff.2 (exact_integer_lt.1 hab))
      | float f hf =>
          rcases Int.lt_or_eq_of_le (value_ofScaled_le hf (Int.le_of_lt hab)) with hlt | heq
          · exact Or.inl (less_integer_float_iff.2 hlt)
          · exact Or.inr heq
  | float f hf =>
      cases b with
      | integer j =>
          rcases Int.lt_or_eq_of_le (le_value_ofScaled hf (Int.le_of_lt hab)) with hlt | heq
          · exact Or.inl (less_float_integer_iff.2 hlt)
          · exact Or.inr heq.symm
      | float g hg => exact Or.inl (less_float_iff.2 hab)

theorem exact_of_same (hab : Same h a b) : a.exact = b.exact := by
  rw [same_iff] at hab
  cases a with
  | integer i =>
      cases b with
      | integer j =>
          obtain rfl := Value.integer.inj hab
          rfl
      | float g hg => exact absurd hab Value.noConfusion
  | float f hf =>
      cases b with
      | integer j => exact absurd hab Value.noConfusion
      | float g hg =>
          obtain rfl := Value.float.inj hab
          rfl

theorem same_of_exact (hab : a.exact = b.exact) : Same h a b ∨ Clash a b := by
  rw [same_iff]
  cases a with
  | integer i =>
      cases b with
      | integer j =>
          have hij : i.toInt = j.toInt :=
            Int.eq_of_mul_eq_mul_right (Int.ne_of_gt value_one_pos) hab
          exact Or.inl (congrArg Value.integer (Int64.toInt_inj.1 hij))
      | float g hg => exact Or.inr (value_integerToFloat_of_exact hg hab)
  | float f hf =>
      cases b with
      | integer j => exact Or.inr (value_integerToFloat_of_exact hf hab.symm)
      | float g hg =>
          by_cases hfg : f = g
          · exact Or.inl (congrArg Value.float hfg)
          · exact Or.inr ⟨hfg, hab⟩

theorem rawEq_iff : rawEq a.val b.val = true ↔ a.exact = b.exact := by
  cases a with
  | integer i =>
      cases b with
      | integer j =>
          rw [OrderedNumber.val, OrderedNumber.val, rawEq, beq_iff_eq, ← Int64.toInt_inj]
          exact ⟨fun hij => by simp only [OrderedNumber.exact, hij],
            Int.eq_of_mul_eq_mul_right (Int.ne_of_gt value_one_pos)⟩
      | float g hg => exact floatEqInt_iff
  | float f hf =>
      cases b with
      | integer j => exact floatEqInt_iff.trans eq_comm
      | float g hg => exact eq_iff hf hg

/-- Where two numbers clash, neither is less and they are not equal. -/
theorem not_less_of_clash (hclash : Clash a b) : ¬ Less h a b ∧ ¬ Same h a b ∧ ¬ Less h b a := by
  rw [same_iff]
  cases a with
  | integer i =>
      cases b with
      | integer j => exact absurd hclash id
      | float g hg =>
          rw [less_integer_float_iff, less_float_integer_iff]
          have heq : value (integerToFloat i) = value g := hclash
          exact ⟨by omega, Value.noConfusion, by omega⟩
  | float f hf =>
      cases b with
      | integer j =>
          rw [less_integer_float_iff, less_float_integer_iff]
          have heq : value (integerToFloat j) = value f := hclash
          exact ⟨by omega, Value.noConfusion, by omega⟩
      | float g hg =>
          rw [less_float_iff, less_float_iff]
          obtain ⟨hne, heq⟩ := hclash
          exact ⟨by omega, fun hv => hne (Value.float.inj hv), by omega⟩

/-- Less or equal as computed is either, unless rounding decides. -/
theorem lessEq_iff_of_not_clash (hclash : ¬ Clash a b) :
    LessEq h a b ↔ a.exact ≤ b.exact := by
  cases a with
  | integer i =>
      cases b with
      | integer j =>
          rw [lessEq_iff rfl, decide_eq_true_iff, Int64.le_iff_toInt_le]
          exact (Int.mul_le_mul_right value_one_pos).symm
      | float g hg =>
          rw [lessEq_iff rfl, le_iff (isNan_integerToFloat i) hg]
          constructor
          · intro hle
            rcases Int.lt_or_eq_of_le hle with hlt | heq
            · exact Int.le_of_lt (exact_of_value_lt hg hlt)
            · exact absurd heq hclash
          · exact fun hle => value_ofScaled_le hg hle
  | float f hf =>
      cases b with
      | integer j =>
          rw [lessEq_iff rfl, le_iff hf (isNan_integerToFloat j)]
          constructor
          · intro hle
            rcases Int.lt_or_eq_of_le hle with hlt | heq
            · exact Int.le_of_lt (exact_of_lt_value hf hlt)
            · exact absurd heq.symm hclash
          · exact fun hle => le_value_ofScaled hf hle
      | float g hg => rw [lessEq_iff rfl, le_iff hf hg]; rfl

theorem Clash.symm (hclash : Clash a b) : Clash b a := by
  cases a with
  | integer i => cases b <;> exact hclash
  | float f hf =>
      cases b with
      | integer j => exact hclash
      | float g hg => exact ⟨hclash.1.symm, hclash.2.symm⟩

/-- Without a clash two numbers compare as what they denote. -/
theorem pairConsistent_of_not_clash (hclash : ¬ Clash a b) : PairConsistent h a b := by
  have hless : Less h a b ↔ a.exact < b.exact :=
    ⟨exact_of_less, fun hab => (less_of_exact hab).resolve_right hclash⟩
  have hgreater : Less h b a ↔ b.exact < a.exact :=
    ⟨exact_of_less, fun hab => (less_of_exact hab).resolve_right fun hba => hclash hba.symm⟩
  have hsame : Same h a b ↔ a.exact = b.exact :=
    ⟨exact_of_same, fun hab => (same_of_exact hab).resolve_right hclash⟩
  refine ⟨?_, ?_, hsame.trans rawEq_iff.symm, ?_, hless, hsame⟩
  · rw [hless, hgreater, hsame]
    omega
  · rw [lessEq_iff_of_not_clash hclash, hless, hsame]
    omega
  · constructor
    · intro hab
      rw [(same_iff a b).1 hab]
    · intro hkey
      exact (same_iff a b).2 ((clash_of_keyOf_eq hkey).resolve_right hclash)

/-! ### Transitivity -/

/-- A number as a double. -/
def approx : OrderedNumber → ℤ
  | OrderedNumber.integer i => value (integerToFloat i)
  | OrderedNumber.float f _ => value f

theorem approx_le_of_less (hab : Less h a b) : approx a ≤ approx b := by
  cases a with
  | integer i =>
      cases b with
      | integer j => exact value_ofInt_mono (Int.le_of_lt (less_integer_iff.1 hab))
      | float g hg => exact Int.le_of_lt (less_integer_float_iff.1 hab)
  | float f hf =>
      cases b with
      | integer j => exact Int.le_of_lt (less_float_integer_iff.1 hab)
      | float g hg => exact Int.le_of_lt (less_float_iff.1 hab)

/-- `<` is transitive, however integers and doubles are mixed: rounding is monotone. -/
theorem less_trans (hab : Less h a b) (hbc : Less h b c) : Less h a c := by
  have hle := approx_le_of_less hab
  have hle' := approx_le_of_less hbc
  cases a with
  | integer i =>
      cases c with
      | integer k =>
          have hlt := Int.lt_trans (exact_of_less hab) (exact_of_less hbc)
          exact less_integer_iff.2 (exact_integer_lt.1 hlt)
      | float g hg =>
          have hlt : approx b < value g := by
            cases b with
            | integer j => exact less_integer_float_iff.1 hbc
            | float f hf => exact less_float_iff.1 hbc
          exact less_integer_float_iff.2 (Int.lt_of_le_of_lt hle hlt)
  | float f hf =>
      have hlt : value f < approx b := by
        cases b with
        | integer j => exact less_float_integer_iff.1 hab
        | float g hg => exact less_float_iff.1 hab
      cases c with
      | integer k => exact less_float_integer_iff.2 (Int.lt_of_lt_of_le hlt hle')
      | float g hg => exact less_float_iff.2 (Int.lt_of_lt_of_le hlt hle')

end Exact

/-- **When comparing numbers is one order**: two numbers are ordered as what they denote, with all
equalities agreeing, exactly when they do not clash, and `<` is transitive on all of them. -/
theorem numeric_order_consistent_iff (h : Heap) :
    (∀ a b, PairConsistent h a b ↔ ¬ Clash a b) ∧
      ∀ a b c, Less h a b → Less h b c → Less h a c := by
  refine ⟨fun a b => ⟨fun hab hclash => ?_, pairConsistent_of_not_clash⟩,
    fun a b c => less_trans⟩
  obtain ⟨hless, hsame, hgreater⟩ := not_less_of_clash (h := h) hclash
  rcases hab.one with h1 | h1 | h1
  · exact hless h1.1
  · exact hsame h1.2.1
  · exact hgreater h1.2.2

/-- The double 1. -/
def floatOne : OrderedNumber := OrderedNumber.float 0x3FF0000000000000 (by decide)

/-- Neither `1 < 1.0` nor `1 == 1.0` nor `1.0 < 1`. -/
theorem one_is_unordered :
    ¬ Less Heap.boot (OrderedNumber.integer 1) floatOne ∧
      ¬ Same Heap.boot (OrderedNumber.integer 1) floatOne ∧
        ¬ Less Heap.boot floatOne (OrderedNumber.integer 1) := by
  have hclash : value (integerToFloat 1) = value 0x3FF0000000000000 := by decide +kernel
  exact not_less_of_clash (a := OrderedNumber.integer 1) (b := floatOne) hclash

end Tcvm
