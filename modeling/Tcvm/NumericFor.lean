/-
The numeric `for` loop.

`FORPREP` decides whether the body runs at all and `FORLOOP` whether it runs again.  With three
integers both compare integers, and the update wraps around; with anything else both work on
doubles, a value that is no number counts as zero, and the control variable becomes a double on the
first way back.  The manual wants the values `init`, `init + step`, ... that do not pass the limit.

* `ForRegs`, `opForprep`, `opForloop`, `forState` — the control registers and the iterations;
* `Inside`, `ForValue`, `ForRules` — the values of the manual;
* `forState_of_values`, `forState_none` — the iterations as long as nothing wraps around;
* `wraps_goes_on` — an update that wraps around never ends the loop;
* `IntegerLimitFits`, `FloatLimitFits`, `ForFits` — the condition;
* **`numeric_for_iff`** — the loop runs as the manual says exactly under it.
-/

import Tcvm.Numeric

namespace Tcvm

open Binary64

/-! ### The instructions -/

/-- The control registers of a loop, and the variable that its body sees. -/
structure ForRegs where
  init : Value
  limit : Value
  step : Value
  «variable» : Value
  deriving DecidableEq

/-- `to_number`, with `unwrap_or(0.0)`. -/
def toNumberOr0 (v : Value) : UInt64 := v.asFloat.getD 0

/-- The way out of `FORPREP`: into the body, past the loop, or with an error. -/
inductive ForStart
  | runs (r : ForRegs)
  | skips (r : ForRegs)
  | raises
  deriving DecidableEq

/-- `op_forprep`. -/
def opForprep (r : ForRegs) : ForStart :=
  let shouldRun :=
    match r.init, r.limit, r.step with
    | Value.integer i, Value.integer lim, Value.integer s =>
        if 0 < s then decide (i ≤ lim) else decide (lim ≤ i)
    | _, _, _ =>
        let i := toNumberOr0 r.init
        let lim := toNumberOr0 r.limit
        let s := toNumberOr0 r.step
        if lt 0 s then le i lim else le lim i
  let r' := { r with «variable» := r.init }
  if shouldRun then ForStart.runs r' else ForStart.skips r'

/-- `op_forloop`; nothing when the loop ends. -/
def opForloop (r : ForRegs) : Option ForRegs :=
  match r.init, r.limit, r.step with
  | Value.integer i, Value.integer lim, Value.integer s =>
      let next := i + s
      let cont := if 0 < s then decide (next ≤ lim) else decide (lim ≤ next)
      if cont then some { r with init := Value.integer next, «variable» := Value.integer next }
      else none
  | _, _, _ =>
      let i := toNumberOr0 r.init
      let lim := toNumberOr0 r.limit
      let s := toNumberOr0 r.step
      let next := add i s
      let cont := if lt 0 s then le next lim else le lim next
      if cont then some { r with init := Value.float next, «variable» := Value.float next }
      else none

/-- The registers at the start of an iteration, when there is one. -/
def forState (init limit step : Value) : ℕ → Option ForRegs
  | 0 =>
      match opForprep { init := init, limit := limit, step := step, «variable» := Value.nil } with
      | ForStart.runs r => some r
      | _ => none
  | n + 1 => (forState init limit step n).bind opForloop

/-- The value the body sees in an iteration. -/
def visible (init limit step : Value) (n : ℕ) : Option Value :=
  (forState init limit step n).map ForRegs.variable

/-! ### The manual -/

/-- A value does not pass the limit. -/
def Inside (s : Int64) (limit : Value) (z : ℤ) : Prop :=
  match limit with
  | Value.integer l => if 0 < s then z ≤ l.toInt else l.toInt ≤ z
  | Value.float f =>
      isNan f = false ∧ if 0 < s then z * one ≤ value f else value f ≤ z * one
  | _ => False

/-- A value that an integer can hold. -/
def FitsInteger (z : ℤ) : Prop := -2 ^ 63 ≤ z ∧ z < 2 ^ 63

/-- There is an `n`-th value. -/
def ForValue (i s : Int64) (limit : Value) (n : ℕ) : Prop :=
  FitsInteger (i.toInt + n * s.toInt) ∧ Inside s limit (i.toInt + n * s.toInt)

/-- What the manual says of a loop: a value that is no number and a zero step are errors, and
otherwise the body runs for the values `init + n * step` that do not pass the limit, and for no
others. -/
structure ForRules (init limit step : Value) : Prop where
  numbers : init.asFloat = none ∨ limit.asFloat = none ∨ step.asFloat = none →
    opForprep { init := init, limit := limit, step := step, «variable» := Value.nil } =
      ForStart.raises
  zero : ∀ i, init = Value.integer i → step = Value.integer 0 →
    opForprep { init := init, limit := limit, step := step, «variable» := Value.nil } =
      ForStart.raises
  values : ∀ i s, init = Value.integer i → step = Value.integer s → s ≠ 0 →
    limit.asFloat ≠ none → ∀ n,
      (ForValue i s limit n → visible init limit step n =
        some (Value.integer (Int64.ofInt (i.toInt + n * s.toInt)))) ∧
      (¬ ForValue i s limit n → visible init limit step n = none)

/-! ### Integer limits -/

section IntegerLimit

variable {i l s : Int64}

/-- The registers in the `n`-th iteration. -/
def regsAt (i l s : Int64) (n : ℕ) : ForRegs :=
  let v := Value.integer (Int64.ofInt (i.toInt + n * s.toInt))
  { init := v, limit := Value.integer l, step := Value.integer s, «variable» := v }

theorem toInt_ofInt_of_fits {z : ℤ} (h : FitsInteger z) : (Int64.ofInt z).toInt = z :=
  Int64.toInt_ofInt_of_le h.1 h.2

theorem inside_integer_iff {z : ℤ} :
    Inside s (Value.integer l) z ↔ if 0 < s then z ≤ l.toInt else l.toInt ≤ z := Iff.rfl

/-- Whether an integer update goes on. -/
theorem cont_iff {v : Int64} :
    (if 0 < s then decide (v ≤ l) else decide (l ≤ v)) = true ↔
      Inside s (Value.integer l) v.toInt := by
  rw [inside_integer_iff]
  split
  · rw [decide_eq_true_iff, Int64.le_iff_toInt_le]
  · rw [decide_eq_true_iff, Int64.le_iff_toInt_le]

theorem forState_zero :
    forState (Value.integer i) (Value.integer l) (Value.integer s) 0 =
      if (if 0 < s then decide (i ≤ l) else decide (l ≤ i)) = true then some (regsAt i l s 0)
      else none := by
  have hi : Int64.ofInt (i.toInt + (0 : ℕ) * s.toInt) = i := by simp
  unfold forState opForprep regsAt
  rw [hi]
  dsimp only
  generalize (if 0 < s then decide (i ≤ l) else decide (l ≤ i)) = b
  cases b <;> rfl

/-- The update of the control variable, which may wrap around. -/
theorem ofInt_next (n : ℕ) :
    Int64.ofInt (i.toInt + n * s.toInt) + s =
      Int64.ofInt (i.toInt + (n + 1 : ℕ) * s.toInt) := by
  have hsum : i.toInt + (n + 1 : ℕ) * s.toInt = i.toInt + n * s.toInt + s.toInt := by
    push_cast
    ring
  rw [hsum, Int64.ofInt_add (i.toInt + n * s.toInt), Int64.ofInt_toInt s]

theorem opForloop_regsAt (n : ℕ) :
    opForloop (regsAt i l s n) =
      if (if 0 < s then decide (Int64.ofInt (i.toInt + n * s.toInt) + s ≤ l)
          else decide (l ≤ Int64.ofInt (i.toInt + n * s.toInt) + s)) = true then
        some (regsAt i l s (n + 1))
      else none := by
  unfold opForloop regsAt
  dsimp only
  rw [ofInt_next]

/-- As long as every value is one of the manual's, the registers hold it. -/
theorem forState_of_values {n : ℕ} (h : ∀ m ≤ n, ForValue i s (Value.integer l) m) :
    forState (Value.integer i) (Value.integer l) (Value.integer s) n = some (regsAt i l s n) := by
  induction n with
  | zero =>
      have hin := (h 0 (Nat.le_refl 0)).2
      have hi : i.toInt + (0 : ℕ) * s.toInt = i.toInt := by simp
      rw [hi] at hin
      rw [forState_zero, if_pos (cont_iff.2 hin)]
  | succ n ih =>
      obtain ⟨hfits, hin⟩ := h (n + 1) (Nat.le_refl _)
      rw [← toInt_ofInt_of_fits hfits, ← ofInt_next] at hin
      rw [forState, ih fun m hm => h m (Nat.le_succ_of_le hm), Option.bind_some, opForloop_regsAt,
        if_pos (cont_iff.2 hin)]

theorem visible_of_values {n : ℕ} (h : ∀ m ≤ n, ForValue i s (Value.integer l) m) :
    visible (Value.integer i) (Value.integer l) (Value.integer s) n =
      some (Value.integer (Int64.ofInt (i.toInt + n * s.toInt))) := by
  unfold visible
  rw [forState_of_values h]
  rfl

end IntegerLimit

/-- A loop that has ended does not start again. -/
theorem forState_none_of_le {init limit step : Value} {m n : ℕ}
    (h : forState init limit step m = none) (hmn : m ≤ n) : forState init limit step n = none := by
  induction n, hmn using Nat.le_induction with
  | base => exact h
  | succ n hmn ih => rw [forState, ih, Option.bind_none]

section IntegerLimit

variable {i l s : Int64}

/-- The values of the manual come first. -/
theorem forValue_of_le {limit : Value} {m n : ℕ} (hmn : m ≤ n) (h : ForValue i s limit n) :
    ForValue i s limit m := by
  obtain ⟨⟨hlow, hup⟩, hin⟩ := h
  have hi := i.le_toInt
  have hi' := i.toInt_lt
  rcases Int.lt_or_le 0 s.toInt with hpos | hneg
  · have hle : (m : ℤ) * s.toInt ≤ n * s.toInt :=
      Int.mul_le_mul_of_nonneg_right (by exact_mod_cast hmn) (by omega)
    have h0 : 0 ≤ (m : ℤ) * s.toInt := Int.mul_nonneg (by omega) (by omega)
    refine ⟨⟨by omega, by omega⟩, ?_⟩
    have hs : 0 < s := Int64.lt_iff_toInt_lt.2 hpos
    unfold Inside at *
    cases limit with
    | integer l => simp only [if_pos hs] at *; omega
    | float f =>
        simp only [if_pos hs] at *
        refine ⟨hin.1, Int.le_trans (Int.mul_le_mul_of_nonneg_right ?_ value_one_pos.le) hin.2⟩
        omega
    | _ => exact hin
  · have hle : (n : ℤ) * s.toInt ≤ m * s.toInt :=
      Int.mul_le_mul_of_nonpos_right (by exact_mod_cast hmn) hneg
    have h0 : (m : ℤ) * s.toInt ≤ 0 := Int.mul_nonpos_of_nonneg_of_nonpos (by omega) hneg
    refine ⟨⟨by omega, by omega⟩, ?_⟩
    have hs : ¬ 0 < s := fun hs => absurd (Int64.lt_iff_toInt_lt.1 hs) (Int.not_lt.2 hneg)
    unfold Inside at *
    cases limit with
    | integer l => simp only [if_neg hs] at *; omega
    | float f =>
        simp only [if_neg hs] at *
        refine ⟨hin.1, Int.le_trans hin.2 (Int.mul_le_mul_of_nonneg_right ?_ value_one_pos.le)⟩
        omega
    | _ => exact hin

/-- Nothing wraps around: after every value the next one fits an integer. -/
def IntegerLimitFits (i s l : Int64) : Prop :=
  ∀ n : ℕ, ForValue i s (Value.integer l) n → FitsInteger (i.toInt + (n + 1 : ℕ) * s.toInt)

/-- Where the values end the loop ends. -/
theorem visible_none (hfits : IntegerLimitFits i s l) {n : ℕ}
    (h : ¬ ForValue i s (Value.integer l) n) :
    visible (Value.integer i) (Value.integer l) (Value.integer s) n = none := by
  suffices hnone : forState (Value.integer i) (Value.integer l) (Value.integer s) n = none by
    unfold visible
    rw [hnone]
    rfl
  induction n with
  | zero =>
      have hi : i.toInt + (0 : ℕ) * s.toInt = i.toInt := by simp
      have hin : ¬ Inside s (Value.integer l) i.toInt := by
        intro hin
        refine h ⟨?_, ?_⟩
        · rw [hi]
          exact ⟨i.le_toInt, i.toInt_lt⟩
        · rw [hi]
          exact hin
      rw [forState_zero, if_neg (fun hc => hin (cont_iff.1 hc))]
  | succ n ih =>
      by_cases hn : ForValue i s (Value.integer l) n
      · have hin : ¬ Inside s (Value.integer l)
            (Int64.ofInt (i.toInt + n * s.toInt) + s).toInt := by
          rw [ofInt_next, toInt_ofInt_of_fits (hfits n hn)]
          exact fun hin => h ⟨hfits n hn, hin⟩
        rw [forState, forState_of_values fun m hm => forValue_of_le hm hn, Option.bind_some,
          opForloop_regsAt, if_neg (fun hc => hin (cont_iff.1 hc))]
      · exact forState_none_of_le (ih hn) (Nat.le_succ n)

/-- **An update that wraps around goes on**: it lands on the inner side of the limit. -/
theorem wraps_goes_on {n : ℕ} (hs : s ≠ 0) (hn : ForValue i s (Value.integer l) n)
    (hover : ¬ FitsInteger (i.toInt + (n + 1 : ℕ) * s.toInt)) :
    visible (Value.integer i) (Value.integer l) (Value.integer s) (n + 1) ≠ none := by
  obtain ⟨hfit, hin⟩ := hn
  have hslow := s.le_toInt
  have hsup := s.toInt_lt
  have hs0 : s.toInt ≠ 0 := fun h => hs ((toInt_eq_zero_iff s).1 h)
  have hsum : i.toInt + (n + 1 : ℕ) * s.toInt = i.toInt + n * s.toInt + s.toInt := by
    push_cast
    ring
  have hwrap : Inside s (Value.integer l) (Int64.ofInt (i.toInt + n * s.toInt) + s).toInt := by
    rw [Int64.toInt_add, toInt_ofInt_of_fits hfit, Int.bmod_def]
    rw [hsum] at hover
    unfold FitsInteger at *
    rw [inside_integer_iff] at *
    by_cases hpos : 0 < s
    · have hpos' : 0 < s.toInt := Int64.lt_iff_toInt_lt.1 hpos
      rw [if_pos hpos] at *
      split <;> omega
    · have hneg : ¬ 0 < s.toInt := fun h => hpos (Int64.lt_iff_toInt_lt.2 h)
      rw [if_neg hpos] at *
      split <;> omega
  unfold visible
  rw [forState, forState_of_values fun m hm => forValue_of_le hm ⟨hfit, hin⟩, Option.bind_some,
    opForloop_regsAt, if_pos (cont_iff.2 hwrap)]
  simp

end IntegerLimit

/-! ### Float limits -/

section FloatLimit

variable {i s : Int64} {f : UInt64}

/-- A number of units does not pass a double. -/
def UnitsInside (s : Int64) (f : UInt64) (x : ℤ) : Prop :=
  isNan f = false ∧ if 0 < s then x ≤ value f else value f ≤ x

/-- The initial value and the first update, as doubles. -/
def firstFloat (i : Int64) : ℤ := value (integerToFloat i)

def secondFloat (i s : Int64) : ℤ := value (add (integerToFloat i) (integerToFloat s))

/-- The body runs at most once, with the initial value: if the initial value as a double does not
pass the limit, neither does it exactly, there is no second value, and the update as a double
passes the limit. -/
def FloatLimitFits (i s : Int64) (f : UInt64) : Prop :=
  UnitsInside s f (firstFloat i) →
    Inside s (Value.float f) i.toInt ∧ ¬ ForValue i s (Value.float f) 1 ∧
      ¬ UnitsInside s f (secondFloat i s)

theorem value_zero : value 0 = 0 := by decide +kernel

theorem value_floatOne : value 0x3FF0000000000000 = one := by decide +kernel

/-- Rounding keeps the sign of an integer. -/
theorem lt_zero_integerToFloat_iff : lt 0 (integerToFloat s) = true ↔ 0 < s := by
  rw [lt_iff (by decide) (isNan_integerToFloat s), value_zero, Int64.lt_iff_toInt_lt]
  have hs0 : (0 : Int64).toInt = 0 := rfl
  rw [hs0]
  constructor
  · intro h
    by_contra hneg
    have hmono := value_ofInt_mono (Int.not_lt.1 hneg)
    have h0 : value (ofInt 0) = 0 := by decide +kernel
    rw [h0] at hmono
    exact absurd h (Int.not_lt.2 hmono)
  · intro h
    have hunit : value 0x3FF0000000000000 ≤ s.toInt * one := by
      rw [value_floatOne]
      exact le_mul_of_one_le_left value_one_pos.le h
    have hround := le_value_ofScaled (by decide) hunit
    rw [value_floatOne] at hround
    exact Int.lt_of_lt_of_le value_one_pos hround

/-- An integer as a double is finite. -/
theorem isInf_integerToFloat : isInf (integerToFloat i) = false := by
  have hlow : value (integerToFloat Int64.minValue) ≤ value (integerToFloat i) :=
    value_ofInt_mono i.minValue_le_toInt
  have hup : value (integerToFloat i) ≤ value (integerToFloat Int64.maxValue) :=
    value_ofInt_mono i.toInt_le
  rw [value_minValue] at hlow
  rw [value_maxValue] at hup
  unfold isInf
  rw [decide_eq_false_iff_not]
  intro hinf
  have hbig : (2 ^ 63 : ℤ) * one < 2 ^ 1024 * one :=
    Int.mul_lt_mul_of_pos_right (by decide +kernel) value_one_pos
  have hcast : ((magnitude infBits : ℕ) : ℤ) = 2 ^ 1024 * one := by
    rw [magnitude_infBits, Nat.cast_mul, Nat.cast_pow, Nat.cast_ofNat]
  have hval : value (integerToFloat i) = 2 ^ 1024 * one ∨
      value (integerToFloat i) = -(2 ^ 1024 * one) := by
    unfold value
    rw [hinf, hcast]
    split
    · exact Or.inr rfl
    · exact Or.inl rfl
  rw [Int.neg_mul] at hlow
  generalize (2 ^ 1024 * one : ℤ) = big at *
  generalize (2 ^ 63 * one : ℤ) = small at *
  omega

theorem isNan_add_integers : isNan (add (integerToFloat i) (integerToFloat s)) = false := by
  unfold add
  simp only [isNan_integerToFloat, isInf_integerToFloat, Bool.or_self, Bool.false_eq_true, if_false]
  split
  · exact isNan_ofSign (Nat.zero_le _) _
  · exact isNan_ofScaled _

/-- How the float form of a test compares. -/
theorem float_test_iff {x : UInt64} (hx : isNan x = false) :
    (if lt 0 (integerToFloat s) then le x f else le f x) = true ↔ UnitsInside s f (value x) := by
  have hle : ∀ a b, isNan a = false ∨ isNan b = false → (le a b = true ↔
      isNan a = false ∧ isNan b = false ∧ value a ≤ value b) := by
    intro a b _
    simp [le, and_assoc]
  unfold UnitsInside
  by_cases hs : 0 < s
  · rw [if_pos (lt_zero_integerToFloat_iff.2 hs), if_pos hs, hle x f (Or.inl hx)]
    simp [hx]
  · rw [if_neg (fun h => hs (lt_zero_integerToFloat_iff.1 h)), if_neg hs, hle f x (Or.inr hx)]
    simp [hx]

theorem forState_float_zero :
    forState (Value.integer i) (Value.float f) (Value.integer s) 0 =
      if (if lt 0 (integerToFloat s) then le (integerToFloat i) f
        else le f (integerToFloat i)) = true
      then some { init := Value.integer i, limit := Value.float f, step := Value.integer s,
                  «variable» := Value.integer i }
      else none := by
  unfold forState opForprep toNumberOr0 Value.asFloat
  dsimp only [Option.getD]
  generalize (if lt 0 (integerToFloat s) = true then le (integerToFloat i) f
    else le f (integerToFloat i)) = b
  cases b <;> rfl

/-- The first update leaves integers behind. -/
theorem visible_float_one (henter : UnitsInside s f (firstFloat i)) :
    (UnitsInside s f (secondFloat i s) →
      visible (Value.integer i) (Value.float f) (Value.integer s) 1 =
        some (Value.float (add (integerToFloat i) (integerToFloat s)))) ∧
    (¬ UnitsInside s f (secondFloat i s) →
      forState (Value.integer i) (Value.float f) (Value.integer s) 1 = none) := by
  have hfirst := forState_float_zero (i := i) (s := s) (f := f)
  rw [if_pos ((float_test_iff (isNan_integerToFloat i)).2 henter)] at hfirst
  have htest := float_test_iff (s := s) (f := f) (isNan_add_integers (i := i) (s := s))
  have hstep : forState (Value.integer i) (Value.float f) (Value.integer s) 1 =
      if (if lt 0 (integerToFloat s) then le (add (integerToFloat i) (integerToFloat s)) f
          else le f (add (integerToFloat i) (integerToFloat s))) = true
      then some { init := Value.float (add (integerToFloat i) (integerToFloat s)),
                  limit := Value.float f, step := Value.integer s,
                  «variable» := Value.float (add (integerToFloat i) (integerToFloat s)) }
      else none := by
    rw [forState, hfirst, Option.bind_some]
    rfl
  constructor
  · intro hgo
    unfold visible
    rw [hstep, if_pos (htest.2 hgo)]
    rfl
  · intro hstop
    rw [hstep, if_neg fun h => hstop (htest.1 h)]

theorem visible_float_zero (henter : UnitsInside s f (firstFloat i)) :
    visible (Value.integer i) (Value.float f) (Value.integer s) 0 = some (Value.integer i) := by
  unfold visible
  rw [forState_float_zero, if_pos ((float_test_iff (isNan_integerToFloat i)).2 henter)]
  rfl

theorem forState_float_skips (hskip : ¬ UnitsInside s f (firstFloat i)) :
    forState (Value.integer i) (Value.float f) (Value.integer s) 0 = none := by
  rw [forState_float_zero, if_neg fun h => hskip ((float_test_iff (isNan_integerToFloat i)).1 h)]

/-- Rounding does not move the initial value past the limit. -/
theorem units_of_inside (h : Inside s (Value.float f) i.toInt) :
    UnitsInside s f (firstFloat i) := by
  obtain ⟨hf, hin⟩ := h
  refine ⟨hf, ?_⟩
  by_cases hs : 0 < s
  · rw [if_pos hs] at hin ⊢
    exact value_ofScaled_le hf hin
  · rw [if_neg hs] at hin ⊢
    exact le_value_ofScaled hf hin

theorem forValue_zero_iff {limit : Value} :
    ForValue i s limit 0 ↔ Inside s limit i.toInt := by
  have hi : i.toInt + (0 : ℕ) * s.toInt = i.toInt := by simp
  unfold ForValue
  rw [hi]
  exact ⟨fun h => h.2, fun h => ⟨⟨i.le_toInt, i.toInt_lt⟩, h⟩⟩

/-- With a float limit the loop is right exactly when it runs at most once, as it should. -/
theorem float_values_iff :
    (∀ n, (ForValue i s (Value.float f) n →
        visible (Value.integer i) (Value.float f) (Value.integer s) n =
          some (Value.integer (Int64.ofInt (i.toInt + n * s.toInt)))) ∧
      (¬ ForValue i s (Value.float f) n →
        visible (Value.integer i) (Value.float f) (Value.integer s) n = none)) ↔
      FloatLimitFits i s f := by
  constructor
  · intro h henter
    have hzero := visible_float_zero henter
    obtain ⟨hgo, hstop⟩ := visible_float_one henter
    have h0 : ForValue i s (Value.float f) 0 := by
      by_contra hno
      rw [(h 0).2 hno] at hzero
      exact absurd hzero (by simp)
    have hends : ¬ UnitsInside s f (secondFloat i s) := by
      intro hin
      have hone := hgo hin
      by_cases h1 : ForValue i s (Value.float f) 1
      · rw [(h 1).1 h1] at hone
        exact absurd hone (by simp)
      · rw [(h 1).2 h1] at hone
        exact absurd hone (by simp)
    refine ⟨forValue_zero_iff.1 h0, fun h1 => ?_, hends⟩
    have hone := (h 1).1 h1
    unfold visible at hone
    rw [hstop hends] at hone
    exact absurd hone (by simp)
  · intro hfits n
    by_cases henter : UnitsInside s f (firstFloat i)
    · obtain ⟨h0, h1, hends⟩ := hfits henter
      obtain ⟨-, hstop⟩ := visible_float_one henter
      cases n with
      | zero =>
          have hi : i.toInt + (0 : ℕ) * s.toInt = i.toInt := by simp
          refine ⟨fun _ => ?_, fun hno => absurd (forValue_zero_iff.2 h0) hno⟩
          rw [visible_float_zero henter, hi, Int64.ofInt_toInt]
      | succ n =>
          refine ⟨fun hn => absurd (forValue_of_le (by omega) hn) h1, fun _ => ?_⟩
          unfold visible
          rw [forState_none_of_le (hstop hends) (by omega)]
          rfl
    · refine ⟨fun hn => absurd ?_ henter, fun _ => ?_⟩
      · exact units_of_inside (forValue_zero_iff.1 (forValue_of_le (Nat.zero_le n) hn))
      · unfold visible
        rw [forState_none_of_le (forState_float_skips henter) (Nat.zero_le n)]
        rfl

end FloatLimit

/-! ### The loop -/

/-- The loops that follow the manual. -/
structure ForFits (init limit step : Value) : Prop where
  numbers : init.asFloat ≠ none ∧ limit.asFloat ≠ none ∧ step.asFloat ≠ none
  zero : ∀ i, init = Value.integer i → step ≠ Value.integer 0
  integerLimit : ∀ i s l, init = Value.integer i → step = Value.integer s →
    limit = Value.integer l → IntegerLimitFits i s l
  floatLimit : ∀ i s f, init = Value.integer i → step = Value.integer s →
    limit = Value.float f → FloatLimitFits i s f

/-- `FORPREP` reports no error. -/
theorem opForprep_ne_raises (r : ForRegs) : opForprep r ≠ ForStart.raises := by
  intro h
  unfold opForprep at h
  rcases ite_eq_iff.1 h with ⟨-, h⟩ | ⟨-, h⟩
  · cases h
  · cases h

/-- With an integer limit the loop is right exactly when nothing wraps around. -/
theorem integer_values_iff {i l s : Int64} (hs : s ≠ 0) :
    (∀ n, (ForValue i s (Value.integer l) n →
        visible (Value.integer i) (Value.integer l) (Value.integer s) n =
          some (Value.integer (Int64.ofInt (i.toInt + n * s.toInt)))) ∧
      (¬ ForValue i s (Value.integer l) n →
        visible (Value.integer i) (Value.integer l) (Value.integer s) n = none)) ↔
      IntegerLimitFits i s l := by
  constructor
  · intro h n hn
    by_contra hover
    exact wraps_goes_on hs hn hover ((h (n + 1)).2 fun hnext => hover hnext.1)
  · exact fun hfits n =>
      ⟨fun hn => visible_of_values fun m hm => forValue_of_le hm hn, visible_none hfits⟩

/-- **When a numeric `for` loop follows the manual**: the operands are numbers, the step of an
integer loop is not zero, no update wraps around before the limit is passed, and with a float limit
the body runs at most once. -/
theorem numeric_for_iff (init limit step : Value) :
    ForRules init limit step ↔ ForFits init limit step := by
  constructor
  · intro h
    have hnum : init.asFloat ≠ none ∧ limit.asFloat ≠ none ∧ step.asFloat ≠ none := by
      refine ⟨fun h0 => ?_, fun h0 => ?_, fun h0 => ?_⟩
      · exact opForprep_ne_raises _ (h.numbers (Or.inl h0))
      · exact opForprep_ne_raises _ (h.numbers (Or.inr (Or.inl h0)))
      · exact opForprep_ne_raises _ (h.numbers (Or.inr (Or.inr h0)))
    have hzero : ∀ i, init = Value.integer i → step ≠ Value.integer 0 :=
      fun i hi hs => opForprep_ne_raises _ (h.zero i hi hs)
    refine ⟨hnum, hzero, ?_, ?_⟩
    · rintro i s l rfl rfl rfl
      have hs : s ≠ 0 := fun h0 => hzero i rfl (by rw [h0])
      exact (integer_values_iff hs).1 (h.values i s rfl rfl hs hnum.2.1)
    · rintro i s f rfl rfl rfl
      have hs : s ≠ 0 := fun h0 => hzero i rfl (by rw [h0])
      exact float_values_iff.1 (h.values i s rfl rfl hs hnum.2.1)
  · intro h
    refine ⟨?_, fun i hi hs => absurd hs (h.zero i hi), ?_⟩
    · rintro (h0 | h0 | h0)
      · exact absurd h0 h.numbers.1
      · exact absurd h0 h.numbers.2.1
      · exact absurd h0 h.numbers.2.2
    · rintro i s rfl rfl hs -
      cases limit with
      | integer l => exact (integer_values_iff hs).2 (h.integerLimit i s l rfl rfl rfl)
      | float f => exact float_values_iff.2 (h.floatLimit i s f rfl rfl rfl)
      | _ => exact absurd rfl h.numbers.2.1

/-- `for i = 1, 2, 0` is no error, and `for i = 1, 2.0` sees a double the second time. -/
theorem numeric_for_differs :
    opForprep { init := Value.integer 1, limit := Value.integer 2, step := Value.integer 0,
                «variable» := Value.nil } ≠ ForStart.raises ∧
      visible (Value.integer 1) (Value.float 0x4000000000000000) (Value.integer 1) 1 =
        some (Value.float 0x4000000000000000) ∧
        visible (Value.integer Int64.maxValue) (Value.integer Int64.maxValue) (Value.integer 1) 1 =
          some (Value.integer Int64.minValue) := by
  refine ⟨opForprep_ne_raises _, ?_, ?_⟩ <;> decide +kernel

end Tcvm
