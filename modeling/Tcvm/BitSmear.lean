/-
Masks by smearing bits.

The smallest number of the form `2 ^ k - 1` that is at least `n` has every bit from the highest bit
of `n` down.  It is reached by setting every bit that has a bit of `n` less than `s` places above
it, for a distance `s` that doubles: or-ing a number with itself shifted by the distance doubles the
distance.  Nothing here is about a particular program.

* `IsMask`, `LeastMask` — the numbers `2 ^ k - 1`, and the smallest one above a number;
* `and_succ_eq_zero_iff` — the test for a mask;
* `Smeared` — the bits of `n`, smeared down over a distance;
* `Smeared.double` — one step;
* `Smeared.leastMask`, `Smeared.isMask` — when it is done.
-/

import Mathlib.Algebra.Group.Nat.Defs
import Mathlib.Data.Nat.Size

namespace BitSmear

/-! ### Masks -/

def IsMask (m : ℕ) : Prop := ∃ k, m = 2 ^ k - 1

/-- The smallest mask that is at least `n`. -/
structure LeastMask (n m : ℕ) : Prop where
  isMask : IsMask m
  le : n ≤ m
  least : ∀ m', IsMask m' → n ≤ m' → m ≤ m'

/-- A number is a mask iff it shares no bit with its successor. -/
theorem and_succ_eq_zero_iff (m : ℕ) : m &&& (m + 1) = 0 ↔ IsMask m := by
  have hpow := Nat.and_sub_one_eq_zero_iff_isPowerOfTwo (Nat.succ_ne_zero m)
  rw [Nat.succ_eq_add_one, Nat.add_sub_cancel, Nat.and_comm] at hpow
  rw [hpow]
  constructor
  · rintro ⟨k, hk⟩
    exact ⟨k, by omega⟩
  · rintro ⟨k, hk⟩
    have := Nat.two_pow_pos k
    exact ⟨k, by omega⟩

/-- The mask of the size of `n` is the smallest one. -/
theorem leastMask_size (n : ℕ) : LeastMask n (2 ^ n.size - 1) where
  isMask := ⟨n.size, rfl⟩
  le := by
    have := Nat.lt_size_self n
    omega
  least m' hm' hle := by
    obtain ⟨k, rfl⟩ := hm'
    have hpos := Nat.two_pow_pos k
    have hsize : n.size ≤ k := Nat.size_le.2 (by omega)
    have := Nat.pow_le_pow_right (show 0 < 2 by decide) hsize
    omega

theorem LeastMask.unique {n m m' : ℕ} (h : LeastMask n m) (h' : LeastMask n m') : m = m' :=
  Nat.le_antisymm (h.least m' h'.isMask h'.le) (h'.least m h.isMask h.le)

/-! ### Smearing -/

/-- The bits of `m` are those that have a bit of `n` less than `s` places above them. -/
def Smeared (n s m : ℕ) : Prop :=
  ∀ b, m.testBit b = true ↔ ∃ j < s, n.testBit (b + j) = true

variable {n s m : ℕ}

theorem smeared_one (n : ℕ) : Smeared n 1 n := by
  intro b
  constructor
  · exact fun h => ⟨0, Nat.one_pos, h⟩
  · rintro ⟨j, hj, h⟩
    obtain rfl : j = 0 := by omega
    exact h

/-- **One step** doubles the distance. -/
theorem Smeared.double (h : Smeared n s m) : Smeared n (2 * s) (m ||| m >>> s) := by
  intro b
  rw [Nat.testBit_or, Nat.testBit_shiftRight, Bool.or_eq_true, h b, h (s + b)]
  constructor
  · rintro (⟨j, hj, hbit⟩ | ⟨j, hj, hbit⟩)
    · exact ⟨j, by omega, hbit⟩
    · refine ⟨s + j, by omega, ?_⟩
      rwa [show b + (s + j) = s + b + j by omega]
  · rintro ⟨j, hj, hbit⟩
    by_cases hlt : j < s
    · exact Or.inl ⟨j, hlt, hbit⟩
    · refine Or.inr ⟨j - s, by omega, ?_⟩
      rwa [show s + b + (j - s) = b + j by omega]

theorem Smeared.le (h : Smeared n s m) (hs : 0 < s) : n ≤ m := by
  have hsub : n &&& m = n := by
    refine Nat.eq_of_testBit_eq fun b => ?_
    rw [Nat.testBit_and]
    cases hbit : n.testBit b with
    | false => rfl
    | true => rw [(h b).2 ⟨0, hs, hbit⟩, Bool.and_true]
  rw [← hsub]
  exact Nat.and_le_right

/-- No bit is set above the highest one. -/
theorem Smeared.lt_pow_size (h : Smeared n s m) : m < 2 ^ n.size := by
  refine Nat.lt_pow_two_of_testBit m fun b hb => ?_
  rw [Bool.eq_false_iff]
  intro hbit
  obtain ⟨j, -, hj⟩ := (h b).1 hbit
  have hbig := Nat.ge_two_pow_of_testBit hj
  have hlt := Nat.lt_size_self n
  have := Nat.pow_le_pow_right (show 0 < 2 by decide) (show n.size ≤ b + j by omega)
  omega

/-- A smeared number that is a mask is the smallest one. -/
theorem Smeared.leastMask (h : Smeared n s m) (hs : 0 < s) (hm : IsMask m) : LeastMask n m := by
  have hleast := leastMask_size n
  have hle := hleast.least m hm (h.le hs)
  have hlt := h.lt_pow_size
  have heq : m = 2 ^ n.size - 1 := by omega
  rw [heq]
  exact hleast

/-- Over the whole size of `n` the smeared number is a mask. -/
theorem Smeared.isMask (h : Smeared n s m) (hs : n.size ≤ s) : IsMask m := by
  refine ⟨n.size, Nat.eq_of_testBit_eq fun b => ?_⟩
  rw [Nat.testBit_two_pow_sub_one, Bool.eq_iff_iff, h b, decide_eq_true_iff]
  constructor
  · rintro ⟨j, -, hj⟩
    refine Nat.lt_of_not_le fun hge => ?_
    have hbig := Nat.ge_two_pow_of_testBit hj
    have hlt := Nat.lt_size_self n
    have := Nat.pow_le_pow_right (show 0 < 2 by decide) (show n.size ≤ b + j by omega)
    omega
  · -- the highest bit of `n` is near enough
    intro hb
    refine ⟨n.size - 1 - b, by omega, ?_⟩
    rw [show b + (n.size - 1 - b) = n.size - 1 by omega, ← Bool.not_eq_false]
    intro hno
    have hlow : n < 2 ^ (n.size - 1) := by
      refine Nat.lt_pow_two_of_testBit n fun i hi => ?_
      rcases Nat.eq_or_lt_of_le hi with rfl | hi
      · exact hno
      · refine Nat.testBit_lt_two_pow (Nat.lt_of_lt_of_le (Nat.lt_size_self n) ?_)
        exact Nat.pow_le_pow_right (by decide) (by omega)
    have := Nat.size_le.2 hlow
    omega

end BitSmear
