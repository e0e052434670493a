/-
The integers that doubles denote.

Tables and the library convert a double to an integer by taking its bits apart.  Read through
`Tcvm/Binary64.lean`, all of them ask whether its value is a whole multiple of the unit.

* `f64ToNat?_eq_some_iff`, `f64ToInt?_eq_some_iff` — the integer a finite double denotes;
* `floatToInteger_eq_some_iff` — **`float_to_integer` succeeds exactly on the doubles that denote
  an `i64`**.
-/

import Tcvm.Binary64
import Tcvm.RawTable
import Tcvm.StringPack

namespace Tcvm

open Binary64

/-- The significand and the exponent of the bits, as `f64ToNat?` computes them. -/
theorem significand_eq {b : ℕ} (h : b < infBits) :
    (if b / 2 ^ 52 % 2 ^ 11 = 0 then b % 2 ^ 52 else b % 2 ^ 52 + 2 ^ 52) =
        b - place b * 2 ^ 52 ∧
      max (b / 2 ^ 52 % 2 ^ 11) 1 = place b + 1 := by
  unfold infBits at h
  unfold place
  constructor
  · split <;> omega
  · omega

/-- The natural number a double denotes. -/
theorem f64ToNat?_eq_some_iff {f : UInt64} {n : ℕ} :
    f64ToNat? f = some n ↔
      f.toNat < 2 ^ 63 ∧ magBits f < infBits ∧ magnitude (magBits f) = n * one := by
  unfold f64ToNat? magBits
  dsimp only
  have hlt := f.toNat_lt
  by_cases hsign : f.toNat < 2 ^ 63
  · rw [Nat.mod_eq_of_lt hsign, and_iff_right hsign]
    by_cases hfin : f.toNat < infBits
    · obtain ⟨hm, he⟩ := significand_eq hfin
      rw [and_iff_right hfin, hm, he, if_neg (by unfold infBits at hfin; omega)]
      unfold magnitude one
      generalize f.toNat - place f.toNat * 2 ^ 52 = m
      generalize place f.toNat = k
      by_cases hk : 1074 ≤ k
      · obtain ⟨j, rfl⟩ := Nat.exists_eq_add_of_le hk
        have hj : 1074 + j + 1 - 1075 = j := by omega
        rw [if_pos (by omega), hj, pow_add]
        have hiff : m * 2 ^ j = n ↔ m * (2 ^ 1074 * 2 ^ j) = n * 2 ^ 1074 := by
          rw [Nat.mul_comm (2 ^ 1074), ← Nat.mul_assoc]
          exact (Nat.mul_left_inj (by positivity)).symm
        rw [← hiff, Option.some_inj]
      · obtain ⟨j, hj⟩ := Nat.exists_eq_add_of_le (Nat.le_of_not_le hk)
        have hplace : 1075 - (k + 1) = j := by omega
        have hiff : m = n * 2 ^ j ↔ m * 2 ^ k = n * 2 ^ 1074 := by
          rw [hj, pow_add, Nat.mul_comm (2 ^ k), ← Nat.mul_assoc]
          exact (Nat.mul_left_inj (by positivity)).symm
        rw [if_neg (by omega), hplace, ← hiff]
        have hpos : 0 < 2 ^ j := by positivity
        split
        · rename_i hmod
          have hdiv : m / 2 ^ j = n ↔ m = n * 2 ^ j := by
            constructor
            · rintro rfl
              exact (Nat.div_mul_cancel (Nat.dvd_of_mod_eq_zero hmod)).symm
            · rintro rfl
              exact Nat.mul_div_cancel n hpos
          rw [← hdiv, Option.some_inj]
        · rename_i hmod
          have hne : m ≠ n * 2 ^ j := by
            rintro rfl
            exact hmod (Nat.mul_mod_left n (2 ^ j))
          simp [hne]
    · rw [if_pos (by unfold infBits at hfin; omega)]
      simp [hfin]
  · rw [if_pos (by omega)]
    exact ⟨fun h => absurd h (by simp), fun h => absurd h.1 hsign⟩

/-- The integer a double denotes. -/
theorem f64ToInt?_eq_some_iff {f : UInt64} {z : ℤ} :
    f64ToInt? f = some z ↔ magBits f < infBits ∧ value f = z * one := by
  have hlt := f.toNat_lt
  have hinf := infBits_lt
  unfold f64ToInt?
  by_cases hsign : f.toNat / 2 ^ 63 = 1
  · have hbits : (UInt64.ofNat (f.toNat - 2 ^ 63)).toNat = magBits f := by
      rw [UInt64.toNat_ofNat']
      unfold magBits
      omega
    have hmag : magBits (UInt64.ofNat (f.toNat - 2 ^ 63)) = magBits f := by
      unfold magBits at *
      omega
    have hval : value f = -(magnitude (magBits f) : ℤ) := by
      unfold value sign
      rw [if_pos (by simp; omega)]
    rw [if_pos hsign, Option.map_eq_some_iff, hval]
    simp only [f64ToNat?_eq_some_iff, hbits, hmag]
    constructor
    · rintro ⟨n, ⟨-, hfin, hn⟩, rfl⟩
      refine ⟨hfin, ?_⟩
      rw [hn]
      push_cast
      ring
    · rintro ⟨hfin, hz⟩
      refine ⟨(-z).toNat, ⟨by unfold magBits; omega, hfin, ?_⟩, ?_⟩
      · have hnonneg : 0 ≤ -z := by
          by_contra hneg
          have := Int.mul_pos (by omega : 0 < z) value_one_pos
          omega
        have hcast : ((magnitude (magBits f) : ℕ) : ℤ) = ((-z).toNat * one : ℕ) := by
          push_cast
          rw [Int.toNat_of_nonneg hnonneg]
          linarith
        exact_mod_cast hcast
      · have hnonneg : 0 ≤ -z := by
          by_contra hneg
          have := Int.mul_pos (by omega : 0 < z) value_one_pos
          omega
        rw [Int.toNat_of_nonneg hnonneg]
        omega
  · have hpos : f.toNat < 2 ^ 63 := by omega
    have hval : value f = magnitude (magBits f) := by
      unfold value sign
      rw [if_neg (by simp; omega)]
    rw [if_neg hsign, Option.map_eq_some_iff, hval]
    simp only [f64ToNat?_eq_some_iff]
    constructor
    · rintro ⟨n, ⟨-, hfin, hn⟩, rfl⟩
      exact ⟨hfin, by exact_mod_cast hn⟩
    · rintro ⟨hfin, hz⟩
      have hnonneg : 0 ≤ z := by
        by_contra hneg
        have := Int.mul_neg_of_neg_of_pos (by omega : z < 0) value_one_pos
        omega
      refine ⟨z.toNat, ⟨hpos, hfin, ?_⟩, Int.toNat_of_nonneg hnonneg⟩
      have hcast : ((magnitude (magBits f) : ℕ) : ℤ) = (z.toNat * one : ℕ) := by
        push_cast
        rw [Int.toNat_of_nonneg hnonneg]
        exact hz
      exact_mod_cast hcast

/-- **`float_to_integer`** succeeds exactly on the doubles that denote an integer of 64 bits. -/
theorem floatToInteger_eq_some_iff {f : UInt64} {i : Int64} :
    floatToInteger f = some i ↔ f64ToInt? f = some i.toInt := by
  have hlt := f.toNat_lt
  have hi := i.le_toInt
  have hi' := i.toInt_lt
  have hbits : (UInt64.ofNat (f.toNat % 2 ^ 63)).toNat = f.toNat % 2 ^ 63 := by
    rw [UInt64.toNat_ofNat']
    omega
  unfold floatToInteger f64ToInt?
  by_cases hsign : f.toNat / 2 ^ 63 = 1
  · have hlow : f.toNat % 2 ^ 63 = f.toNat - 2 ^ 63 := by omega
    rw [if_pos hsign, hlow]
    cases hn : f64ToNat? (UInt64.ofNat (f.toNat - 2 ^ 63)) with
    | none => simp
    | some n =>
        dsimp only
        rw [if_pos (by omega), Option.map_some, Option.some_inj]
        constructor
        · intro h
          split at h
          · rename_i hle
            rw [← Option.some_inj.1 h, Int64.toInt_ofInt_of_le (by omega) (by omega)]
          · exact absurd h (by simp)
        · intro h
          rw [if_pos (by omega), h, Int64.ofInt_toInt]
  · have hlow : f.toNat % 2 ^ 63 = f.toNat := by omega
    rw [if_neg hsign, hlow, UInt64.ofNat_toNat]
    cases hn : f64ToNat? f with
    | none => simp
    | some n =>
        dsimp only
        rw [if_neg (by omega), Option.map_some, Option.some_inj]
        constructor
        · intro h
          split at h
          · rename_i hle
            rw [← Option.some_inj.1 h, Int64.toInt_ofNat_of_lt hle]
          · exact absurd h (by simp)
        · intro h
          rw [if_pos (by omega), ← Int64.ofInt_toInt i, ← h]
          rfl

theorem magnitude_infBits : magnitude infBits = 2 ^ 1024 * one := by decide +kernel

/-- A double that denotes an integer of 64 bits is finite. -/
theorem magBits_lt_of_value {f : UInt64} {i : Int64} (h : value f = i.toInt * one) :
    magBits f < infBits := by
  by_contra hinf
  have hlow := i.le_toInt
  have hup := i.toInt_lt
  have hmag := magnitude_le_magnitude (Nat.not_lt.1 hinf)
  rw [magnitude_infBits] at hmag
  have hcast : (2 ^ 1024 * one : ℤ) ≤ magnitude (magBits f) := by exact_mod_cast hmag
  have hpow : (2 ^ 63 : ℤ) < 2 ^ 1024 := by decide +kernel
  have hbig : (2 ^ 63 : ℤ) * one < 2 ^ 1024 * one := Int.mul_lt_mul_of_pos_right hpow value_one_pos
  have hle : i.toInt * one ≤ 2 ^ 63 * one :=
    Int.mul_le_mul_of_nonneg_right (by omega) value_one_pos.le
  have hge : -2 ^ 63 * one ≤ i.toInt * one :=
    Int.mul_le_mul_of_nonneg_right hlow value_one_pos.le
  rw [Int.neg_mul] at hge
  unfold value at h
  split at h <;> omega

/-- The index of a double: the integer it denotes, or the one to which `2 ^ 63` saturates. -/
theorem value_of_arrayIndex {f : UInt64} {index : ℕ} (h : arrayIndex (Value.float f) = some index) :
    (value f = index * one ∧ index < 2 ^ 63) ∨
      (value f = 2 ^ 63 * one ∧ index = 2 ^ 63 - 1) := by
  simp only [arrayIndex] at h
  cases hn : f64ToNat? f with
  | none => simp [hn] at h
  | some n =>
      have hz : f64ToInt? f = some (n : ℤ) := by
        have hsign := (f64ToNat?_eq_some_iff.1 hn).1
        unfold f64ToInt?
        rw [if_neg (by omega), hn]
        rfl
      have hval := (f64ToInt?_eq_some_iff.1 hz).2
      simp only [hn] at h
      split at h
      · exact absurd h (by simp)
      · split at h
        · obtain rfl := Option.some_inj.1 h
          exact Or.inl ⟨hval, by assumption⟩
        · split at h
          · rename_i hn63
            have hcast : ((2 ^ 63 : ℕ) : ℤ) = 2 ^ 63 := rfl
            rw [hn63, hcast] at hval
            exact Or.inr ⟨hval, (Option.some_inj.1 h).symm⟩
          · exact absurd h (by simp)

end Tcvm
