/-
Slots from a counter that saturates.

Keys are given slots one after another by a counter that stays at its cap once it has reached it,
and the table of the slots is as long as the counter says at the end.  The keys up to the cap have
slots of their own; the one behind them gets the length of the table.  Nothing here is about a
particular program.

* `Given` — the slots that a list of keys was given;
* `given_concat` — one key more;
* `sound_iff` — **slots are in the table, and each has one key, iff the keys are not more than the
  cap**.
-/

import Mathlib.Data.List.Basic

namespace SaturatingSlots

variable {κ : Type*} {cap : ℕ} {keys : List κ}

/-- The keys were given this slot for this key. -/
def Given (cap : ℕ) (keys : List κ) (p : ℕ × κ) : Prop :=
  ∃ j, keys[j]? = some p.2 ∧ p.1 = min j cap

theorem not_given_nil (p : ℕ × κ) : ¬ Given cap [] p := by
  rintro ⟨j, hj, -⟩
  exact absurd hj (by simp)

/-- **One key more** gets what the counter says. -/
theorem given_concat {key : κ} {p : ℕ × κ} :
    Given cap (keys ++ [key]) p ↔ Given cap keys p ∨ p = (min keys.length cap, key) := by
  constructor
  · rintro ⟨j, hj, hp⟩
    rcases Nat.lt_trichotomy j keys.length with hlt | rfl | hgt
    · rw [List.getElem?_append_left hlt] at hj
      exact Or.inl ⟨j, hj, hp⟩
    · rw [List.getElem?_concat_length] at hj
      exact Or.inr (Prod.ext hp (Option.some.inj hj).symm)
    · have hlen : (keys ++ [key]).length ≤ j := by
        rw [List.length_append, List.length_singleton]
        omega
      rw [List.getElem?_eq_none hlen] at hj
      cases hj
  · rintro (⟨j, hj, hp⟩ | rfl)
    · obtain ⟨hlt, -⟩ := List.getElem?_eq_some_iff.1 hj
      exact ⟨j, (List.getElem?_append_left hlt).trans hj, hp⟩
    · exact ⟨keys.length, List.getElem?_concat_length, rfl⟩

/-- The counter behind one key more. -/
theorem counter_succ (n : ℕ) : min (min n cap + 1) cap = min (n + 1) cap := by omega

/-- **The slots are in the table and each has one key** iff the keys are not more than the cap. -/
theorem sound_iff {uses : ℕ × κ → Prop} (huses : ∀ p, uses p ↔ Given cap keys p) :
    ((∀ p, uses p → p.1 < min keys.length cap) ∧
        ∀ p q, uses p → uses q → p.1 = q.1 → p.2 = q.2) ↔ keys.length ≤ cap := by
  constructor
  · rintro ⟨hrange, -⟩
    by_contra hlong
    -- the key behind the cap has the length of the table as its slot
    have hlt : cap < keys.length := Nat.lt_of_not_le hlong
    have huse : uses (cap, keys[cap]) :=
      (huses _).2 ⟨cap, List.getElem?_eq_getElem hlt, (Nat.min_self cap).symm⟩
    have hslot : cap < min keys.length cap := hrange _ huse
    omega
  · intro hshort
    -- below the cap the slot of a key is its position
    have hposition : ∀ p, uses p → ∃ j, keys[j]? = some p.2 ∧ p.1 = j ∧ j < keys.length := by
      intro p hp
      obtain ⟨j, hj, hslot⟩ := (huses p).1 hp
      obtain ⟨hlt, -⟩ := List.getElem?_eq_some_iff.1 hj
      exact ⟨j, hj, by omega, hlt⟩
    refine ⟨fun p hp => ?_, fun p q hp hq heq => ?_⟩
    · obtain ⟨j, -, hslot, hlt⟩ := hposition p hp
      omega
    · obtain ⟨i, hi, hpi, -⟩ := hposition p hp
      obtain ⟨j, hj, hqj, -⟩ := hposition q hq
      obtain rfl : i = j := by omega
      exact Option.some.inj (hi.symm.trans hj)

end SaturatingSlots
