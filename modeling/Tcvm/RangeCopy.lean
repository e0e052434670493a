/-
Copying places one after another.

Each copy reads one place and writes another one, so a later copy may read what an earlier one has
written.  Where it never does, and no place is written twice, the written places end up with what
the read ones held at the start.  Nothing here is about a particular memory.

* `copySteps` — the copies of a list, in its order;
* `Safe` — no copy touches what an earlier one has written;
* `copySteps_elsewhere`, `copySteps_written` — what the copies leave and what they write;
* `safe_range`, `safe_reverse_range` — counting up and counting down.
-/

import Mathlib.Data.List.Range

namespace RangeCopy

variable {ι α β : Type*}

/-- No copy reads or writes a place that an earlier one has written. -/
def Safe (src dst : ι → α) (is : List ι) : Prop :=
  is.Pairwise fun i j => src j ≠ dst i ∧ dst j ≠ dst i

section

variable [DecidableEq α]

/-- One copy after another, from the place `src i` to the place `dst i`. -/
def copySteps (src dst : ι → α) : List ι → (α → β) → α → β
  | [], m => m
  | i :: is, m => copySteps src dst is (Function.update m (dst i) (m (src i)))

variable {src dst : ι → α} {is : List ι} {m : α → β}

theorem copySteps_elsewhere {a : α} (h : ∀ i ∈ is, a ≠ dst i) :
    copySteps src dst is m a = m a := by
  induction is generalizing m with
  | nil => rfl
  | cons i is ih =>
      rw [copySteps, ih fun j hj => h j (List.mem_cons_of_mem _ hj)]
      exact Function.update_of_ne (h i (List.mem_cons_self ..)) _ _

/-- **Safe copies** write what was there at the start. -/
theorem copySteps_written (h : Safe src dst is) {i : ι} (hi : i ∈ is) :
    copySteps src dst is m (dst i) = m (src i) := by
  induction is generalizing m with
  | nil => exact absurd hi List.not_mem_nil
  | cons j js ih =>
      obtain ⟨hfirst, hrest⟩ := List.pairwise_cons.1 h
      rw [copySteps]
      rcases List.mem_cons.1 hi with rfl | hi
      · rw [copySteps_elsewhere fun k hk => (hfirst k hk).2.symm]
        exact Function.update_self _ _ _
      · rw [ih hrest hi]
        exact Function.update_of_ne (hfirst i hi).1 _ _

end

variable {n : ℕ} {src dst : ℕ → α}

theorem safe_range (hdst : ∀ i j, i < j → j < n → dst j ≠ dst i)
    (hsrc : ∀ i j, i < j → j < n → src j ≠ dst i) : Safe src dst (List.range n) := by
  refine (List.pairwise_lt_range.imp_of_mem ?_)
  intro i j _ hj hlt
  have hj := List.mem_range.1 hj
  exact ⟨hsrc i j hlt hj, hdst i j hlt hj⟩

theorem safe_reverse_range (hdst : ∀ i j, i < j → j < n → dst j ≠ dst i)
    (hsrc : ∀ i j, i < j → j < n → src i ≠ dst j) : Safe src dst (List.range n).reverse := by
  refine List.pairwise_reverse.2 (List.pairwise_lt_range.imp_of_mem ?_)
  intro i j _ hj hlt
  have hj := List.mem_range.1 hj
  exact ⟨hsrc i j hlt hj, (hdst i j hlt hj).symm⟩

end RangeCopy
