/-
A loop with a condition, for a bounded number of rounds.

The body may fail.  A loop whose states are known one after another ends in the last of them; a
loop with an invariant and a measure that falls ends, and the invariant holds where it does.
Nothing here is about a particular program.

* `whileLoop` — the loop;
* `whileLoop_run` — **the states one after another**;
* `whileLoop_ends` — **invariant and measure**.
-/

import Mathlib.Data.List.Basic

namespace WhileLoop

variable {σ ε : Type*}

/-- `while cond(x) { x = body(x) }`, with `stuck` after too many rounds. -/
def whileLoop (stuck : ε) (cond : σ → Bool) (body : σ → Except ε σ) : ℕ → σ → Except ε σ
  | 0, _ => Except.error stuck
  | rounds + 1, x => if cond x then body x >>= whileLoop stuck cond body rounds else Except.ok x

variable {stuck : ε} {cond : σ → Bool} {body : σ → Except ε σ}

theorem whileLoop_stop {rounds : ℕ} {x : σ} (hcond : cond x = false) :
    whileLoop stuck cond body (rounds + 1) x = Except.ok x := by
  rw [whileLoop, hcond, if_neg Bool.false_ne_true]

theorem whileLoop_step {rounds : ℕ} {x y : σ} (hcond : cond x = true)
    (hbody : body x = Except.ok y) :
    whileLoop stuck cond body (rounds + 1) x = whileLoop stuck cond body rounds y := by
  rw [whileLoop, hcond, if_pos rfl, hbody]
  rfl

/-- **A loop whose states are known** ends in the last of them. -/
theorem whileLoop_run (x : ℕ → σ) {k rounds : ℕ} (hrounds : k < rounds)
    (hcond : ∀ m < k, cond (x m) = true) (hbody : ∀ m < k, body (x m) = Except.ok (x (m + 1)))
    (hend : cond (x k) = false) : whileLoop stuck cond body rounds (x 0) = Except.ok (x k) := by
  induction k generalizing x rounds with
  | zero =>
      obtain ⟨rounds, rfl⟩ := Nat.exists_eq_succ_of_ne_zero (Nat.ne_of_gt hrounds)
      exact whileLoop_stop hend
  | succ k ih =>
      obtain ⟨rounds, rfl⟩ :=
        Nat.exists_eq_succ_of_ne_zero (Nat.ne_of_gt (Nat.zero_lt_of_lt hrounds))
      rw [Nat.succ_eq_add_one,
        whileLoop_step (hcond 0 (Nat.succ_pos k)) (hbody 0 (Nat.succ_pos k))]
      exact ih (fun m => x (m + 1)) (Nat.lt_of_succ_lt_succ hrounds)
        (fun m hm => hcond (m + 1) (Nat.succ_lt_succ hm))
        (fun m hm => hbody (m + 1) (Nat.succ_lt_succ hm)) hend

/-- **A loop with an invariant and a measure** ends, with the invariant and without the
condition. -/
theorem whileLoop_ends (inv : σ → Prop) (μ : σ → ℕ)
    (hbody : ∀ x, inv x → cond x = true → ∃ y, body x = Except.ok y ∧ inv y ∧ μ y < μ x)
    {x : σ} {rounds : ℕ} (hinv : inv x) (hrounds : μ x < rounds) :
    ∃ y, whileLoop stuck cond body rounds x = Except.ok y ∧ inv y ∧ cond y = false := by
  induction rounds generalizing x with
  | zero => exact absurd hrounds (Nat.not_lt_zero _)
  | succ rounds ih =>
      cases hcond : cond x with
      | false => exact ⟨x, whileLoop_stop hcond, hinv, hcond⟩
      | true =>
          obtain ⟨y, hy, hinv', hlt⟩ := hbody x hinv hcond
          rw [whileLoop_step hcond hy]
          exact ih hinv' (Nat.lt_of_lt_of_le hlt (Nat.le_of_lt_succ hrounds))

end WhileLoop
