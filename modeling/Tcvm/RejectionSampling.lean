/-
Rejection sampling.

Draws are tried one after another until one is accepted, and the accepted draw decides the result.
Over finitely many possible draws, two results that as many draws stand for are results of equally
many sequences of draws, of every length: from uniform draws they come out equally often.  Nothing
here is about a particular generator.

* `firstAccepted` — the result of a sequence of draws;
* `runs` — the sequences of a length that have a result;
* `card_runs_succ` — the first draw decides, or the others do;
* `card_runs_eq` — **equally many draws, equally many runs**.
-/

import Mathlib.Data.Fintype.BigOperators

namespace RejectionSampling

variable {α β : Type*}

/-- The result of the first draw that is accepted. -/
def firstAccepted (trial : α → Option β) : List α → Option β
  | [] => none
  | x :: xs =>
      match trial x with
      | some b => some b
      | none => firstAccepted trial xs

variable {trial : α → Option β} {b b' : β} {x : α} {xs : List α}

theorem firstAccepted_of_some (h : trial x = some b) :
    firstAccepted trial (x :: xs) = some b := by
  rw [firstAccepted, h]

theorem firstAccepted_of_none (h : trial x = none) :
    firstAccepted trial (x :: xs) = firstAccepted trial xs := by
  rw [firstAccepted, h]

variable [Fintype α] [DecidableEq β]

/-- The draws that stand for a result. -/
def draws (trial : α → Option β) (b : β) : Finset α :=
  Finset.univ.filter fun x => trial x = some b

/-- The sequences of `k` draws with a result. -/
def runs (trial : α → Option β) (k : ℕ) (b : β) : Finset (Fin k → α) :=
  Finset.univ.filter fun o => firstAccepted trial (List.ofFn o) = some b

/-- **The first draw** decides, or the others do. -/
theorem card_runs_succ (trial : α → Option β) (k : ℕ) (b : β) :
    (runs trial (k + 1) b).card = (draws trial b).card * Fintype.card (Fin k → α) +
      (Finset.univ.filter fun x => trial x = none).card * (runs trial k b).card := by
  have hsplit : (runs trial (k + 1) b).card =
      ∑ x : α, (Finset.univ.filter fun o : Fin k → α =>
        firstAccepted trial (x :: List.ofFn o) = some b).card := by
    rw [runs, Finset.card_filter, ← (Fin.consEquiv fun _ => α).sum_comp, Fintype.sum_prod_type]
    refine Finset.sum_congr rfl fun x _ => ?_
    rw [Finset.card_filter]
    refine Finset.sum_congr rfl fun o _ => ?_
    rw [List.ofFn_succ]
    rfl
  have hdraw : ∀ x : α, (Finset.univ.filter fun o : Fin k → α =>
      firstAccepted trial (x :: List.ofFn o) = some b).card =
        (if trial x = some b then Fintype.card (Fin k → α) else 0) +
          if trial x = none then (runs trial k b).card else 0 := by
    intro x
    cases hx : trial x with
    | some c =>
        simp only [firstAccepted_of_some hx]
        by_cases hc : some c = some b
        · simp [hc]
        · simp [hc]
    | none =>
        simp only [firstAccepted_of_none hx]
        simp [runs]
  rw [hsplit, Finset.sum_congr rfl fun x _ => hdraw x, Finset.sum_add_distrib]
  rw [← Finset.sum_filter, ← Finset.sum_filter, Finset.sum_const, Finset.sum_const,
    Nat.nsmul_eq_mul, Nat.nsmul_eq_mul]
  rfl

/-- **Equally many draws, equally many runs**, of every length. -/
theorem card_runs_eq (h : (draws trial b).card = (draws trial b').card) (k : ℕ) :
    (runs trial k b).card = (runs trial k b').card := by
  induction k with
  | zero =>
      have hempty : ∀ c : β, runs trial 0 c = ∅ := by
        intro c
        refine Finset.filter_eq_empty_iff.2 fun o _ => ?_
        rw [List.ofFn_zero]
        simp [firstAccepted]
      rw [hempty b, hempty b']
  | succ k ih => rw [card_runs_succ, card_runs_succ, h, ih]

end RejectionSampling
