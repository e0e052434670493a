/-
# Procedures that call each other

A family of procedures over a state is given by the body of each: a program that returns, panics or
calls a procedure and goes on with its result.  A body does not run the procedures it calls, so the
family is an open recursion, and `run` closes it with a bound on the depth of calls.  Along with the
result, `run` gives the calls that were made, in order; when the bound is too small, those until
then.

A contract says what a call needs and what it gives, and orders the calls by a size.  It is checked
against one body at a time.

## Main definitions

* `Prog`, `Proc` — programs, and computations that read and write a state;
* `exec`, `run` — execution with a bound on the depth;
* `Terminates`, `Reached`, `Inside` — some bound is enough; a call is made under some bound;
* `Gives` — a program returns under some bound;
* `Spec` — what a program does, from what its calls do;
* `Contract`, `Contract.Valid` — contracts, and that the bodies keep them.

## Main results

* `run_extends` — a larger bound only adds calls;
* `not_terminates_of_reached` — **a call that does not end is not survived**;
* `Contract.run_post`, `Contract.run_pre` — partial correctness;
* `Contract.terminates_or_exempt` — **total correctness**: a call ends, unless an exempted call
  is made;
* `Contract.inside_smaller` — the calls that are made in the course of a call are smaller.
-/

import Mathlib.Data.List.Basic

namespace OpenRecursion

/-! ### Programs -/

/-- Programs over procedures `ρ` with results `ο`, on states `σ`. -/
inductive Prog (ρ σ ο α : Type)
  | ret (a : α) (s : σ)
  | panic
  | call (r : ρ) (s : σ) (k : ο → σ → Prog ρ σ ο α)

variable {ρ σ ο α β γ : Type}

namespace Prog

def bind : Prog ρ σ ο α → (α → σ → Prog ρ σ ο β) → Prog ρ σ ο β
  | ret a s, f => f a s
  | panic, _ => panic
  | call r s k, f => call r s fun o t => (k o t).bind f

end Prog

/-- Computations that read and write a state, and call procedures. -/
def Proc (ρ σ ο α : Type) : Type := σ → Prog ρ σ ο α

instance : Monad (Proc ρ σ ο) where
  pure a := fun s => Prog.ret a s
  bind m f := fun s => (m s).bind f

namespace Proc

/-- Call a procedure. -/
def call (r : ρ) : Proc ρ σ ο ο := fun s => Prog.call r s Prog.ret

def panic : Proc ρ σ ο α := fun _ => Prog.panic

def read (f : σ → α) : Proc ρ σ ο α := fun s => Prog.ret (f s) s

def modify (f : σ → σ) : Proc ρ σ ο Unit := fun s => Prog.ret () (f s)

end Proc

/-! ### Execution -/

/-- How an execution ends. -/
inductive Ending (σ α : Type)
  | done (a : α) (s : σ)
  | panic
  | timeout

/-- Execute a program, with the calls that are made. -/
def exec (callee : ρ → σ → Ending σ ο × List (ρ × σ)) :
    Prog ρ σ ο α → Ending σ α × List (ρ × σ)
  | Prog.ret a s => (Ending.done a s, [])
  | Prog.panic => (Ending.panic, [])
  | Prog.call r s k =>
      match callee r s with
      | (Ending.done o t, tr) => ((exec callee (k o t)).1, tr ++ (exec callee (k o t)).2)
      | (Ending.panic, tr) => (Ending.panic, tr)
      | (Ending.timeout, tr) => (Ending.timeout, tr)

/-- Run a procedure, with at most `n` calls open at a time. -/
def run (body : ρ → Proc ρ σ ο ο) : ℕ → ρ → σ → Ending σ ο × List (ρ × σ)
  | 0, r, s => (Ending.timeout, [(r, s)])
  | n + 1, r, s =>
      ((exec (run body n) (body r s)).1, (r, s) :: (exec (run body n) (body r s)).2)

/-- Some depth is enough for a call to return. -/
def Terminates (body : ρ → Proc ρ σ ο ο) (r : ρ) (s : σ) : Prop :=
  ∃ n o t, (run body n r s).1 = Ending.done o t

/-- A call is made in the course of another, or is that call. -/
def Reached (body : ρ → Proc ρ σ ο ο) (r : ρ) (s : σ) (c : ρ × σ) : Prop :=
  ∃ n, c ∈ (run body n r s).2

/-- A call is made in the course of another. -/
def Inside (body : ρ → Proc ρ σ ο ο) (r : ρ) (s : σ) (c : ρ × σ) : Prop :=
  ∃ n, c ∈ (run body n r s).2.tail

theorem run_eq_cons (body : ρ → Proc ρ σ ο ο) (n : ℕ) (r : ρ) (s : σ) :
    (run body n r s).2 = (r, s) :: (run body n r s).2.tail := by
  cases n <;> rfl

theorem run_self (body : ρ → Proc ρ σ ο ο) (n : ℕ) (r : ρ) (s : σ) :
    (r, s) ∈ (run body n r s).2 := by
  rw [run_eq_cons]
  exact List.mem_cons_self

/-- The calls of the first callee are calls of the program. -/
theorem exec_call_sub (callee : ρ → σ → Ending σ ο × List (ρ × σ)) (r : ρ) (s : σ)
    (k : ο → σ → Prog ρ σ ο α) :
    ∀ c ∈ (callee r s).2, c ∈ (exec callee (Prog.call r s k)).2 := by
  intro c hc
  cases hcallee : callee r s with
  | mk e tr =>
      rw [hcallee] at hc
      cases e with
      | done o t =>
          simp only [exec, hcallee]
          exact List.mem_append_left _ hc
      | panic => simpa only [exec, hcallee] using hc
      | timeout => simpa only [exec, hcallee] using hc

/-! ### Larger bounds -/

/-- One outcome is another that was cut short, or the same. -/
def Extends (x y : Ending σ α × List (ρ × σ)) : Prop :=
  (x.1 = Ending.timeout ∧ x.2 <+: y.2) ∨ y = x

theorem Extends.refl (x : Ending σ α × List (ρ × σ)) : Extends x x := Or.inr rfl

theorem Extends.trans {x y z : Ending σ α × List (ρ × σ)} (h₁ : Extends x y)
    (h₂ : Extends y z) : Extends x z := by
  rcases h₁ with ⟨hx, hxy⟩ | rfl
  · rcases h₂ with ⟨-, hyz⟩ | rfl
    · exact Or.inl ⟨hx, hxy.trans hyz⟩
    · exact Or.inl ⟨hx, hxy⟩
  · exact h₂

theorem exec_extends {c c' : ρ → σ → Ending σ ο × List (ρ × σ)}
    (h : ∀ r s, Extends (c r s) (c' r s)) (p : Prog ρ σ ο α) :
    Extends (exec c p) (exec c' p) := by
  induction p with
  | ret a s => exact Extends.refl _
  | panic => exact Extends.refl _
  | call r s k ih =>
      rcases h r s with ⟨htimeout, hprefix⟩ | heq
      · -- the call was cut short, and so is the program
        generalize hc : c r s = x at htimeout hprefix
        obtain ⟨e, tr⟩ := x
        obtain rfl : e = Ending.timeout := htimeout
        refine Or.inl ?_
        simp only [exec, hc, true_and]
        cases hc' : c' r s with
        | mk e' tr' =>
            rw [hc'] at hprefix
            cases e' with
            | done o t => exact hprefix.trans (List.prefix_append _ _)
            | panic => exact hprefix
            | timeout => exact hprefix
      · cases hc : c r s with
        | mk e tr =>
            rw [hc] at heq
            cases e with
            | panic => exact Or.inr (by simp only [exec, hc, heq])
            | timeout => exact Or.inr (by simp only [exec, hc, heq])
            | done o t =>
                simp only [exec, hc, heq]
                rcases ih o t with ⟨htimeout, hprefix⟩ | hsame
                · exact Or.inl ⟨htimeout, (List.prefix_append_right_inj tr).mpr hprefix⟩
                · exact Or.inr (by rw [hsame])

theorem run_succ_extends (body : ρ → Proc ρ σ ο ο) (n : ℕ) (r : ρ) (s : σ) :
    Extends (run body n r s) (run body (n + 1) r s) := by
  induction n generalizing r s with
  | zero => exact Or.inl ⟨rfl, by simp [run]⟩
  | succ n ih =>
      rcases exec_extends ih (body r s) with ⟨htimeout, hprefix⟩ | hsame
      · exact Or.inl ⟨htimeout, List.cons_prefix_cons.mpr ⟨rfl, hprefix⟩⟩
      · refine Or.inr ?_
        rw [run, hsame]
        rfl

/-- A larger bound only adds calls. -/
theorem run_extends (body : ρ → Proc ρ σ ο ο) {n m : ℕ} (h : n ≤ m) (r : ρ) (s : σ) :
    Extends (run body n r s) (run body m r s) := by
  induction h with
  | refl => exact Extends.refl _
  | step hle ih => exact ih.trans (run_succ_extends body _ r s)

/-- What a run returned, it returns under every larger bound. -/
theorem run_done_of_le {body : ρ → Proc ρ σ ο ο} {n m : ℕ} (h : n ≤ m) {r : ρ} {s t : σ} {o : ο}
    (hdone : (run body n r s).1 = Ending.done o t) : run body m r s = run body n r s := by
  rcases run_extends body h r s with ⟨htimeout, -⟩ | hsame
  · rw [hdone] at htimeout
    cases htimeout
  · exact hsame

theorem exec_mem_trans {body : ρ → Proc ρ σ ο ο} {n m : ℕ} {c d : ρ × σ}
    (h : ∀ r s, c ∈ (run body n r s).2 → d ∈ (run body (n + m) r s).2) {p : Prog ρ σ ο α}
    (hc : c ∈ (exec (run body n) p).2) : d ∈ (exec (run body (n + m)) p).2 := by
  induction p with
  | ret a s => cases hc
  | panic => cases hc
  | call r s k ih =>
      have hsub := exec_call_sub (run body (n + m)) r s k d
      cases hrun : run body n r s with
      | mk e tr =>
          have hmem := h r s
          rw [hrun] at hmem
          cases e with
          | panic =>
              simp only [exec, hrun] at hc
              exact hsub (hmem hc)
          | timeout =>
              simp only [exec, hrun] at hc
              exact hsub (hmem hc)
          | done o t =>
              simp only [exec, hrun] at hc
              rcases List.mem_append.mp hc with hc | hc
              · exact hsub (hmem hc)
              · have hsame : run body (n + m) r s = (Ending.done o t, tr) := by
                  rw [run_done_of_le (Nat.le_add_right n m) (by rw [hrun]), hrun]
                simp only [exec, hsame]
                exact List.mem_append_right _ (ih o t hc)

/-- The calls of a call that is made are made. -/
theorem Reached.trans {body : ρ → Proc ρ σ ο ο} {r : ρ} {s : σ} {c d : ρ × σ}
    (h : Reached body r s c) (h' : Reached body c.1 c.2 d) : Reached body r s d := by
  obtain ⟨n, hc⟩ := h
  obtain ⟨m, hd⟩ := h'
  refine ⟨n + m, ?_⟩
  induction n generalizing r s with
  | zero =>
      obtain rfl : c = (r, s) := by simpa [run] using hc
      rwa [Nat.zero_add]
  | succ n ih =>
      rcases List.mem_cons.mp hc with rfl | hc
      · rcases run_extends body (Nat.le_add_left m (n + 1)) r s with ⟨-, hprefix⟩ | hsame
        · exact hprefix.subset hd
        · rw [hsame]
          exact hd
      · rw [Nat.succ_add_eq_add_succ, Nat.add_succ]
        exact List.mem_cons_of_mem _ (exec_mem_trans (fun r s => ih) hc)

/-- The calls of a program that returned are calls that returned. -/
theorem exec_calls (good : ρ × σ → Prop) {callee : ρ → σ → Ending σ ο × List (ρ × σ)}
    (h : ∀ r s o t, (callee r s).1 = Ending.done o t → ∀ c ∈ (callee r s).2, good c)
    {p : Prog ρ σ ο α} {a : α} {t : σ} (hdone : (exec callee p).1 = Ending.done a t) :
    ∀ c ∈ (exec callee p).2, good c := by
  induction p with
  | ret a s => simp [exec]
  | panic => cases hdone
  | call r s k ih =>
      cases hcallee : callee r s with
      | mk e tr =>
          cases e with
          | panic =>
              simp only [exec, hcallee] at hdone
              cases hdone
          | timeout =>
              simp only [exec, hcallee] at hdone
              cases hdone
          | done o t' =>
              simp only [exec, hcallee] at hdone ⊢
              intro c hc
              rcases List.mem_append.mp hc with hc | hc
              · exact h r s o t' (by rw [hcallee]) c (by rw [hcallee]; exact hc)
              · exact ih o t' hdone c hc

theorem run_calls {body : ρ → Proc ρ σ ο ο} {n : ℕ} {r : ρ} {s t : σ} {o : ο}
    (hdone : (run body n r s).1 = Ending.done o t) :
    ∀ c ∈ (run body n r s).2, Terminates body c.1 c.2 := by
  induction n generalizing r s t o with
  | zero => cases hdone
  | succ n ih =>
      intro c hc
      rcases List.mem_cons.mp hc with rfl | hc
      · exact ⟨n + 1, o, t, hdone⟩
      · exact exec_calls (fun c => Terminates body c.1 c.2) (fun r s o t h => ih h) hdone c hc

/-- **A call that does not end is not survived.** -/
theorem not_terminates_of_reached {body : ρ → Proc ρ σ ο ο} {r : ρ} {s : σ} {c : ρ × σ}
    (hreached : Reached body r s c) (hc : ¬ Terminates body c.1 c.2) : ¬ Terminates body r s := by
  rintro ⟨n, o, t, hdone⟩
  obtain ⟨m, hm⟩ := hreached
  apply hc
  rcases Nat.le_total n m with hle | hle
  · rw [run_done_of_le hle hdone] at hm
    exact run_calls hdone c hm
  · have hmem : c ∈ (run body n r s).2 := by
      rcases run_extends body hle r s with ⟨-, hprefix⟩ | hsame
      · exact hprefix.subset hm
      · rw [hsame]
        exact hm
    exact run_calls hdone c hmem

/-! ### Programs that return -/

section

variable {body : ρ → Proc ρ σ ο ο}

/-- A program returns, for some depth of calls. -/
def Gives (body : ρ → Proc ρ σ ο ο) (p : Prog ρ σ ο α) (a : α) (t : σ) : Prop :=
  ∃ n, (exec (run body n) p).1 = Ending.done a t

theorem exec_done_of_le {n m : ℕ} (h : n ≤ m) {p : Prog ρ σ ο α} {a : α} {t : σ}
    (hdone : (exec (run body n) p).1 = Ending.done a t) :
    (exec (run body m) p).1 = Ending.done a t := by
  rcases exec_extends (fun r s => run_extends body h r s) p with ⟨htimeout, -⟩ | hsame
  · rw [hdone] at htimeout
    cases htimeout
  · rw [hsame, hdone]

theorem Gives.ret (a : α) (s : σ) : Gives body (Prog.ret a s) a s := ⟨0, rfl⟩

/-- A call that returns, and what goes on with its result. -/
theorem Gives.call {r : ρ} {s t u : σ} {o : ο} {k : ο → σ → Prog ρ σ ο α} {a : α}
    (hcall : Gives body (body r s) o t) (hrest : Gives body (k o t) a u) :
    Gives body (Prog.call r s k) a u := by
  obtain ⟨n, hn⟩ := hcall
  obtain ⟨m, hm⟩ := hrest
  refine ⟨max n m + 1, ?_⟩
  have hrun : (run body (max n m + 1) r s).1 = Ending.done o t :=
    exec_done_of_le (Nat.le_max_left n m) hn
  have hgo := exec_done_of_le (Nat.le_succ_of_le (Nat.le_max_right n m)) hm
  cases h : run body (max n m + 1) r s with
  | mk e tr =>
      rw [h] at hrun
      obtain rfl : e = Ending.done o t := hrun
      simp only [exec, h]
      exact hgo

theorem Gives.bind {p : Prog ρ σ ο α} {f : α → σ → Prog ρ σ ο β} {a : α} {b : β} {t u : σ}
    (h : Gives body p a t) (hf : Gives body (f a t) b u) : Gives body (p.bind f) b u := by
  obtain ⟨n, hn⟩ := h
  obtain ⟨m, hm⟩ := hf
  refine ⟨max n m, ?_⟩
  have hfirst := exec_done_of_le (Nat.le_max_left n m) hn
  have hrest := exec_done_of_le (Nat.le_max_right n m) hm
  clear hn hm
  induction p with
  | ret a' s =>
      cases hfirst
      exact hrest
  | panic => cases hfirst
  | call r s k ih =>
      cases h : run body (max n m) r s with
      | mk e tr =>
          cases e with
          | panic =>
              simp only [exec, h] at hfirst
              cases hfirst
          | timeout =>
              simp only [exec, h] at hfirst
              cases hfirst
          | done o s' =>
              simp only [exec, h] at hfirst
              simp only [Prog.bind, exec, h]
              exact ih o s' hfirst

/-- A procedure returns if its body does. -/
theorem Gives.run {r : ρ} {s t : σ} {o : ο} (h : Gives body (body r s) o t) :
    ∃ n, (run body n r s).1 = Ending.done o t := by
  obtain ⟨n, hn⟩ := h
  exact ⟨n + 1, hn⟩

end

/-! ### Specifications -/

/-- What a program does, when its calls are allowed by `D` and do `P`: it does not panic, and
returns with `Q`, which also speaks of the calls. -/
def Spec (D : ρ → σ → Prop) (P : ρ → σ → ο → σ → List (ρ × σ) → Prop) :
    Prog ρ σ ο α → (α → σ → List (ρ × σ) → Prop) → Prop
  | Prog.ret a s, Q => Q a s []
  | Prog.panic, _ => False
  | Prog.call r s k, Q =>
      D r s ∧ ∀ o t tr, P r s o t tr → Spec D P (k o t) fun a u tr' => Q a u (tr ++ tr')

section

variable {D D' : ρ → σ → Prop} {P : ρ → σ → ο → σ → List (ρ × σ) → Prop}

theorem Spec.mono {p : Prog ρ σ ο α} {Q Q' : α → σ → List (ρ × σ) → Prop}
    (h : Spec D P p Q) (hD : ∀ r s, D r s → D' r s) (hQ : ∀ a s tr, Q a s tr → Q' a s tr) :
    Spec D' P p Q' := by
  induction p generalizing Q Q' with
  | ret a s => exact hQ a s [] h
  | panic => exact h
  | call r s k ih =>
      refine ⟨hD r s h.1, ?_⟩
      intro o t tr hP
      exact ih o t (h.2 o t tr hP) (fun a u tr' hq => hQ a u (tr ++ tr') hq)

theorem Spec.bind {p : Prog ρ σ ο α} {f : α → σ → Prog ρ σ ο β}
    {Q : β → σ → List (ρ × σ) → Prop}
    (h : Spec D P p fun a s tr => Spec D P (f a s) fun b t tr' => Q b t (tr ++ tr')) :
    Spec D P (p.bind f) Q := by
  induction p generalizing Q with
  | ret a s =>
      refine Spec.mono h (fun _ _ hd => hd) ?_
      intro b t tr hq
      exact hq
  | panic => exact h
  | call r s k ih =>
      refine ⟨h.1, ?_⟩
      intro o t tr hP
      refine ih o t (Spec.mono (h.2 o t tr hP) (fun _ _ hd => hd) ?_)
      intro a u tr' hspec
      refine Spec.mono hspec (fun _ _ hd => hd) ?_
      intro b v tr'' hq
      rwa [List.append_assoc] at hq

/-- Execution does what the specification says. -/
theorem Spec.exec {p : Prog ρ σ ο α} {Q : α → σ → List (ρ × σ) → Prop} (h : Spec D P p Q)
    {callee : ρ → σ → Ending σ ο × List (ρ × σ)}
    (hdone : ∀ r s o t, D r s → (callee r s).1 = Ending.done o t → P r s o t (callee r s).2)
    (hpanic : ∀ r s, D r s → (callee r s).1 ≠ Ending.panic) :
    (∃ a t, (exec callee p).1 = Ending.done a t ∧ Q a t (exec callee p).2) ∨
      ((exec callee p).1 = Ending.timeout ∧
        ∃ r s, D r s ∧ (callee r s).1 = Ending.timeout ∧
          ∀ c ∈ (callee r s).2, c ∈ (exec callee p).2) := by
  induction p generalizing Q with
  | ret a s => exact Or.inl ⟨a, s, rfl, h⟩
  | panic => exact h.elim
  | call r s k ih =>
      have hd := hdone r s
      have hp := hpanic r s h.1
      cases hcallee : callee r s with
      | mk e tr =>
          rw [hcallee] at hd hp
          cases e with
          | panic => exact absurd rfl hp
          | timeout =>
              refine Or.inr ⟨by simp only [OpenRecursion.exec, hcallee], r, s, h.1, ?_, ?_⟩
              · rw [hcallee]
              · intro c hc
                simpa only [OpenRecursion.exec, hcallee] using hc
          | done o t =>
              simp only [OpenRecursion.exec, hcallee]
              rcases ih o t (h.2 o t tr (hd o t h.1 rfl)) with
                ⟨a, u, hres, hq⟩ | ⟨hres, r', s', hD, hto, hsub⟩
              · exact Or.inl ⟨a, u, hres, hq⟩
              · exact Or.inr ⟨hres, r', s', hD, hto,
                  fun c hc => List.mem_append_right _ (hsub c hc)⟩

/-- A call of a program is made in the course of one that the specification allows. -/
theorem Spec.exec_mem {p : Prog ρ σ ο α} {Q : α → σ → List (ρ × σ) → Prop} (h : Spec D P p Q)
    {callee : ρ → σ → Ending σ ο × List (ρ × σ)}
    (hdone : ∀ r s o t, D r s → (callee r s).1 = Ending.done o t → P r s o t (callee r s).2)
    {c : ρ × σ} (hc : c ∈ (OpenRecursion.exec callee p).2) :
    ∃ r s, D r s ∧ c ∈ (callee r s).2 ∧
      ∀ d ∈ (callee r s).2, d ∈ (OpenRecursion.exec callee p).2 := by
  induction p generalizing Q with
  | ret a s => cases hc
  | panic => cases hc
  | call r s k ih =>
      have hd := hdone r s
      have hsub := exec_call_sub callee r s k
      cases hcallee : callee r s with
      | mk e tr =>
          rw [hcallee] at hd
          cases e with
          | panic =>
              refine ⟨r, s, h.1, ?_, hsub⟩
              simpa only [OpenRecursion.exec, hcallee] using hc
          | timeout =>
              refine ⟨r, s, h.1, ?_, hsub⟩
              simpa only [OpenRecursion.exec, hcallee] using hc
          | done o t =>
              simp only [OpenRecursion.exec, hcallee] at hc
              rcases List.mem_append.mp hc with hc | hc
              · exact ⟨r, s, h.1, by rw [hcallee]; exact hc, hsub⟩
              · obtain ⟨r', s', hD, hmem, hsub'⟩ := ih o t (h.2 o t tr (hd o t h.1 rfl)) hc
                refine ⟨r', s', hD, hmem, ?_⟩
                intro d hd'
                simp only [OpenRecursion.exec, hcallee]
                exact List.mem_append_right _ (hsub' d hd')

end

/-! ### Contracts -/

/-- What a call needs, and what it gives; `size` orders the calls, and an exempted call may make
any. -/
structure Contract (ρ σ ο : Type) where
  Pre : ρ → σ → Prop
  Post : ρ → σ → ο → σ → List (ρ × σ) → Prop
  size : ρ → σ → ℕ
  Exempt : ρ → σ → Prop

namespace Contract

variable (C : Contract ρ σ ο)

/-- The calls a call may make. -/
def Allowed (r : ρ) (s : σ) (r' : ρ) (s' : σ) : Prop :=
  C.Pre r' s' ∧ (C.Exempt r s ∨ C.size r' s' < C.size r s)

/-- Every body keeps the contract, when those it calls do. -/
def Valid (body : ρ → Proc ρ σ ο ο) : Prop :=
  ∀ r s, C.Pre r s →
    Spec (C.Allowed r s) C.Post (body r s) fun o t tr => C.Post r s o t ((r, s) :: tr)

variable {C} {body : ρ → Proc ρ σ ο ο}

theorem run_spec (hvalid : C.Valid body) (n : ℕ) {r : ρ} {s : σ} (hpre : C.Pre r s) :
    (∃ o t, (run body n r s).1 = Ending.done o t ∧ C.Post r s o t (run body n r s).2) ∨
      ((run body n r s).1 = Ending.timeout ∧
        (C.size r s < n → ∃ c ∈ (run body n r s).2, C.Exempt c.1 c.2)) := by
  induction n generalizing r s with
  | zero => exact Or.inr ⟨rfl, by omega⟩
  | succ n ih =>
      have hdone : ∀ r' s' o t, C.Allowed r s r' s' → (run body n r' s').1 = Ending.done o t →
          C.Post r' s' o t (run body n r' s').2 := by
        intro r' s' o t hallowed hres
        rcases ih hallowed.1 with ⟨o', t', hres', hpost⟩ | ⟨hres', -⟩
        · rw [hres] at hres'
          cases hres'
          exact hpost
        · rw [hres] at hres'
          cases hres'
      have hpanic : ∀ r' s', C.Allowed r s r' s' → (run body n r' s').1 ≠ Ending.panic := by
        intro r' s' hallowed hres
        rcases ih hallowed.1 with ⟨o', t', hres', -⟩ | ⟨hres', -⟩
        · rw [hres] at hres'
          cases hres'
        · rw [hres] at hres'
          cases hres'
      rcases (hvalid r s hpre).exec hdone hpanic with
        ⟨o, t, hres, hpost⟩ | ⟨hres, r', s', hallowed, hto, hsub⟩
      · exact Or.inl ⟨o, t, hres, hpost⟩
      · refine Or.inr ⟨hres, ?_⟩
        intro hlt
        rcases hallowed.2 with hexempt | hsize
        · exact ⟨(r, s), List.mem_cons_self, hexempt⟩
        · rcases ih hallowed.1 with ⟨o', t', hres', -⟩ | ⟨-, hbad⟩
          · rw [hto] at hres'
            cases hres'
          · obtain ⟨c, hc, hexempt⟩ := hbad (by omega)
            exact ⟨c, List.mem_cons_of_mem _ (hsub c hc), hexempt⟩

/-- **Partial correctness.** -/
theorem run_post (hvalid : C.Valid body) {n : ℕ} {r : ρ} {s t : σ} {o : ο} (hpre : C.Pre r s)
    (hdone : (run body n r s).1 = Ending.done o t) : C.Post r s o t (run body n r s).2 := by
  rcases run_spec hvalid n hpre with ⟨o', t', hres, hpost⟩ | ⟨hres, -⟩
  · rw [hdone] at hres
    cases hres
    exact hpost
  · rw [hdone] at hres
    cases hres

/-- **Total correctness**: a call ends, unless an exempted call is reached. -/
theorem terminates_or_exempt (hvalid : C.Valid body) {r : ρ} {s : σ} (hpre : C.Pre r s) :
    Terminates body r s ∨ ∃ c, Reached body r s c ∧ C.Exempt c.1 c.2 := by
  rcases run_spec hvalid (C.size r s + 1) hpre with ⟨o, t, hres, -⟩ | ⟨-, hbad⟩
  · exact Or.inl ⟨_, o, t, hres⟩
  · obtain ⟨c, hc, hexempt⟩ := hbad (by omega)
    exact Or.inr ⟨c, ⟨_, hc⟩, hexempt⟩

theorem run_pre (hvalid : C.Valid body) (n : ℕ) {r : ρ} {s : σ} (hpre : C.Pre r s) :
    ∀ c ∈ (run body n r s).2, C.Pre c.1 c.2 := by
  induction n generalizing r s with
  | zero =>
      intro c hc
      obtain rfl : c = (r, s) := by simpa [run] using hc
      exact hpre
  | succ n ih =>
      intro c hc
      rcases List.mem_cons.mp hc with rfl | hc
      · exact hpre
      · obtain ⟨r', s', hallowed, hmem, -⟩ := (hvalid r s hpre).exec_mem
          (fun r' s' o t hallowed hdone => run_post hvalid hallowed.1 hdone) hc
        exact ih hallowed.1 c hmem

/-- **Calls get smaller**, where none is exempted. -/
theorem inside_smaller (hvalid : C.Valid body) {r : ρ} {s : σ} {c : ρ × σ} (hpre : C.Pre r s)
    (hno : ∀ d, Reached body r s d → ¬ C.Exempt d.1 d.2) (h : Inside body r s c) :
    C.size c.1 c.2 < C.size r s := by
  obtain ⟨n, hc⟩ := h
  induction n generalizing r s with
  | zero => cases hc
  | succ n ih =>
      obtain ⟨r', s', hallowed, hmem, hsub⟩ := (hvalid r s hpre).exec_mem
        (fun r' s' o t hallowed hdone => run_post hvalid hallowed.1 hdone) hc
      have hsize : C.size r' s' < C.size r s :=
        hallowed.2.resolve_left (hno (r, s) ⟨n + 1, List.mem_cons_self⟩)
      have hreached : Reached body r s (r', s') :=
        ⟨n + 1, List.mem_cons_of_mem _ (hsub _ (run_self body n r' s'))⟩
      rw [run_eq_cons] at hmem
      rcases List.mem_cons.mp hmem with rfl | hmem
      · exact hsize
      · have hlt := ih hallowed.1 (fun d hd => hno d (hreached.trans hd)) hmem
        omega

end Contract

end OpenRecursion
