/-
Runs of steps that may fail.

A run goes on as long as its steps succeed.  Where every step does what it should, and keeps an
invariant, exactly under a condition, a whole run does so exactly when each of its steps meets the
condition.  Nothing here is about a particular step.

* `runSteps` — steps in a row;
* `run_steps_iff` — **all the steps of a run are right iff every one meets its condition**.
-/

import Mathlib.Data.List.Basic

namespace StepRuns

variable {σ ι : Type*}

/-- Steps in a row, as long as each of them succeeds. -/
def runSteps (step : σ → ι → Option σ) : List ι → σ → Option σ
  | [], s => some s
  | i :: rest, s => (step s i).bind (runSteps step rest)

/-- Every step of a run has the property, which may speak about the state in front of the step and
about the one behind it. -/
def EveryStep (step : σ → ι → Option σ) (P : σ → ι → σ → Prop) (l : List ι) (s : σ) : Prop :=
  ∀ before i behind s₁ s₂, l = before ++ i :: behind → runSteps step before s = some s₁ →
    step s₁ i = some s₂ → P s₁ i s₂

variable {step : σ → ι → Option σ} {s s₁ : σ} {i : ι}

theorem everyStep_nil (P : σ → ι → σ → Prop) : EveryStep step P [] s := by
  intro before i behind s₁ s₂ hsplit
  exact absurd hsplit (by simp)

/-- The first step and the others. -/
theorem everyStep_cons {P : σ → ι → σ → Prop} {l : List ι} (h : step s i = some s₁) :
    EveryStep step P (i :: l) s ↔ P s i s₁ ∧ EveryStep step P l s₁ := by
  have hcons : ∀ l, runSteps step (i :: l) s = runSteps step l s₁ := by
    intro l
    rw [runSteps, h]
    rfl
  constructor
  · intro hall
    refine ⟨hall [] i l s s₁ rfl rfl h, fun before j behind s₂ s₃ hsplit hbefore hstep => ?_⟩
    refine hall (i :: before) j behind s₂ s₃ (by rw [hsplit]; rfl) ?_ hstep
    rw [hcons]
    exact hbefore
  · rintro ⟨hfirst, hrest⟩ before j behind s₂ s₃ hsplit hbefore hstep
    cases before with
    | nil =>
        obtain ⟨rfl, rfl⟩ := List.cons.inj hsplit
        obtain rfl := Option.some.inj hbefore
        obtain rfl := Option.some.inj (h.symm.trans hstep)
        exact hfirst
    | cons i' before =>
        obtain ⟨rfl, htail⟩ := List.cons.inj hsplit
        rw [hcons] at hbefore
        exact hrest before j behind s₂ s₃ htail hbefore hstep

/-- **All the steps of a run do what they should, and keep the invariant, iff every one of them
meets its condition.**  `Good` is what the steps keep anyway. -/
theorem run_steps_iff {Good Inv : σ → Prop} {Acts : σ → ι → σ → Prop} {C : σ → ι → Prop}
    (hgood : ∀ s i s', Good s → step s i = some s' → Good s')
    (hstep : ∀ s i s', Good s → Inv s → step s i = some s' → (Acts s i s' ∧ Inv s' ↔ C s i))
    (l : List ι) :
    ∀ s s', Good s → Inv s → runSteps step l s = some s' →
      (EveryStep step (fun s i s' => Acts s i s' ∧ Inv s') l s ↔
        EveryStep step (fun s i _ => C s i) l s) := by
  induction l with
  | nil =>
      intro s s' _ _ _
      exact iff_of_true (everyStep_nil _) (everyStep_nil _)
  | cons i l ih =>
      intro s s' hs hinv hrun
      obtain ⟨s₁, h₁, hrest⟩ := Option.bind_eq_some_iff.1 hrun
      have hs₁ := hgood s i s₁ hs h₁
      have hcond := hstep s i s₁ hs hinv h₁
      rw [everyStep_cons h₁, everyStep_cons h₁]
      -- behind a step that meets its condition the invariant holds, and the other steps follow
      constructor
      · rintro ⟨hfirst, hall⟩
        exact ⟨hcond.1 hfirst, (ih s₁ s' hs₁ hfirst.2 hrest).1 hall⟩
      · rintro ⟨hfirst, hall⟩
        have hright := hcond.2 hfirst
        exact ⟨hright, (ih s₁ s' hs₁ hright.2 hrest).2 hall⟩

end StepRuns
