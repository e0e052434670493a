/-
Deterministic machines with outputs, and forward simulation between them.

A machine reads one input at a time, moves to a new state and emits one output.  Two machines
whose steps are matched by a relation on their states, and which emit equal outputs on matching
inputs, emit equal outputs over runs of any length; an invariant that a step preserves holds in
every state a run visits.  Nothing here is about a particular machine.

* `Machine`, `Machine.run` — a machine and its run over a list of inputs;
* `Machine.Invariant`, `Machine.Invariant.run` — a preserved property holds after every run;
* `Machine.Admits`, `Machine.run_of_admits` — the runs all of whose steps are admitted;
* `Machine.AdmitsBoth`, `Machine.run_of_admitsBoth` — the same for two runs on the same inputs;
* `Machine.Simulation`, `Machine.Simulation.run` — **forward simulation**: related states stay
  related and the outputs agree;
* `Machine.run_of_forall` — the same for the runs over a class of inputs;
* `Machine.Simulation.comparable` — two machines that simulate into one third machine emit the
  same outputs.
-/

import Mathlib.Data.List.Basic

/-- A deterministic machine: from a state and an input, the next state and the emitted output. -/
structure Machine (σ ι ο : Type*) where
  /-- One step. -/
  step : σ → ι → σ × ο

namespace Machine

variable {σ τ υ ι κ ξ ο : Type*}

/-- The run over a list of inputs: the state reached and the outputs, in order. -/
def run (M : Machine σ ι ο) : σ → List ι → σ × List ο
  | s, [] => (s, [])
  | s, i :: is =>
      let r := M.step s i
      let rest := M.run r.1 is
      (rest.1, r.2 :: rest.2)

@[simp] theorem run_nil (M : Machine σ ι ο) (s : σ) : M.run s [] = (s, []) := rfl

@[simp] theorem run_cons (M : Machine σ ι ο) (s : σ) (i : ι) (is : List ι) :
    M.run s (i :: is) =
      ((M.run (M.step s i).1 is).1, (M.step s i).2 :: (M.run (M.step s i).1 is).2) := rfl

/-- A property that every step preserves. -/
def Invariant (M : Machine σ ι ο) (P : σ → Prop) : Prop :=
  ∀ s i, P s → P (M.step s i).1

/-- A preserved property holds after every run that starts in it. -/
theorem Invariant.run {M : Machine σ ι ο} {P : σ → Prop} (hP : M.Invariant P) {s : σ}
    (hs : P s) (is : List ι) : P (M.run s is).1 := by
  induction is generalizing s with
  | nil => exact hs
  | cons i is ih => exact ih (hP s i hs)

/-- Every step of the run is admitted in the state it starts in. -/
def Admits (M : Machine σ ι ο) (G : σ → ι → Prop) : σ → List ι → Prop
  | _, [] => True
  | s, i :: is => G s i ∧ M.Admits G (M.step s i).1 is

/-- A run goes on from the state that an earlier part of it has reached. -/
theorem run_append (M : Machine σ ι ο) (s : σ) (is js : List ι) :
    (M.run s (is ++ js)).1 = (M.run (M.run s is).1 js).1 := by
  induction is generalizing s with
  | nil => rfl
  | cons i is ih => exact ih (M.step s i).1

theorem admits_append {M : Machine σ ι ο} {G : σ → ι → Prop} {s : σ} {is js : List ι}
    (h : M.Admits G s (is ++ js)) : M.Admits G s is ∧ M.Admits G (M.run s is).1 js := by
  induction is generalizing s with
  | nil => exact ⟨trivial, h⟩
  | cons i is ih =>
      obtain ⟨hguard, hrest⟩ := h
      obtain ⟨his, hjs⟩ := ih hrest
      exact ⟨⟨hguard, his⟩, hjs⟩

/-- What every admitted step preserves, and what it emits, holds along every admitted run. -/
theorem run_of_admits {M : Machine σ ι ο} {G : σ → ι → Prop} {P : σ → Prop} {Q : ο → Prop}
    (h : ∀ s i, P s → G s i → P (M.step s i).1 ∧ Q (M.step s i).2) {s : σ} (hs : P s)
    {is : List ι} (his : M.Admits G s is) :
    P (M.run s is).1 ∧ ∀ o ∈ (M.run s is).2, Q o := by
  induction is generalizing s with
  | nil => exact ⟨hs, fun o ho => absurd ho List.not_mem_nil⟩
  | cons i is ih =>
      obtain ⟨hguard, hrest⟩ := his
      obtain ⟨hP, hQ⟩ := h s i hs hguard
      obtain ⟨hrun, hout⟩ := ih hP hrest
      refine ⟨hrun, fun o ho => ?_⟩
      rcases List.mem_cons.1 ho with rfl | ho
      · exact hQ
      · exact hout o ho

/-- Every step of two runs on the same inputs is admitted in the states it starts in. -/
def AdmitsBoth (M : Machine σ ι ο) (G : σ → σ → ι → Prop) : σ → σ → List ι → Prop
  | _, _, [] => True
  | s, t, i :: is => G s t i ∧ M.AdmitsBoth G (M.step s i).1 (M.step t i).1 is

/-- **Two runs** on the same inputs emit the same outputs, and reach related states, where every
admitted step from related states does. -/
theorem run_of_admitsBoth {M : Machine σ ι ο} {G : σ → σ → ι → Prop} {R : σ → σ → Prop}
    (h : ∀ s t i, R s t → G s t i →
      R (M.step s i).1 (M.step t i).1 ∧ (M.step s i).2 = (M.step t i).2)
    {s t : σ} (hst : R s t) {is : List ι} (his : M.AdmitsBoth G s t is) :
    R (M.run s is).1 (M.run t is).1 ∧ (M.run s is).2 = (M.run t is).2 := by
  induction is generalizing s t with
  | nil => exact ⟨hst, rfl⟩
  | cons i is ih =>
      obtain ⟨hguard, hrest⟩ := his
      obtain ⟨hrel, hout⟩ := h s t i hst hguard
      obtain ⟨hrel', hout'⟩ := ih hrel hrest
      refine ⟨hrel', ?_⟩
      simp only [run_cons, hout, hout']

/-- **Forward simulation** along a map of inputs: from related states, the step on `i` and the
step on `f i` reach related states and emit the same output. -/
structure Simulation (M : Machine σ ι ο) (N : Machine τ κ ο) (f : ι → κ)
    (R : σ → τ → Prop) : Prop where
  /-- Related states stay related. -/
  related : ∀ s t i, R s t → R (M.step s i).1 (N.step t (f i)).1
  /-- The outputs agree. -/
  output : ∀ s t i, R s t → (M.step s i).2 = (N.step t (f i)).2

/-- A simulation extends to runs. -/
theorem Simulation.run {M : Machine σ ι ο} {N : Machine τ κ ο} {f : ι → κ} {R : σ → τ → Prop}
    (h : M.Simulation N f R) {s : σ} {t : τ} (hst : R s t) (is : List ι) :
    R (M.run s is).1 (N.run t (is.map f)).1 ∧ (M.run s is).2 = (N.run t (is.map f)).2 := by
  induction is generalizing s t with
  | nil => exact ⟨hst, rfl⟩
  | cons i is ih =>
      obtain ⟨hrel, hout⟩ := ih (h.related s t i hst)
      refine ⟨hrel, ?_⟩
      simp only [run_cons, List.map_cons, hout, h.output s t i hst]

/-- A simulation that holds for the inputs of a class extends to the runs over that class. -/
theorem run_of_forall {M : Machine σ ι ο} {N : Machine τ κ ο} {f : ι → κ} {R : σ → τ → Prop}
    {P : ι → Prop}
    (h : ∀ s t i, P i → R s t →
      R (M.step s i).1 (N.step t (f i)).1 ∧ (M.step s i).2 = (N.step t (f i)).2)
    {s : σ} {t : τ} (hst : R s t) (is : List ι) (his : ∀ i ∈ is, P i) :
    R (M.run s is).1 (N.run t (is.map f)).1 ∧ (M.run s is).2 = (N.run t (is.map f)).2 := by
  induction is generalizing s t with
  | nil => exact ⟨hst, rfl⟩
  | cons i is ih =>
      obtain ⟨hrel, hout⟩ := h s t i (his i (List.mem_cons_self ..)) hst
      obtain ⟨hrel', hout'⟩ := ih hrel fun j hj => his j (List.mem_cons_of_mem _ hj)
      refine ⟨hrel', ?_⟩
      simp only [run_cons, List.map_cons, hout, hout']

/-- Two machines that simulate into a third one emit the same outputs on inputs that the third one
cannot tell apart, and reach states related to one and the same state of it. -/
theorem Simulation.comparable {M : Machine σ ι ο} {N : Machine τ κ ο} {A : Machine υ ξ ο}
    {f : ι → ξ} {g : κ → ξ} {R : σ → υ → Prop} {S : τ → υ → Prop}
    (hM : M.Simulation A f R) (hN : N.Simulation A g S) {s : σ} {t : τ} {a : υ}
    (hs : R s a) (ht : S t a) {is : List ι} {js : List κ} (hin : is.map f = js.map g) :
    (M.run s is).2 = (N.run t js).2 ∧ ∃ a', R (M.run s is).1 a' ∧ S (N.run t js).1 a' := by
  obtain ⟨hrelM, houtM⟩ := hM.run hs is
  obtain ⟨hrelN, houtN⟩ := hN.run ht js
  rw [hin] at hrelM houtM
  exact ⟨houtM.trans houtN.symm, _, hrelM, hrelN⟩

end Machine
