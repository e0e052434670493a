/-
# The lifecycle of a coroutine, over runs

Every admitted event keeps the threads of all executors in their places, so that the reports of
the coroutine library are right in every state, and a coroutine that is dead stays dead.

## Main definitions

* `Fallen` — the main thread after an error that reached the host;
* `LifeGuard` — the events that keep the reports right;
* `Reported` — the reports on a coroutine, and what may be done with it.

## Main results

* `iterate_life`, `stepSystem_life` — an iteration, and every event;
* `reported_of_staged` — threads in their places are reported right;
* **`coroutine_lifecycle`** — the reports of an admitted run;
* `not_coroutine_lifecycle` — an error leaves a coroutine that is reported normal.
-/

import Tcvm.Lifecycle

namespace Tcvm

/-! ### Events -/

/-- The main thread, after an error that reached the host. -/
def Fallen (ts : ThreadState) : Prop :=
  ts.frames = [] ∧ ts.status = ThreadStatus.normal ∧ ts.pendingAction = none

theorem stuck_fallen : System.Stuck Fallen := fun _ h => ⟨h.2.1, h.2.2⟩

/-- The events that keep the reports right. -/
def LifeGuard (s : System) (ev : HostEvent) : Prop :=
  match s.stepping, ev with
  | some i, HostEvent.iterate c =>
      ∀ e top below, s.executors[i]? = some e → e.threadStack = top :: below →
        LifeIterationGuard (s.driver e) top below c
  | _, _ => HostGuard s ev

def LifeRunGuard (s : Option System) (ev : HostEvent) : Prop := ∀ s', s = some s' → LifeGuard s' ev

/-- Where the main thread does not fail, the choice is one that keeps the chain. -/
theorem iterationGuard_of_life {d : Driver} {top : ThreadId} {below : List ThreadId} {c : Choice}
    (h : LifeIterationGuard d top below c)
    (hmain : ¬ (below = [] ∧ (d.threads top).pendingAction = none ∧
      ∃ err rest, (d.threads top).frames = Frame.error err :: rest)) :
    IterationGuard d top below c := by
  intro hstatus
  have h := h hstatus
  cases hp : (d.threads top).pendingAction with
  | some p =>
      simp only [hp] at h ⊢
      exact h.1
  | none =>
      cases hframes : (d.threads top).frames with
      | nil => trivial
      | cons fr rest =>
          cases fr with
          | lua lf => trivial
          | start f => trivial
          | waitThread wt => trivial
          | error e => exact fun hnil => absurd ⟨hnil, hp, e, rest, hframes⟩ hmain
          | sequence seq cs e =>
              simp only [hp, hframes] at h ⊢
              exact h.1

/-- What an iteration leaves, where errors of the main thread may reach the host. -/
def DriveOutcome.Life (d : Driver) : DriveOutcome → Prop
  | next d' => Driving d' ∧ Kept d d'
  | finish _ d' => Settled d' ∧ Kept d d' ∧ ∃ top below, Chain d' top below ∧
      (Active (d'.threads top) ∧ (d'.threads top).pendingAction = none ∨ Fallen (d'.threads top))
  | error _ d' => Settled d' ∧ Kept d d' ∧ ∃ top below, Chain d' top below ∧
      (Active (d'.threads top) ∧ (d'.threads top).pendingAction = none ∨ Fallen (d'.threads top))
  | unreachable => True
  | panic => True

section Iterations

variable {d : Driver} {top : ThreadId} {below : List ThreadId}

/-- An error of the main thread is caught by a sequence of it, or reaches the host. -/
theorem mainError_life (h : Staged d top []) (hchain : Chain d top [])
    (hmode : d.mode = ExecutorMode.normal) (hstatus : (d.threads top).status = ThreadStatus.normal)
    (hpending : (d.threads top).pendingAction = none)
    (hsite : (d.threads top).yieldBottom = none) (err : Value) {rest : List Frame}
    (hplain : PlainFrames rest) : (unwindError d top [] err rest).Life d := by
  have hkept := unwindError_kept h hchain hstatus hsite err hplain fun hne => absurd rfl hne
  have hshape := unwindFrames_shape err hplain (d.threads top) d.cells
  unfold unwindError at hkept ⊢
  cases hunwind : unwindFrames err rest (d.threads top) d.cells with
  | caught ts cells =>
      simp only [hunwind] at hkept
      rw [hunwind] at hshape
      obtain ⟨hplain', hne, hstatus', hpending'⟩ := hshape
      exact ⟨sound_store hchain hmode cells (active_of_plain hplain' hne
        (hstatus'.trans hstatus) (hpending'.trans hpending)), hkept⟩
  | unreachable => trivial
  | panic => trivial
  | uncaught ts cells =>
      simp only [hunwind] at hkept
      rw [hunwind] at hshape
      obtain ⟨hnil, hstatus', hpending', -⟩ := hshape
      refine ⟨settled_normal hmode, hkept.1, top, [], hchain.store ts cells, Or.inr ?_⟩
      have hself : (d.store top ts cells).threads top = ts := d.setThread_self top ts
      rw [hself]
      exact ⟨hnil, hstatus'.trans hstatus, hpending'.trans hpending⟩

/-- **An iteration**: the chain, and the threads in their places. -/
theorem iterate_life (h : Staged d top below) (hchain : Chain d top below)
    (hmode : d.mode = ExecutorMode.normal) (hactive : Active (d.threads top)) (c : Choice)
    (hguard : LifeIterationGuard d top below c) : (iterate d c).Life d := by
  have hkept := iterate_kept h hchain hactive c hguard
  by_cases hmain : below = [] ∧ (d.threads top).pendingAction = none ∧
      ∃ err rest, (d.threads top).frames = Frame.error err :: rest
  · obtain ⟨hnil, hpending, err, rest, hframes⟩ := hmain
    subst hnil
    obtain ⟨hstatus, hplain⟩ : (d.threads top).status = ThreadStatus.normal ∧
        PlainFrames rest := by
      unfold Active at hactive
      rw [hframes] at hactive
      generalize (d.threads top).status = status, (d.threads top).pendingAction = pending,
        (d.threads top).yieldBottom = y at hactive
      cases hactive with
      | running hplain => exact absurd (plainFrames_cons.1 hplain).1 id
      | failing hplain => exact ⟨rfl, hplain⟩
      | parked hplain => exact absurd (plainFrames_cons.1 hplain).1 id
    have hsite : (d.threads top).yieldBottom = none := by
      rcases h.top with hnone | ⟨hs, -⟩ | ⟨-, hs | hs⟩
      · exact hnone
      · exact absurd (hstatus.symm.trans hs) (by simp)
      · exact absurd (hstatus.symm.trans hs) (by simp)
      · exact absurd (hstatus.symm.trans hs) (by simp)
    rw [iterate_error hchain.stack hstatus hpending hframes c]
    exact mainError_life h hchain hmode hstatus hpending hsite err hplain
  · have hsound := iterate_sound hchain hmode hactive c (iterationGuard_of_life hguard hmain)
    -- the executor does not rest on a thread that waits
    have hrest : ∀ d', Resting d' →
        (∀ top' below', d'.threadStack = top' :: below' → ¬ Awaits (d'.threads top')) →
        ∃ top' below', Chain d' top' below' ∧ (Active (d'.threads top') ∧
          (d'.threads top').pendingAction = none ∨ Fallen (d'.threads top')) := by
      rintro d' ⟨-, top', below', hchain', hactive' | hwaiting⟩ hnot
      · exact ⟨top', below', hchain', Or.inl hactive'⟩
      · exact absurd hwaiting.awaits (hnot top' below' hchain'.stack)
    cases hiter : iterate d c with
    | next d' =>
        rw [hiter] at hsound hkept
        exact ⟨hsound, hkept⟩
    | finish r d' =>
        rw [hiter] at hsound hkept
        exact ⟨hsound.1, hkept.1, hrest d' hsound hkept.2⟩
    | error e d' =>
        rw [hiter] at hsound hkept
        exact ⟨hsound.1, hkept.1, hrest d' hsound hkept.2⟩
    | unreachable => trivial
    | panic => trivial

end Iterations

/-! ### The host -/

/-- All threads of a system, with a chain. -/
def System.onStack (s : System) (threadStack : List ThreadId) : Driver :=
  s.driver { threadStack := threadStack, mode := ExecutorMode.normal }

/-- The threads of a system are in their places. -/
structure System.Living (s : System) (k : ℕ) (top : ThreadId) (below : List ThreadId) : Prop where
  onChain : s.OnChain Fallen k top below
  staged : Staged (s.onStack (top :: below)) top below

/-- An event keeps the threads in their places, and what had ended stays so. -/
def Preserves (s : System) (top : ThreadId) (below : List ThreadId) (s' : System) : Prop :=
  ∃ k' top' below', s'.Living k' top' below' ∧
    KeepsFinished (s.onStack (top :: below)) (s'.onStack (top' :: below'))

section Events

variable {s : System} {k : ℕ} {top : ThreadId} {below : List ThreadId}

/-- The host changes the main thread, which is alone on the chain. -/
theorem keepsFinished_main {s s' : System} (hfresh : s.freshThread ≤ s'.freshThread)
    (hother : ∀ t, t ≠ mainThread → s'.threads t = s.threads t) :
    KeepsFinished (s.onStack [mainThread]) (s'.onStack [mainThread]) := by
  refine ⟨hfresh, fun t _ hmain hf => ⟨?_, id⟩⟩
  show Finished (s'.threads t)
  rw [hother t hmain]
  exact hf

theorem staged_main {s s' : System} (h : Staged (s.onStack [mainThread]) mainThread [])
    (hother : ∀ t, t ≠ mainThread → s'.threads t = s.threads t)
    (hmain : OnStage [] (s'.threads mainThread)) :
    Staged (s'.onStack [mainThread]) mainThread [] := by
  refine ⟨fun t ht => ?_, fun t ht => absurd ht List.not_mem_nil, hmain⟩
  have hne : t ≠ mainThread := fun heq => ht (List.mem_singleton.2 heq)
  show Offstage (s'.threads t)
  rw [hother t hne]
  exact h.idle t ht

theorem startExecutor_life (h : s.Living k top below) (hstep : s.stepping = none)
    (hundivided : s.Undivided) (f : FunctionId) (args : List Value) :
    Preserves s top below (startExecutor s f args) := by
  have hchain := startExecutor_onChain stuck_fallen h.onChain hstep hundivided f args
  have hbelow := h.onChain.below_eq_nil hundivided
  subst hbelow
  have hmain := h.onChain.top_eq_main
  subst hmain
  have hother : ∀ t, t ≠ mainThread → (startExecutor s f args).threads t = s.threads t :=
    fun t ht => Function.update_of_ne ht ..
  have hself : (startExecutor s f args).threads mainThread =
      (s.threads mainThread).seeded f args := by
    simp only [startExecutor, System.setThread, Function.update_self]
  refine ⟨0, mainThread, [], ⟨hchain, staged_main h.staged hother ?_⟩,
    keepsFinished_main (Nat.le_refl _) hother⟩
  rw [hself]
  exact Or.inr (Or.inr ⟨rfl, Or.inl rfl⟩)

theorem enterStep_life (h : s.Living k top below) (hstep : s.stepping = none) {i : ℕ}
    {e : Executor} (he : s.executors[i]? = some e)
    (hguard : ∀ t ts, e.mode = ExecutorMode.normal → e.threadStack = t :: ts →
      ¬ Awaits (s.threads t)) : Preserves s top below (enterStep s i e).1 := by
  obtain ⟨k', hk'⟩ := enterStep_onChain h.onChain hstep he hguard
  have hsame : (enterStep s i e).1.onStack (top :: below) = s.onStack (top :: below) := by
    unfold enterStep
    split
    · rfl
    · rfl
  refine ⟨k', top, below, ⟨hk', ?_⟩, ?_⟩
  · rw [hsame]
    exact h.staged
  · rw [hsame]
    exact KeepsFinished.refl _

theorem resumeExecutor_life (h : s.Living k top below) (hstep : s.stepping = none) {i : ℕ}
    {e : Executor} (he : s.executors[i]? = some e)
    (hguard : e.mode = ExecutorMode.yielded → (s.threads mainThread).frames ≠ [] ∧
      ∀ j e', s.executors[j]? = some e' → e'.mode = ExecutorMode.yielded → j = i)
    (args : List Value) :
    ∀ s', (resumeExecutor s i e args).1 = some s' → Preserves s top below s' := by
  intro s' hs'
  have hchain :=
    (resumeExecutor_onChain stuck_fallen h.onChain hstep he hguard args).1 s' hs'
  unfold resumeExecutor at hs'
  split at hs'
  · next hmode =>
      obtain ⟨hbelow, -, -⟩ := h.onChain.yielded e (List.mem_of_getElem? he) hmode
      subst hbelow
      have hmain := h.onChain.top_eq_main
      subst hmain
      rw [h.onChain.stack_eq he] at hs'
      simp only at hs'
      split at hs'
      · exact absurd hs' (by simp)
      · next cs hcs =>
          split at hs'
          · next ts' hland =>
              cases hs'
              have hother : ∀ t, t ≠ mainThread →
                  ((s.setThread mainThread ts').setMode i e ExecutorMode.normal).threads t =
                    s.threads t := fun t ht => Function.update_of_ne ht ..
              refine ⟨k, mainThread, [], ⟨hchain, staged_main h.staged hother ?_⟩,
                keepsFinished_main (Nat.le_refl _) hother⟩
              have hself : ((s.setThread mainThread ts').setMode i e
                  ExecutorMode.normal).threads mainThread = ts' := by
                simp only [System.setMode, System.setThread, Function.update_self]
              rw [hself]
              exact onStage_of_site (landResumed_keeps hland).yieldBottom
          · exact absurd hs' (by simp)
  · cases hs'
    exact ⟨k, top, below, h, KeepsFinished.refl _⟩

theorem takeResult_life (h : s.Living k top below) (hstep : s.stepping = none) {i : ℕ}
    {e : Executor} (he : s.executors[i]? = some e)
    (hguard : e.mode = ExecutorMode.result → s.Undivided) :
    Preserves s top below (takeResult s i e).1 := by
  have hchain := takeResult_onChain stuck_fallen h.onChain hstep he hguard
  unfold takeResult at hchain ⊢
  split
  · next hmode =>
      rw [if_pos hmode] at hchain
      have hbelow := h.onChain.below_eq_nil (hguard hmode)
      subst hbelow
      have hmain := h.onChain.top_eq_main
      subst hmain
      have hother : ∀ t, t ≠ mainThread →
          ((s.setThread mainThread (s.threads mainThread).cleared).setMode i e
            ExecutorMode.stopped).threads t = s.threads t := fun t ht =>
        Function.update_of_ne ht ..
      refine ⟨k, mainThread, [], ⟨hchain, staged_main h.staged hother ?_⟩,
        keepsFinished_main (Nat.le_refl _) hother⟩
      have hself : ((s.setThread mainThread (s.threads mainThread).cleared).setMode i e
          ExecutorMode.stopped).threads mainThread = (s.threads mainThread).cleared := by
        simp only [System.setMode, System.setThread, Function.update_self]
      rw [hself]
      exact Or.inr (Or.inr ⟨rfl, Or.inr rfl⟩)
  · exact ⟨k, top, below, h, KeepsFinished.refl _⟩

/-- A main thread without a frame that has the status of one that runs. -/
theorem iterate_fallen {d : Driver} (hstack : d.threadStack = top :: below)
    (hstatus : (d.threads top).status = ThreadStatus.normal)
    (hpending : (d.threads top).pendingAction = none) (hframes : (d.threads top).frames = [])
    (c : Choice) : iterate d c = DriveOutcome.unreachable := by
  rw [iterate_normal hstack hstatus]
  unfold drive pumpFrame
  simp only [hpending, hframes]

/-- **An iteration** of the executor that is being stepped. -/
theorem iterateStep_life (h : s.Living k top below) (hstep : s.stepping = some k) {e : Executor}
    (he : s.executors[k]? = some e) {c : Choice}
    (hguard : LifeIterationGuard (s.driver e) top below c) :
    ∀ s', (iterateStep s k e c).1 = some s' → Preserves s top below s' := by
  obtain ⟨-, hgo, e', he', hmode⟩ := h.onChain.driving k hstep
  obtain rfl : e = e' := Option.some.inj (he.symm.trans he')
  have hstack := h.onChain.owner e he
  have hchain : Chain (s.driver e) top below := by
    have hwith := h.onChain.chain.withMode e.mode
    rw [← hstack] at hwith
    exact hwith
  have hstaged : Staged (s.driver e) top below := ⟨h.staged.idle, h.staged.waiting, h.staged.top⟩
  have hsame : s.onStack (top :: below) = { s.driver e with mode := ExecutorMode.normal } := by
    show s.driver _ = _
    rw [← hstack]
    rfl
  have hkeeps : ∀ d stepping, KeepsFinished (s.driver e) d →
      KeepsFinished (s.onStack (top :: below))
        ({ s.update k d with stepping := stepping }.onStack d.threadStack) := by
    intro d stepping hk
    rw [hsame]
    exact ⟨hk.fresh, hk.finished⟩
  intro s' hs'
  have hactive : Active (s.threads top) := by
    rcases hgo with hactive | ⟨⟨hnil, hnormal, hpending⟩, -⟩
    · exact hactive
    · have hunreachable := iterate_fallen hchain.stack hnormal hpending hnil c
      unfold iterateStep at hs'
      rw [hunreachable] at hs'
      exact absurd hs' (by simp)
  unfold iterateStep at hs'
  by_cases hyielded : ∃ e' ∈ s.executors, e'.mode = ExecutorMode.yielded
  · obtain ⟨e', hmem, hmode'⟩ := hyielded
    obtain ⟨hbelow, hyield, hstatus⟩ := h.onChain.yielded e' hmem hmode'
    subst hbelow
    have hmain := h.onChain.top_eq_main
    subst hmain
    have hkeep := fun mode => h.onChain.stuck he hyield hstatus hactive mode
    -- the threads are as they were
    have hsys : ∀ mode, Preserves s mainThread []
        { s.update k { s.driver e with mode := mode } with stepping := none } := fun mode =>
      ⟨k, mainThread, [], ⟨hkeep mode, h.staged⟩, KeepsFinished.refl _⟩
    rcases iterate_stuck (d := s.driver e) hstack hyield hstatus c with heq | ⟨vs, heq⟩ | heq
    · rw [heq] at hs'
      cases hs'
      exact hsys e.mode
    · rw [heq] at hs'
      cases hs'
      exact hsys ExecutorMode.yielded
    · rw [heq] at hs'
      exact absurd hs' (by simp)
  · have hno : ∀ e' ∈ s.executors, e'.mode ≠ ExecutorMode.yielded :=
      fun e' hmem hmode' => hyielded ⟨e', hmem, hmode'⟩
    have hlife := iterate_life hstaged hchain hmode hactive c hguard
    -- the step has returned
    have hend : ∀ d, Settled d → Kept (s.driver e) d → ∀ top' below', Chain d top' below' →
        (Active (d.threads top') ∧ (d.threads top').pendingAction = none ∨
          Fallen (d.threads top')) →
        Preserves s top below { s.update k d with stepping := none } := by
      intro d hsettled hkept top' below' hchain' hrest
      have hfin := hkeeps d none hkept.finished
      rw [hchain'.stack] at hfin
      have hplaces := hkept.staged top' below' hchain'.stack
      exact ⟨k, top', below', ⟨h.onChain.update he hno hchain' hsettled none (fun _ => hrest)
        fun i hi => absurd hi (by simp), hplaces.idle, hplaces.waiting, hplaces.top⟩, hfin⟩
    cases hiter : iterate (s.driver e) c with
    | next d =>
        rw [hiter] at hlife hs'
        obtain ⟨⟨hmode', top', below', hchain', hactive'⟩, hkept⟩ := hlife
        cases hs'
        have hfin := hkeeps d s.stepping hkept.finished
        rw [hchain'.stack] at hfin
        have hplaces := hkept.staged top' below' hchain'.stack
        refine ⟨k, top', below', ⟨?_, hplaces.idle, hplaces.waiting, hplaces.top⟩, hfin⟩
        refine h.onChain.update he hno hchain' (settled_normal hmode') s.stepping
          (fun hnone => absurd (hstep.symm.trans hnone) (by simp)) fun i hi => ?_
        exact ⟨(Option.some.inj (hstep.symm.trans hi)).symm, hactive', hmode'⟩
    | finish r d =>
        rw [hiter] at hlife hs'
        obtain ⟨hsettled, hkept, top', below', hchain', hrest⟩ := hlife
        cases hs'
        exact hend d hsettled hkept top' below' hchain' hrest
    | error err d =>
        rw [hiter] at hlife hs'
        obtain ⟨hsettled, hkept, top', below', hchain', hrest⟩ := hlife
        cases hs'
        exact hend d hsettled hkept top' below' hchain' hrest
    | unreachable =>
        rw [hiter] at hs'
        exact absurd hs' (by simp)
    | panic =>
        rw [hiter] at hs'
        exact absurd hs' (by simp)

/-- **Every event** keeps the threads in their places. -/
theorem stepSystem_life (h : s.Living k top below) {ev : HostEvent} (hguard : LifeGuard s ev) :
    ∀ s', (stepSystem s ev).1 = some s' → Preserves s top below s' := by
  have hkeep : ∀ s', some s = some s' → Preserves s top below s' := by
    intro s' hs'
    cases hs'
    exact ⟨k, top, below, h, KeepsFinished.refl _⟩
  unfold LifeGuard HostGuard at hguard
  unfold stepSystem
  cases hstep : s.stepping with
  | none =>
      rw [hstep] at hguard
      cases ev with
      | start f args =>
          intro s' hs'
          cases hs'
          exact startExecutor_life h hstep hguard f args
      | step i =>
          simp only
          cases he : s.executors[i]? with
          | none => exact hkeep
          | some e =>
              intro s' hs'
              cases hs'
              exact enterStep_life h hstep he fun t ts hmode hstack =>
                hguard e t ts he hmode hstack
      | iterate c => exact hkeep
      | resume i args =>
          simp only
          cases he : s.executors[i]? with
          | none => exact hkeep
          | some e => exact resumeExecutor_life h hstep he (hguard e he) args
      | takeResult i =>
          simp only
          cases he : s.executors[i]? with
          | none => exact hkeep
          | some e =>
              intro s' hs'
              cases hs'
              exact takeResult_life h hstep he (hguard e he)
  | some i =>
      rw [hstep] at hguard
      cases ev with
      | iterate c =>
          obtain ⟨hik, -, e, he, -⟩ := h.onChain.driving i hstep
          subst hik
          simp only [he]
          exact iterateStep_life h hstep he (hguard e top below he (h.onChain.owner e he))
      | _ => exact hkeep

/-- A run keeps the threads in their places. -/
theorem run_life (h : s.Living k top below) (events : List HostEvent)
    (hadmits : executorMachine.Admits LifeRunGuard (some s) events) :
    ∀ s', (executorMachine.run (some s) events).1 = some s' → Preserves s top below s' := by
  have hhalted : ∀ events : List HostEvent, (executorMachine.run none events).1 = none := by
    intro events
    induction events with
    | nil => rfl
    | cons ev events ih => exact ih
  induction events generalizing s k top below with
  | nil =>
      intro s' hs'
      cases hs'
      exact ⟨k, top, below, h, KeepsFinished.refl _⟩
  | cons ev events ih =>
      obtain ⟨hguard, hrest⟩ := hadmits
      have hstep := stepSystem_life h (hguard s rfl)
      intro s' hs'
      rw [Machine.run_cons] at hs'
      change executorMachine.Admits LifeRunGuard (stepSystem s ev).1 events at hrest
      change (executorMachine.run (stepSystem s ev).1 events).1 = some s' at hs'
      cases hmid : (stepSystem s ev).1 with
      | none =>
          rw [hmid, hhalted] at hs'
          exact absurd hs' (by simp)
      | some mid =>
          rw [hmid] at hs' hrest
          obtain ⟨k', top', below', hliving, hkeeps⟩ := hstep mid hmid
          obtain ⟨k'', top'', below'', hliving', hkeeps'⟩ := ih hliving hrest s' hs'
          exact ⟨k'', top'', below'', hliving', hkeeps.trans hkeeps'⟩

theorem init_living : System.init.Living 0 mainThread [] := by
  refine ⟨System.init_onChain Fallen, fun t _ => ?_, fun t ht => absurd ht List.not_mem_nil, ?_⟩
  · exact Offstage.finished (finished_new t)
  · exact onStage_of_site rfl

end Events

/-! ### Reports -/

/-- The thread that runs, while an executor is being stepped. -/
def System.current (s : System) : Option ThreadId :=
  s.stepping.bind fun i => s.executors[i]?.bind fun e => e.threadStack.head?

/-- The reports on a thread follow from where its body is, and what may be done with it follows
from the reports. -/
structure Reported (threads : ThreadId → ThreadState) (current co : ThreadId) : Prop where
  running : coroutineStatus threads current co = CoroutineStatus.running ↔ co = current
  suspended : coroutineStatus threads current co = CoroutineStatus.suspended ↔
    co ≠ current ∧ (Unstarted (threads co) ∨ Parked (threads co))
  normal : coroutineStatus threads current co = CoroutineStatus.normal ↔
    co ≠ current ∧ Awaits (threads co)
  dead : coroutineStatus threads current co = CoroutineStatus.dead ↔
    co ≠ current ∧ Ended (threads co)
  /-- `coroutine.resume` -/
  resumed : unresumableReason threads current co = none ↔
    co ≠ mainThread ∧ coroutineStatus threads current co = CoroutineStatus.suspended
  /-- A wrapped coroutine, once the executor switches to it. -/
  switched : ∀ args, co ≠ current → ((threads co).resumeWith args ≠ none ↔
    coroutineStatus threads current co = CoroutineStatus.suspended)
  closed : closes threads current co = true ↔
    coroutineStatus threads current co = CoroutineStatus.suspended ∨
      coroutineStatus threads current co = CoroutineStatus.dead

/-- A refused operation returns at once, and leaves all threads as they are. -/
structure Refuses (d : Driver) (current co : ThreadId) : Prop where
  resume : unresumableReason d.threads current co ≠ none → ∀ args, ∃ msg,
    luaResume d.threads current (Value.thread co :: args) =
      NativeOutcome.ok CallbackAction.ret [Value.boolean false, Value.string msg]
  close : closes d.threads current co = false → ∀ args,
    applyEffects current d (luaCloseEffects (Value.thread co :: args)) = d

theorem refuses (d : Driver) (current co : ThreadId) : Refuses d current co :=
  ⟨fun h => luaResume_refused h, fun h => luaClose_refused h⟩

theorem reported_current (threads : ThreadId → ThreadState) (current : ThreadId) :
    Reported threads current current := by
  have hstatus : coroutineStatus threads current current = CoroutineStatus.running := if_pos rfl
  refine ⟨by simp [hstatus], by simp [hstatus], by simp [hstatus], by simp [hstatus], ?_,
    fun args hne => absurd rfl hne, by simp [hstatus, closes]⟩
  rw [hstatus]
  unfold unresumableReason
  rw [if_pos (Or.inr rfl)]
  simp

section Places

variable {threads : ThreadId → ThreadState} {current co : ThreadId}

/-- A coroutine that has not started, or is parked in a yield. -/
theorem reported_suspended (hne : co ≠ current) (hmain : co ≠ mainThread)
    (hstatus : (threads co).status = ThreadStatus.suspended)
    (hplace : Unstarted (threads co) ∨ Parked (threads co)) (hawaits : ¬ Awaits (threads co)) :
    Reported threads current co := by
  have hreport : coroutineStatus threads current co = CoroutineStatus.suspended := by
    unfold coroutineStatus
    rw [if_neg hne, hstatus]
  have hended : ¬ Ended (threads co) := by
    rintro ⟨hframes, -, hsite⟩
    rcases hplace with ⟨f, hstart⟩ | hparked
    · exact absurd (hframes.symm.trans hstart) (by simp)
    · exact hparked hsite
  have hreason : unresumableReason threads current co = none := by
    unfold unresumableReason
    rw [if_neg (not_or.2 ⟨hmain, hne⟩), hstatus]
  have hswitch : ∀ args, (threads co).resumeWith args ≠ none := by
    intro args
    unfold ThreadState.resumeWith
    rw [hstatus]
    rcases hplace with ⟨f, hstart⟩ | hparked
    · simp only [hstart]
      simp
    · obtain ⟨y, hy⟩ := Option.ne_none_iff_exists'.1 hparked
      simp only [hy, Option.map_some]
      split
      · simp
      · simp
  have hclose : closes threads current co = true := by
    unfold closes
    rw [if_neg hne, hstatus]
  refine ⟨?_, ?_, ?_, ?_, ?_, fun args _ => ?_, ?_⟩
  · simp [hreport, hne]
  · simp [hreport, hne, hplace]
  · simp [hreport, hawaits]
  · simp [hreport, hended]
  · simp [hreport, hmain, hreason]
  · simp [hreport, hswitch args]
  · simp [hreport, hclose]

/-- A thread that waits for a coroutine it resumed. -/
theorem reported_waiting (hne : co ≠ current) (hwaiting : Waiting (threads co))
    (hsite : (threads co).yieldBottom = none) : Reported threads current co := by
  obtain ⟨wt, rest, hframes, -⟩ := hwaiting.frames
  have hstatus := hwaiting.status
  have hreport : coroutineStatus threads current co = CoroutineStatus.normal := by
    unfold coroutineStatus
    rw [if_neg hne, hstatus]
  have hplace : ¬ (Unstarted (threads co) ∨ Parked (threads co)) := by
    rintro (⟨f, hstart⟩ | hparked)
    · exact absurd (hframes.symm.trans hstart) (by simp)
    · exact hparked hsite
  have hended : ¬ Ended (threads co) := fun h => absurd (hframes.symm.trans h.1) (by simp)
  have hreason : unresumableReason threads current co ≠ none := by
    unfold unresumableReason
    split
    · simp
    · simp [hstatus]
  have hswitch : ∀ args, (threads co).resumeWith args = none := by
    intro args
    unfold ThreadState.resumeWith
    rw [hstatus]
  have hclose : closes threads current co = false := by
    unfold closes
    rw [if_neg hne, hstatus]
  refine ⟨?_, ?_, ?_, ?_, ?_, fun args _ => ?_, ?_⟩
  · simp [hreport, hne]
  · simp [hreport, hplace]
  · simp [hreport, hne, hwaiting.awaits]
  · simp [hreport, hended]
  · simp [hreport, hreason]
  · simp [hreport, hswitch args]
  · simp [hreport, hclose]

/-- A coroutine that has ended. -/
theorem reported_finished (hne : co ≠ current) (h : Finished (threads co)) :
    Reported threads current co := by
  obtain ⟨hframes, hpending, hsite⟩ := h.1
  have hreport : coroutineStatus threads current co = CoroutineStatus.dead := by
    unfold coroutineStatus
    rw [if_neg hne]
    rcases h.2 with hs | ⟨bottom, hs⟩
    · rw [hs]
    · rw [hs]
  have hplace : ¬ (Unstarted (threads co) ∨ Parked (threads co)) := by
    rintro (⟨f, hstart⟩ | hparked)
    · exact absurd (hframes.symm.trans hstart) (by simp)
    · exact hparked hsite
  have hawaits : ¬ Awaits (threads co) := by
    rintro ⟨wt, rest, hwait⟩
    exact absurd (hframes.symm.trans hwait) (by simp)
  have hreason : unresumableReason threads current co ≠ none := by
    unfold unresumableReason
    split
    · simp
    · rcases h.2 with hs | ⟨bottom, hs⟩
      · simp [hs]
      · simp [hs]
  have hswitch : ∀ args, (threads co).resumeWith args = none := by
    intro args
    unfold ThreadState.resumeWith
    rcases h.2 with hs | ⟨bottom, hs⟩
    · rw [hs]
    · rw [hs]
  have hclose : closes threads current co = true := by
    unfold closes
    rw [if_neg hne]
    rcases h.2 with hs | ⟨bottom, hs⟩
    · rw [hs]
    · rw [hs]
  refine ⟨?_, ?_, ?_, ?_, ?_, fun args _ => ?_, ?_⟩
  · simp [hreport, hne]
  · simp [hreport, hplace]
  · simp [hreport, hawaits]
  · simp [hreport, hne, h.1]
  · simp [hreport, hreason]
  · simp [hreport, hswitch args]
  · simp [hreport, hclose]

end Places

section Systems

variable {s : System} {k : ℕ} {top : ThreadId} {below : List ThreadId}

/-- **Threads in their places** are reported right. -/
theorem System.Living.reported (h : s.Living k top below) (co : ThreadId) :
    Reported s.threads top co := by
  by_cases hne : co = top
  · rw [hne]
    exact reported_current s.threads top
  · by_cases hmem : co ∈ below
    · exact reported_waiting hne (h.onChain.chain.waiting co hmem) (h.staged.waiting co hmem)
    · have hnot : co ∉ top :: below := fun hin => (List.mem_cons.1 hin).elim hne hmem
      have hmain : co ≠ mainThread := by
        rintro rfl
        exact hnot h.onChain.main_mem
      cases h.staged.idle co hnot with
      | unstarted hframes hstatus hsite =>
          refine reported_suspended hne hmain hstatus (Or.inl ⟨_, hframes⟩) ?_
          rintro ⟨wt, rest, hwait⟩
          exact absurd (hframes.symm.trans hwait) (by simp)
      | parked hplain hstatus hsite =>
          refine reported_suspended hne hmain hstatus (Or.inr hsite) ?_
          rintro ⟨wt, rest, hwait⟩
          have hplain : PlainFrames (s.threads co).frames := hplain
          rw [hwait] at hplain
          exact absurd (plainFrames_cons.1 hplain).1 id
      | finished hf => exact reported_finished hne hf

/-- The thread that runs is the driven one. -/
theorem System.Living.current_eq (h : s.Living k top below) {current : ThreadId}
    (hcurrent : s.current = some current) : current = top := by
  unfold System.current at hcurrent
  cases hstep : s.stepping with
  | none =>
      rw [hstep] at hcurrent
      exact absurd hcurrent (by simp)
  | some i =>
      obtain ⟨hik, -, e, he, -⟩ := h.onChain.driving i hstep
      subst hik
      rw [hstep, Option.bind_some, he, Option.bind_some, h.onChain.owner e he] at hcurrent
      exact (Option.some.inj hcurrent).symm

/-- A coroutine that is reported dead has ended, and is not on the chain. -/
theorem System.Living.finished_of_dead (h : s.Living k top below) {co : ThreadId}
    (hdead : coroutineStatus s.threads top co = CoroutineStatus.dead) :
    Finished (s.threads co) ∧ co ∉ top :: below := by
  obtain ⟨hne, hended⟩ := (h.reported co).dead.1 hdead
  have hnot : co ∉ top :: below := by
    intro hin
    rcases List.mem_cons.1 hin with heq | hmem
    · exact hne heq
    · obtain ⟨wt, rest, hframes, -⟩ := (h.onChain.chain.waiting co hmem).frames
      exact absurd (hended.1.symm.trans hframes) (by simp)
  refine ⟨?_, hnot⟩
  cases h.staged.idle co hnot with
  | unstarted hframes hstatus hsite => exact absurd (hended.1.symm.trans hframes) (by simp)
  | parked hplain hstatus hsite => exact absurd hended.2.2 hsite
  | finished hf => exact hf

/-- A coroutine that is dead is dead after the events that follow. -/
theorem Preserves.dead {s' : System} (h : s.Living k top below) (hkept : Preserves s top below s')
    {co current : ThreadId} (hcreated : co < s.freshThread) (hmain : co ≠ mainThread)
    (hdead : coroutineStatus s.threads top co = CoroutineStatus.dead)
    (hcurrent : s'.current = some current) :
    coroutineStatus s'.threads current co = CoroutineStatus.dead := by
  obtain ⟨hfinished, hnot⟩ := h.finished_of_dead hdead
  obtain ⟨k', top', below', hliving, hkeeps⟩ := hkept
  obtain ⟨hfinished', hback⟩ := hkeeps.finished co hcreated hmain hfinished
  have htop := hliving.current_eq hcurrent
  subst htop
  have hne : co ≠ current := fun heq => hnot (hback (List.mem_cons.2 (Or.inl heq)))
  exact (hliving.reported co).dead.2 ⟨hne, hfinished'.1⟩

end Systems

/-- **The lifecycle of a coroutine**: in every state of an admitted run the reports are right,
a refused operation changes nothing, and a coroutine that is dead stays dead. -/
theorem coroutine_lifecycle (earlier later : List HostEvent)
    (h : executorMachine.Admits LifeRunGuard (some System.init) (earlier ++ later))
    (s : System) (current : ThreadId) (co : ThreadId)
    (hs : (executorMachine.run (some System.init) earlier).1 = some s)
    (hcurrent : s.current = some current) :
    Reported s.threads current co ∧
      (∀ e ∈ s.executors, Refuses (s.driver e) current co) ∧
      (co < s.freshThread → co ≠ mainThread →
        coroutineStatus s.threads current co = CoroutineStatus.dead →
        ∀ s' current', (executorMachine.run (some System.init) (earlier ++ later)).1 = some s' →
          s'.current = some current' →
          coroutineStatus s'.threads current' co = CoroutineStatus.dead) := by
  obtain ⟨hearlier, hlater⟩ := Machine.admits_append h
  obtain ⟨k, top, below, hliving, -⟩ := run_life init_living earlier hearlier s hs
  have htop := hliving.current_eq hcurrent
  subst htop
  refine ⟨hliving.reported co, fun e _ => refuses (s.driver e) current co,
    fun hcreated hmain hdead s' current' hs' hcurrent' => ?_⟩
  rw [Machine.run_append, hs] at hs'
  rw [hs] at hlater
  exact (run_life hliving later hlater s' hs').dead hliving hcreated hmain hdead hcurrent'

/-- The main thread resumes a coroutine, whose body is a native callback that ends at once. -/
def spawningRun (body : NativeOutcome) : List HostEvent :=
  [HostEvent.start 0 [], HostEvent.step 0, HostEvent.iterate (Choice.spawning 1),
    HostEvent.iterate (Choice.spawning 1), HostEvent.iterate (Choice.ofNative body),
    HostEvent.iterate (Choice.ofNative body)]

theorem spawningRun_admits : executorMachine.Admits LifeRunGuard (some System.init)
    (spawningRun (NativeOutcome.ok CallbackAction.ret []) ++
      [HostEvent.iterate (Choice.ofNative (NativeOutcome.ok CallbackAction.ret []))]) := by
  -- an event of an iteration is admitted in a state that is known
  have hiterate : ∀ (s : System) (c : Choice) (i : ℕ) (e : Executor) (top : ThreadId)
      (below : List ThreadId), s.stepping = some i → s.executors[i]? = some e →
      e.threadStack = top :: below → LifeIterationGuard (s.driver e) top below c →
      LifeRunGuard (some s) (HostEvent.iterate c) := by
    intro s c i e top below hstep he hstack hguard s' hs'
    cases hs'
    unfold LifeGuard
    rw [hstep]
    intro e' top' below' he' hstack'
    obtain rfl := Option.some.inj (he.symm.trans he')
    obtain ⟨rfl, rfl⟩ := List.cons.inj (hstack.symm.trans hstack')
    exact hguard
  refine ⟨?_, ?_, ?_, ?_, ?_, ?_, ?_, trivial⟩
  · intro s hs
    cases hs
    exact fun e he => absurd he List.not_mem_nil
  · intro s hs
    cases hs
    intro e top below he _ hstack
    cases he
    cases hstack
    rintro ⟨wt, rest, hframes⟩
    cases hframes
  · refine hiterate _ _ 0 _ 0 [] rfl rfl rfl ?_
    exact fun hstatus => absurd hstatus (by decide)
  · refine hiterate _ _ 0 _ 0 [] rfl rfl rfl fun _ => ⟨?_, ?_⟩
    · rintro ⟨-, hnil⟩
      cases hnil
    · intro target htarget
      cases htarget
      rfl
  · refine hiterate _ _ 0 _ 1 [0] rfl rfl rfl fun _ => trivial
  · refine hiterate _ _ 0 _ 1 [0] rfl rfl rfl ?_
    exact fun hstatus => absurd hstatus (by decide)
  · refine hiterate _ _ 0 _ 0 [] rfl rfl rfl fun _ => ⟨trivial, ?_⟩
    intro target htarget
    cases htarget

/-- The body returns, and the coroutine is dead. -/
theorem coroutine_lifecycle_returning :
    ∃ s, (executorMachine.run (some System.init)
        (spawningRun (NativeOutcome.ok CallbackAction.ret []))).1 = some s ∧
      Reported s.threads 0 1 ∧ coroutineStatus s.threads 0 1 = CoroutineStatus.dead := by
  refine ⟨_, rfl, ?_, rfl⟩
  exact (coroutine_lifecycle _ _ spawningRun_admits _ 0 1 rfl rfl).1

/-- The body raises an error, and the coroutine is reported normal. -/
theorem not_coroutine_lifecycle :
    ¬ ∀ (events : List HostEvent) (s : System) (current co : ThreadId),
      (executorMachine.run (some System.init) events).1 = some s →
      s.current = some current → Reported s.threads current co := by
  intro h
  have hreported := h (spawningRun (NativeOutcome.error Value.nil [])) _ 0 1 rfl rfl
  obtain ⟨-, wt, rest, hframes⟩ := hreported.normal.1 rfl
  cases hframes

end Tcvm
