/-
# The runs of the executors

A host that starts executors, steps them, resumes them and takes their results, in any order: every
executor keeps a chain of waiting threads below the one it drives, as long as the events are
admitted.

## Main definitions

* `Live`, `System.Consistent` — what the executor relies on, for all executors;
* `HostGuard` — the events that are admitted;
* `System.OnChain` — the invariant: one executor owns the chain, the others are on the main thread.

## Main results

* `startExecutor_onChain`, `enterStep_onChain`, `iterateStep_onChain`, `resumeExecutor_onChain`,
  `takeResult_onChain` — the events;
* **`executors_consistent`** — every state of an admitted run is consistent, and no `unreachable!`
  is reached;
* `not_executors_consistent` — an error that reaches the host leaves the main thread without a
  frame.
-/

import Tcvm.ExecutorInvariant
import Tcvm.Coroutine

namespace Tcvm

/-! ### Consistency -/

/-- A thread that is driven can go on, or has ended: it has a frame, or a pending action, or its
status says what to do. -/
def Live (ts : ThreadState) : Prop :=
  ts.frames ≠ [] ∨ ts.pendingAction ≠ none ∨ ts.status = ThreadStatus.stopped ∨
    (∃ bottom, ts.status = ThreadStatus.result bottom) ∨
    (ts.status = ThreadStatus.suspended ∧ ts.yieldBottom ≠ none)

theorem Active.live {ts : ThreadState} (h : Active ts) : Live ts := by
  unfold Active at h
  unfold Live
  generalize ts.frames = frames, ts.status = status, ts.pendingAction = pending,
    ts.yieldBottom = y at *
  cases h with
  | seeded => exact Or.inl (List.cons_ne_nil _ _)
  | running _ hne _ => exact hne.imp_right Or.inl
  | failing => exact Or.inl (List.cons_ne_nil _ _)
  | parked => exact Or.inr (Or.inr (Or.inr (Or.inr ⟨rfl, by simp⟩)))
  | finished => exact Or.inr (Or.inr (Or.inr (Or.inl ⟨_, rfl⟩)))
  | stopped => exact Or.inr (Or.inr (Or.inl rfl))

theorem Waiting.live {ts : ThreadState} (h : Waiting ts) : Live ts := by
  obtain ⟨wt, rest, hframes, -⟩ := h.frames
  refine Or.inl ?_
  rw [hframes]
  exact List.cons_ne_nil _ _

theorem Waiting.awaits {ts : ThreadState} (h : Waiting ts) : Awaits ts := by
  obtain ⟨wt, rest, hframes, -⟩ := h.frames
  exact ⟨wt, rest, hframes⟩

namespace System

/-- The threads of every executor are different, those below the top wait, and the top is live. -/
def Consistent (s : System) : Prop :=
  ∀ e ∈ s.executors, ∃ top below, e.threadStack = top :: below ∧ (top :: below).Nodup ∧
    (∀ t ∈ below, Awaits (s.threads t)) ∧ Live (s.threads top)

/-- No executor has switched to a coroutine. -/
def Undivided (s : System) : Prop := ∀ e ∈ s.executors, e.threadStack = [mainThread]

end System

/-- The events that keep the executors consistent.  A host does not abandon an executor that has
switched to a coroutine, does not step one whose thread waits, and resumes neither a thread
without a frame nor one that two executors have yielded. -/
def HostGuard (s : System) (ev : HostEvent) : Prop :=
  match s.stepping, ev with
  | none, HostEvent.start _ _ => s.Undivided
  | none, HostEvent.step i =>
      ∀ e top below, s.executors[i]? = some e → e.mode = ExecutorMode.normal →
        e.threadStack = top :: below → ¬ Awaits (s.threads top)
  | none, HostEvent.resume i _ =>
      ∀ e, s.executors[i]? = some e → e.mode = ExecutorMode.yielded →
        (s.threads mainThread).frames ≠ [] ∧
          ∀ j e', s.executors[j]? = some e' → e'.mode = ExecutorMode.yielded → j = i
  | none, HostEvent.takeResult i =>
      ∀ e, s.executors[i]? = some e → e.mode = ExecutorMode.result → s.Undivided
  | some i, HostEvent.iterate c =>
      ∀ e top below, s.executors[i]? = some e → e.threadStack = top :: below →
        IterationGuard (s.driver e) top below c
  | _, _ => True

/-- The guard of a machine that may have halted. -/
def RunGuard (s : Option System) (ev : HostEvent) : Prop := ∀ s', s = some s' → HostGuard s' ev

/-! ### The invariant -/

namespace System

/-- The executor at position `k` owns the chain, and the others are on the main thread.  Between
two calls of the host, the driven thread is active, or it is in a state `R` in which it cannot go
on. -/
structure OnChain (R : ThreadState → Prop) (s : System) (k : ℕ) (top : ThreadId)
    (below : List ThreadId) : Prop where
  chain : Chain (s.driver { threadStack := top :: below, mode := ExecutorMode.normal }) top below
  owner : ∀ e, s.executors[k]? = some e → e.threadStack = top :: below
  others : ∀ j e, j ≠ k → s.executors[j]? = some e → e.threadStack = [mainThread]
  unowned : s.executors[k]? = none → below = []
  yielded : ∀ e ∈ s.executors, e.mode = ExecutorMode.yielded →
    below = [] ∧ (s.threads mainThread).yieldBottom ≠ none ∧
      ((s.threads mainThread).status = ThreadStatus.suspended ∨
        (s.threads mainThread).status = ThreadStatus.stopped)
  resting : s.stepping = none →
    Active (s.threads top) ∧ (s.threads top).pendingAction = none ∨ R (s.threads top)
  driving : ∀ i, s.stepping = some i →
    i = k ∧ (Active (s.threads top) ∨ R (s.threads top) ∧ ¬ Awaits (s.threads top)) ∧
      ∃ e, s.executors[k]? = some e ∧ e.mode = ExecutorMode.normal

/-- A thread that cannot go on has the status of one that runs, and requests nothing. -/
def Stuck (R : ThreadState → Prop) : Prop :=
  ∀ ts, R ts → ts.status = ThreadStatus.normal ∧ ts.pendingAction = none

theorem stuck_waiting : Stuck Waiting := fun _ h => ⟨h.status, h.pending⟩

variable {R : ThreadState → Prop} {s : System} {k : ℕ} {top : ThreadId} {below : List ThreadId}

theorem OnChain.live (h : s.OnChain Waiting k top below) : Live (s.threads top) := by
  cases hstep : s.stepping with
  | none =>
      rcases h.resting hstep with ⟨hactive, -⟩ | hwaiting
      · exact hactive.live
      · exact hwaiting.live
  | some i =>
      obtain ⟨-, hactive | ⟨hwaiting, -⟩, -⟩ := h.driving i hstep
      · exact hactive.live
      · exact hwaiting.live

theorem OnChain.main_mem (h : s.OnChain R k top below) : mainThread ∈ top :: below :=
  List.mem_of_getLast? h.chain.main

/-- **The invariant** makes all executors consistent. -/
theorem OnChain.consistent (h : s.OnChain Waiting k top below) : s.Consistent := by
  intro e he
  obtain ⟨j, hj⟩ := List.mem_iff_getElem?.1 he
  by_cases hk : j = k
  · subst hk
    exact ⟨top, below, h.owner e hj, h.chain.nodup, fun t ht => (h.chain.waiting t ht).awaits,
      h.live⟩
  · refine ⟨mainThread, [], h.others j e hk hj,
      List.nodup_cons.2 ⟨List.not_mem_nil, List.nodup_nil⟩,
      fun t ht => absurd ht List.not_mem_nil, ?_⟩
    rcases List.mem_cons.1 h.main_mem with heq | hmem
    · rw [heq]
      exact h.live
    · exact (h.chain.waiting _ hmem).live

/-- Where no executor has switched to a coroutine, the chain is the main thread. -/
theorem OnChain.below_eq_nil (h : s.OnChain R k top below) (hundivided : s.Undivided) :
    below = [] := by
  cases hk : s.executors[k]? with
  | none => exact h.unowned hk
  | some e =>
      have heq := (h.owner e hk).symm.trans (hundivided e (List.mem_of_getElem? hk))
      exact (List.cons.inj heq).2

theorem OnChain.top_eq_main (h : s.OnChain R k top []) : top = mainThread := h.chain.top_eq_main

theorem init_onChain (R : ThreadState → Prop) : System.init.OnChain R 0 mainThread [] := by
  refine ⟨⟨rfl, List.nodup_cons.2 ⟨List.not_mem_nil, List.nodup_nil⟩, rfl, ?_,
    fun _ _ => rfl, ?_, ?_⟩, ?_, ?_, fun _ => rfl, ?_,
    fun _ => Or.inl ⟨ActiveAt.stopped, rfl⟩, ?_⟩
  · intro t ht
    rw [List.mem_singleton.1 ht]
    exact Nat.zero_lt_one
  · exact fun t ht => absurd ht List.not_mem_nil
  · exact fun t _ => idle_new t
  · exact fun e he => absurd he (by simp [System.init])
  · exact fun j e _ he => absurd he (by simp [System.init])
  · exact fun e he => absurd he List.not_mem_nil
  · exact fun i hi => absurd hi (by simp [System.init])

end System

/-! ### The events -/

/-- A thread with a frame that the host resumes runs. -/
theorem resumed_active {ts ts' : ThreadState} (hactive : Active ts) (hframes : ts.frames ≠ [])
    (hstatus : ts.status = ThreadStatus.suspended ∨ ts.status = ThreadStatus.stopped)
    (hpos : Repositioned ts.frames ts'.frames) (hnormal : ts'.status = ThreadStatus.normal)
    (hpending : ts'.pendingAction = none) : Active ts' := by
  have hne : ts'.frames ≠ [] := fun hnil => hframes (hpos.eq_nil.1 hnil)
  unfold Active at hactive
  generalize hfr : ts.frames = frames, hs : ts.status = status, hp : ts.pendingAction = pending,
    hy : ts.yieldBottom = y at *
  cases hactive with
  | seeded =>
      unfold Active
      rcases hpos with heq | ⟨lf, -, rest, heq, -⟩
      · rw [heq, hnormal, hpending]
        exact ActiveAt.seeded (Or.inr rfl)
      · exact absurd heq (by simp)
  | parked hplain => exact active_of_plain (hpos.plain hplain) hne hnormal hpending
  | running => exact absurd hstatus (by simp)
  | failing => exact absurd hstatus (by simp)
  | finished => exact absurd rfl hframes
  | stopped => exact absurd rfl hframes

section Events

variable {R : ThreadState → Prop} {s : System} {k : ℕ} {top : ThreadId} {below : List ThreadId}

/-- **Starting** an executor. -/
theorem startExecutor_onChain (hR : System.Stuck R) (h : s.OnChain R k top below)
    (hstep : s.stepping = none)
    (hundivided : s.Undivided) (f : FunctionId) (args : List Value) :
    (startExecutor s f args).OnChain R 0 mainThread [] := by
  have hbelow := h.below_eq_nil hundivided
  subst hbelow
  have hmain := h.top_eq_main
  subst hmain
  have hpending : (s.threads mainThread).pendingAction = none := by
    rcases h.resting hstep with ⟨-, hnone⟩ | hstuck
    · exact hnone
    · exact (hR _ hstuck).2
  have hself : (startExecutor s f args).threads mainThread =
      (s.threads mainThread).seeded f args := by
    simp only [startExecutor, System.setThread, Function.update_self]
  refine
    { chain := h.chain.setTop _
      owner := fun e he => ?_
      others := fun j e hj he => ?_
      unowned := fun _ => rfl
      yielded := fun e he hmode => ⟨rfl, ?_⟩
      resting := fun _ => Or.inl ?_
      driving := fun i hi => absurd (hstep.symm.trans hi) (by simp) }
  · cases he
    rfl
  · cases j with
    | zero => exact absurd rfl hj
    | succ j => exact hundivided e (List.mem_of_getElem? he)
  · rw [hself]
    rcases List.mem_cons.1 he with rfl | he
    · exact absurd hmode (by simp)
    · obtain ⟨-, hyield, -⟩ := h.yielded e he hmode
      exact ⟨hyield, Or.inl rfl⟩
  · rw [hself]
    refine ⟨?_, hpending⟩
    show ActiveAt [Frame.start f] ThreadStatus.suspended (s.threads mainThread).pendingAction _
    rw [hpending]
    exact ActiveAt.seeded (Or.inl rfl)

/-- An executor that drives a thread that does not wait can own the chain. -/
theorem System.OnChain.own (h : s.OnChain R k top below) (hstep : s.stepping = none) {i : ℕ}
    {e : Executor}
    (he : s.executors[i]? = some e)
    (hawaits : ∀ t ts, e.threadStack = t :: ts → ¬ Awaits (s.threads t)) :
    s.OnChain R i top below := by
  by_cases hik : i = k
  · rwa [hik]
  · have hstack := h.others i e hik he
    -- the main thread waits if it is not the top of the chain
    have hbelow : below = [] := by
      cases below with
      | nil => rfl
      | cons resumer below' =>
          have hlast := h.chain.main
          rw [List.getLast?_cons_cons] at hlast
          have hwaiting := h.chain.waiting mainThread (List.mem_of_getLast? hlast)
          exact absurd hwaiting.awaits (hawaits _ _ hstack)
    subst hbelow
    have hmain := h.top_eq_main
    subst hmain
    refine
      { chain := h.chain
        owner := fun e' he' => ?_
        others := fun j e' hj he' => ?_
        unowned := fun _ => rfl
        yielded := h.yielded
        resting := h.resting
        driving := fun i hi => absurd (hstep.symm.trans hi) (by simp) }
    · rwa [← Option.some.inj (he.symm.trans he')]
    · by_cases hjk : j = k
      · subst hjk
        exact h.owner e' he'
      · exact h.others j e' hjk he'

/-- **Entering `step`**. -/
theorem enterStep_onChain (h : s.OnChain R k top below) (hstep : s.stepping = none) {i : ℕ}
    {e : Executor} (he : s.executors[i]? = some e)
    (hguard : ∀ t ts, e.mode = ExecutorMode.normal → e.threadStack = t :: ts →
      ¬ Awaits (s.threads t)) :
    ∃ k', (enterStep s i e).1.OnChain R k' top below := by
  unfold enterStep
  split
  · next hmode =>
      have hown := h.own hstep he fun t ts hstack => hguard t ts hmode hstack
      have hactive : Active (s.threads top) ∨ R (s.threads top) ∧ ¬ Awaits (s.threads top) := by
        rcases h.resting hstep with ⟨hactive, -⟩ | hstuck
        · exact Or.inl hactive
        · exact Or.inr ⟨hstuck, hguard _ _ hmode (hown.owner e he)⟩
      exact ⟨i,
        { hown with
          resting := fun hnone => absurd hnone (by simp)
          driving := fun j hj => ⟨(Option.some.inj hj).symm, hactive, e, he, hmode⟩ }⟩
  · exact ⟨k, h⟩

/-- The system after an iteration of the executor that owns the chain, where no executor has
yielded before. -/
theorem System.OnChain.update (h : s.OnChain R k top below) {e : Executor}
    (he : s.executors[k]? = some e)
    (hyielded : ∀ e' ∈ s.executors, e'.mode ≠ ExecutorMode.yielded) {d : Driver}
    {top' : ThreadId} {below' : List ThreadId} (hchain : Chain d top' below')
    (hsettled : Settled d) (stepping : Option ℕ)
    (hresting : stepping = none →
      Active (d.threads top') ∧ (d.threads top').pendingAction = none ∨ R (d.threads top'))
    (hdriving : ∀ i, stepping = some i →
      i = k ∧ Active (d.threads top') ∧ d.mode = ExecutorMode.normal) :
    { s.update k d with stepping := stepping }.OnChain R k top' below' := by
  obtain ⟨hlt, -⟩ := List.getElem?_eq_some_iff.1 he
  have hself : (s.executors.set k { threadStack := d.threadStack, mode := d.mode })[k]? =
      some { threadStack := d.threadStack, mode := d.mode } := by
    rw [List.getElem?_set_self hlt]
  refine
    { chain := hchain.withMode ExecutorMode.normal
      owner := fun e' he' => ?_
      others := fun j e' hj he' => ?_
      unowned := fun hnone => ?_
      yielded := fun e' he' hmode => ?_
      resting := hresting
      driving := fun i hi => ?_ }
  · have heq := Option.some.inj (hself.symm.trans he')
    rw [← heq]
    exact hchain.stack
  · have heq : (s.executors.set k { threadStack := d.threadStack, mode := d.mode })[j]? =
        some e' := he'
    rw [List.getElem?_set_ne (Ne.symm hj)] at heq
    exact h.others j e' hj heq
  · exact absurd (hself.symm.trans hnone) (by simp)
  · rcases List.mem_or_eq_of_mem_set he' with hmem | rfl
    · exact absurd hmode (hyielded e' hmem)
    · obtain ⟨hstack, hstatus, hyield⟩ := hsettled.yielded hmode
      have hbelow := (List.cons.inj (hchain.stack.symm.trans hstack)).2
      exact ⟨hbelow, hyield, Or.inl hstatus⟩
  · obtain ⟨hik, hactive, hmode⟩ := hdriving i hi
    exact ⟨hik, Or.inl hactive, _, hself, hmode⟩

/-- A thread that has yielded to the host, or whose result has been taken, does nothing. -/
theorem iterate_stuck {d : Driver} (hstack : d.threadStack = [top])
    (hyield : (d.threads top).yieldBottom ≠ none)
    (hstatus : (d.threads top).status = ThreadStatus.suspended ∨
      (d.threads top).status = ThreadStatus.stopped) (c : Choice) :
    iterate d c = DriveOutcome.error RuntimeError.badMode d ∨
      (∃ vs, iterate d c =
        DriveOutcome.finish (StepResult.yielded vs) { d with mode := ExecutorMode.yielded }) ∨
      iterate d c = DriveOutcome.panic := by
  unfold iterate
  simp only [hstack]
  obtain ⟨y, hy⟩ := Option.ne_none_iff_exists'.1 hyield
  rcases hstatus with hstatus | hstatus
  · simp only [hstatus, hy]
    split
    · exact Or.inr (Or.inl ⟨_, by rw [← hstack]⟩)
    · exact Or.inr (Or.inr rfl)
  · simp only [hstatus]
    exact Or.inl trivial

/-- The system after an iteration that changes the mode at most. -/
theorem System.OnChain.stuck (h : s.OnChain R k top []) {e : Executor}
    (he : s.executors[k]? = some e)
    (hyield : (s.threads mainThread).yieldBottom ≠ none)
    (hstatus : (s.threads mainThread).status = ThreadStatus.suspended ∨
      (s.threads mainThread).status = ThreadStatus.stopped)
    (hactive : Active (s.threads top)) (mode : ExecutorMode) :
    { s.update k { s.driver e with mode := mode } with stepping := none }.OnChain R k top [] := by
  obtain ⟨hlt, -⟩ := List.getElem?_eq_some_iff.1 he
  have hself : (s.executors.set k { threadStack := e.threadStack, mode := mode })[k]? =
      some { threadStack := e.threadStack, mode := mode } := by
    rw [List.getElem?_set_self hlt]
  have hpending : (s.threads top).pendingAction = none := by
    refine hactive.pending_none ?_
    rw [h.top_eq_main]
    rcases hstatus with hstatus | hstatus
    · rw [hstatus]
      simp
    · rw [hstatus]
      simp
  refine
    { chain := h.chain
      owner := fun e' he' => ?_
      others := fun j e' hj he' => ?_
      unowned := fun _ => rfl
      yielded := fun _ _ _ => ⟨rfl, hyield, hstatus⟩
      resting := fun _ => Or.inl ⟨hactive, hpending⟩
      driving := fun i hi => absurd hi (by simp) }
  · have heq := Option.some.inj (hself.symm.trans he')
    rw [← heq]
    exact h.owner e he
  · have heq : (s.executors.set k { threadStack := e.threadStack, mode := mode })[j]? =
        some e' := he'
    rw [List.getElem?_set_ne (Ne.symm hj)] at heq
    exact h.others j e' hj heq

/-- **An iteration** of the executor that is being stepped. -/
theorem iterateStep_onChain (h : s.OnChain Waiting k top below) (hstep : s.stepping = some k)
    {e : Executor} (he : s.executors[k]? = some e) {c : Choice}
    (hguard : IterationGuard (s.driver e) top below c) :
    (∀ s', (iterateStep s k e c).1 = some s' →
      ∃ top' below', s'.OnChain Waiting k top' below') ∧
      (iterateStep s k e c).2 ≠ Reply.unreachable := by
  obtain ⟨-, hgo, e', he', hmode⟩ := h.driving k hstep
  have hactive : Active (s.threads top) := by
    rcases hgo with hactive | ⟨hwaiting, hnot⟩
    · exact hactive
    · exact absurd hwaiting.awaits hnot
  obtain rfl : e = e' := Option.some.inj (he.symm.trans he')
  have hstack := h.owner e he
  unfold iterateStep
  by_cases hyielded : ∃ e' ∈ s.executors, e'.mode = ExecutorMode.yielded
  · obtain ⟨e', hmem, hmode'⟩ := hyielded
    obtain ⟨hbelow, hyield, hstatus⟩ := h.yielded e' hmem hmode'
    subst hbelow
    have hmain := h.top_eq_main
    subst hmain
    have hkeep := fun mode => h.stuck he hyield hstatus hactive mode
    rcases iterate_stuck (d := s.driver e) hstack hyield hstatus c with heq | ⟨vs, heq⟩ | heq
    · rw [heq]
      refine ⟨fun s' hs' => ⟨mainThread, [], ?_⟩, by simp⟩
      cases hs'
      exact hkeep e.mode
    · rw [heq]
      refine ⟨fun s' hs' => ⟨mainThread, [], ?_⟩, by simp⟩
      cases hs'
      exact hkeep ExecutorMode.yielded
    · rw [heq]
      exact ⟨fun s' hs' => absurd hs' (by simp), by simp⟩
  · have hno : ∀ e' ∈ s.executors, e'.mode ≠ ExecutorMode.yielded :=
      fun e' hmem hmode' => hyielded ⟨e', hmem, hmode'⟩
    have hchain : Chain (s.driver e) top below := by
      have hwith := h.chain.withMode e.mode
      rw [← hstack] at hwith
      exact hwith
    have hsound := iterate_sound hchain hmode hactive c hguard
    cases hiter : iterate (s.driver e) c with
    | next d =>
        rw [hiter] at hsound
        obtain ⟨hmode', top', below', hchain', hactive'⟩ := hsound
        refine ⟨fun s' hs' => ⟨top', below', ?_⟩, by simp⟩
        cases hs'
        refine h.update he hno hchain' (settled_normal hmode') s.stepping
          (fun hnone => absurd (hstep.symm.trans hnone) (by simp)) fun i hi => ?_
        exact ⟨(Option.some.inj (hstep.symm.trans hi)).symm, hactive', hmode'⟩
    | finish r d =>
        rw [hiter] at hsound
        obtain ⟨hsettled, top', below', hchain', hrest⟩ := hsound
        refine ⟨fun s' hs' => ⟨top', below', ?_⟩, by simp⟩
        cases hs'
        exact h.update he hno hchain' hsettled none (fun _ => hrest)
          fun i hi => absurd hi (by simp)
    | error err d =>
        rw [hiter] at hsound
        obtain ⟨hsettled, top', below', hchain', hrest⟩ := hsound
        refine ⟨fun s' hs' => ⟨top', below', ?_⟩, by simp⟩
        cases hs'
        exact h.update he hno hchain' hsettled none (fun _ => hrest)
          fun i hi => absurd hi (by simp)
    | unreachable =>
        rw [hiter] at hsound
        exact absurd hsound id
    | panic => exact ⟨fun s' hs' => absurd hs' (by simp), by simp⟩

/-- Every executor is on the main thread where the chain is the main thread. -/
theorem System.OnChain.stack_eq (h : s.OnChain R k mainThread []) {i : ℕ} {e : Executor}
    (he : s.executors[i]? = some e) : e.threadStack = [mainThread] := by
  by_cases hik : i = k
  · subst hik
    exact h.owner e he
  · exact h.others i e hik he

/-- The host changes the main thread, and the mode of an executor. -/
theorem System.OnChain.setMain (h : s.OnChain R k mainThread []) (hstep : s.stepping = none) {i : ℕ}
    {e : Executor} (he : s.executors[i]? = some e) {ts : ThreadState} {mode : ExecutorMode}
    (hactive : Active ts) (hpending : ts.pendingAction = none)
    (hyielded : ∀ (j : ℕ) (e' : Executor),
      (s.executors.set i { e with mode := mode })[j]? = some e' →
      e'.mode = ExecutorMode.yielded → ts.yieldBottom ≠ none ∧
        (ts.status = ThreadStatus.suspended ∨ ts.status = ThreadStatus.stopped)) :
    ((s.setThread mainThread ts).setMode i e mode).OnChain R k mainThread [] := by
  have hself : ((s.setThread mainThread ts).setMode i e mode).threads mainThread = ts := by
    simp only [System.setMode, System.setThread, Function.update_self]
  have hstacks : ∀ (j : ℕ) (e' : Executor),
      (s.executors.set i { e with mode := mode })[j]? = some e' →
        e'.threadStack = [mainThread] := by
    intro j e' he'
    rcases List.mem_or_eq_of_mem_set (List.mem_of_getElem? he') with hmem | heq
    · obtain ⟨j', hj'⟩ := List.mem_iff_getElem?.1 hmem
      exact h.stack_eq hj'
    · rw [heq]
      show e.threadStack = [mainThread]
      exact h.stack_eq he
  refine
    { chain := h.chain.setTop ts
      owner := fun e' he' => hstacks k e' he'
      others := fun j e' _ he' => hstacks j e' he'
      unowned := fun _ => rfl
      yielded := fun e' he' hmode => ⟨rfl, ?_⟩
      resting := fun _ => Or.inl ?_
      driving := fun i hi => absurd (hstep.symm.trans hi) (by simp) }
  · rw [hself]
    obtain ⟨j, hj⟩ := List.mem_iff_getElem?.1 he'
    exact hyielded j e' hj hmode
  · rw [hself]
    exact ⟨hactive, hpending⟩

/-- **Resuming** an executor whose thread has a frame. -/
theorem resumeExecutor_onChain (hR : System.Stuck R) (h : s.OnChain R k top below)
    (hstep : s.stepping = none) {i : ℕ}
    {e : Executor} (he : s.executors[i]? = some e)
    (hguard : e.mode = ExecutorMode.yielded → (s.threads mainThread).frames ≠ [] ∧
      ∀ j e', s.executors[j]? = some e' → e'.mode = ExecutorMode.yielded → j = i)
    (args : List Value) :
    (∀ s', (resumeExecutor s i e args).1 = some s' → s'.OnChain R k top below) ∧
      (resumeExecutor s i e args).2 ≠ Reply.unreachable := by
  unfold resumeExecutor
  split
  · next hmode =>
      obtain ⟨hbelow, hyield, hstatus⟩ := h.yielded e (List.mem_of_getElem? he) hmode
      obtain ⟨hframes, honly⟩ := hguard hmode
      subst hbelow
      have hmain := h.top_eq_main
      subst hmain
      obtain ⟨cs, hcs⟩ := Option.ne_none_iff_exists'.1 hyield
      rw [h.stack_eq he]
      simp only [hcs]
      split
      · next ts' hland =>
          refine ⟨fun s' hs' => ?_, by simp⟩
          cases hs'
          obtain ⟨hpos, hnormal, hsame⟩ := landResumed_shape hland
          obtain ⟨hactive, hpending⟩ : Active (s.threads mainThread) ∧
              (s.threads mainThread).pendingAction = none := by
            rcases h.resting hstep with hactive | hstuck
            · exact hactive
            · rcases hstatus with hs | hs
              · exact absurd ((hR _ hstuck).1.symm.trans hs) (by simp)
              · exact absurd ((hR _ hstuck).1.symm.trans hs) (by simp)
          refine h.setMain hstep he ?_ (hsame.trans hpending) fun j e' hj hmode' => ?_
          · exact resumed_active hactive hframes hstatus hpos hnormal (hsame.trans hpending)
          · by_cases hji : j = i
            · subst hji
              obtain ⟨hlt, -⟩ := List.getElem?_eq_some_iff.1 he
              rw [List.getElem?_set_self hlt] at hj
              cases hj
              exact absurd hmode' (by simp)
            · rw [List.getElem?_set_ne (Ne.symm hji)] at hj
              exact absurd (honly j e' hj hmode') hji
      · exact ⟨fun s' hs' => absurd hs' (by simp), by simp⟩
  · refine ⟨fun s' hs' => ?_, by simp⟩
    cases hs'
    exact h

/-- **Taking the result** of an executor. -/
theorem takeResult_onChain (hR : System.Stuck R) (h : s.OnChain R k top below)
    (hstep : s.stepping = none) {i : ℕ}
    {e : Executor} (he : s.executors[i]? = some e)
    (hguard : e.mode = ExecutorMode.result → s.Undivided) :
    (takeResult s i e).1.OnChain R k top below := by
  unfold takeResult
  split
  · next hmode =>
      have hbelow := h.below_eq_nil (hguard hmode)
      subst hbelow
      have hmain := h.top_eq_main
      subst hmain
      have hpending : (s.threads mainThread).pendingAction = none := by
        rcases h.resting hstep with ⟨-, hnone⟩ | hstuck
        · exact hnone
        · exact (hR _ hstuck).2
      refine h.setMain hstep he ?_ hpending fun j e' hj hmode' => ?_
      · show ActiveAt [] ThreadStatus.stopped (s.threads mainThread).pendingAction _
        rw [hpending]
        exact ActiveAt.stopped
      · rcases List.mem_or_eq_of_mem_set (List.mem_of_getElem? hj) with hmem | rfl
        · obtain ⟨-, hyield, -⟩ := h.yielded e' hmem hmode'
          exact ⟨hyield, Or.inr rfl⟩
        · exact absurd hmode' (by simp)
  · exact h

end Events

/-! ### Runs -/

/-- **Every event** keeps the invariant, and reaches no `unreachable!`. -/
theorem stepSystem_onChain {s : System} {k : ℕ} {top : ThreadId} {below : List ThreadId}
    (h : s.OnChain Waiting k top below) {ev : HostEvent} (hguard : HostGuard s ev) :
    (∀ s', (stepSystem s ev).1 = some s' → ∃ k' top' below', s'.OnChain Waiting k' top' below') ∧
      (stepSystem s ev).2 ≠ Reply.unreachable := by
  unfold HostGuard at hguard
  have hkeep : ∀ s', some s = some s' → ∃ k' top' below', s'.OnChain Waiting k' top' below' := by
    intro s' hs'
    cases hs'
    exact ⟨k, top, below, h⟩
  unfold stepSystem
  cases hstep : s.stepping with
  | none =>
      rw [hstep] at hguard
      cases ev with
      | start f args =>
          refine ⟨fun s' hs' => ?_, by simp⟩
          cases hs'
          exact ⟨0, mainThread, [],
            startExecutor_onChain System.stuck_waiting h hstep hguard f args⟩
      | step i =>
          simp only
          cases he : s.executors[i]? with
          | none => exact ⟨hkeep, by simp⟩
          | some e =>
              obtain ⟨k', hk'⟩ := enterStep_onChain h hstep he fun t ts hmode hstack =>
                hguard e t ts he hmode hstack
              refine ⟨fun s' hs' => ?_, ?_⟩
              · cases hs'
                exact ⟨k', top, below, hk'⟩
              · show (enterStep s i e).2 ≠ Reply.unreachable
                unfold enterStep
                split
                · simp
                · simp
      | iterate c => exact ⟨hkeep, by simp⟩
      | resume i args =>
          simp only
          cases he : s.executors[i]? with
          | none => exact ⟨hkeep, by simp⟩
          | some e =>
              obtain ⟨hchain, hreply⟩ :=
                resumeExecutor_onChain System.stuck_waiting h hstep he (hguard e he) args
              exact ⟨fun s' hs' => ⟨k, top, below, hchain s' hs'⟩, hreply⟩
      | takeResult i =>
          simp only
          cases he : s.executors[i]? with
          | none => exact ⟨hkeep, by simp⟩
          | some e =>
              refine ⟨fun s' hs' => ?_, ?_⟩
              · cases hs'
                exact ⟨k, top, below,
                  takeResult_onChain System.stuck_waiting h hstep he (hguard e he)⟩
              · show (takeResult s i e).2 ≠ Reply.unreachable
                unfold takeResult
                split
                · simp
                · simp
  | some i =>
      rw [hstep] at hguard
      cases ev with
      | iterate c =>
          obtain ⟨hik, -, e, he, -⟩ := h.driving i hstep
          subst hik
          simp only [he]
          obtain ⟨hchain, hreply⟩ := iterateStep_onChain h hstep he
            (hguard e top below he (h.owner e he))
          exact ⟨fun s' hs' => ⟨i, hchain s' hs'⟩, hreply⟩
      | _ => exact ⟨hkeep, by simp⟩

/-- **The executors** of a run whose events are all admitted are consistent in every state, and
reach no `unreachable!` and no failing `expect`. -/
theorem executors_consistent (events : List HostEvent)
    (h : executorMachine.Admits RunGuard (some System.init) events) :
    (∀ s, (executorMachine.run (some System.init) events).1 = some s → s.Consistent) ∧
      Reply.unreachable ∉ (executorMachine.run (some System.init) events).2 := by
  obtain ⟨hstate, hreplies⟩ := Machine.run_of_admits
    (P := fun s => ∀ s', s = some s' → ∃ k top below, s'.OnChain Waiting k top below)
    (Q := fun r => r ≠ Reply.unreachable)
    (fun s ev hs hguard => by
      cases s with
      | none =>
          exact ⟨fun s' hs' => absurd hs' (by simp [executorMachine]),
            by simp [executorMachine]⟩
      | some s =>
          obtain ⟨k, top, below, hchain⟩ := hs s rfl
          exact stepSystem_onChain hchain (hguard s rfl))
    (fun s' hs' => ⟨0, mainThread, [], by
      cases hs'
      exact System.init_onChain Waiting⟩) h
  refine ⟨fun s hs => ?_, fun hmem => hreplies _ hmem rfl⟩
  obtain ⟨k, top, below, hchain⟩ := hstate s hs
  exact hchain.consistent

/-- A native callback is started, returns at once, and the host takes its result. -/
def returningRun : List HostEvent :=
  [HostEvent.start 0 [], HostEvent.step 0,
    HostEvent.iterate (Choice.ofNative (NativeOutcome.ok CallbackAction.ret [])),
    HostEvent.iterate (Choice.ofNative (NativeOutcome.ok CallbackAction.ret [])),
    HostEvent.takeResult 0]

/-- A native callback is started and fails, and the host steps once more. -/
def failingRun : List HostEvent :=
  [HostEvent.start 0 [], HostEvent.step 0,
    HostEvent.iterate (Choice.ofNative (NativeOutcome.error Value.nil [])),
    HostEvent.iterate (Choice.ofNative (NativeOutcome.error Value.nil [])), HostEvent.step 0,
    HostEvent.iterate (Choice.ofNative (NativeOutcome.error Value.nil []))]

/-- A native callback creates a coroutine, and requests to resume it. -/
def Choice.spawning (co : ThreadId) : Choice :=
  { instr := Instr.raise
    callee :=
      { target := CallTarget.native fun _ =>
          NativeOutcome.ok (CallbackAction.resume co (some Sequence.pcall)) []
        effects := [ThreadEffect.create 1] }
    poll := PollOutcome.error Value.nil [] }

/-- The main thread resumes a coroutine, whose body yields a value.  The main thread ends with it,
and the host takes the result. -/
def coroutineRun : List HostEvent :=
  let body := Choice.ofNative (NativeOutcome.ok (CallbackAction.yield none) [Value.integer 7])
  [HostEvent.start 0 [], HostEvent.step 0, HostEvent.iterate (Choice.spawning 1),
    HostEvent.iterate (Choice.spawning 1), HostEvent.iterate body, HostEvent.iterate body,
    HostEvent.iterate body, HostEvent.iterate body, HostEvent.iterate body, HostEvent.takeResult 0]

/-- An iteration in a state that is known. -/
theorem runGuard_iterate {s : System} {c : Choice} {i : ℕ} {e : Executor} {top : ThreadId}
    {below : List ThreadId} (hstep : s.stepping = some i) (he : s.executors[i]? = some e)
    (hstack : e.threadStack = top :: below) (hguard : IterationGuard (s.driver e) top below c) :
    RunGuard (some s) (HostEvent.iterate c) := by
  intro s' hs'
  cases hs'
  unfold HostGuard
  rw [hstep]
  intro e' top' below' he' hstack'
  obtain rfl := Option.some.inj (he.symm.trans he')
  obtain ⟨rfl, rfl⟩ := List.cons.inj (hstack.symm.trans hstack')
  exact hguard

theorem executors_consistent_coroutine :
    (∀ s, (executorMachine.run (some System.init) coroutineRun).1 = some s → s.Consistent) ∧
      Reply.unreachable ∉ (executorMachine.run (some System.init) coroutineRun).2 := by
  refine executors_consistent coroutineRun ⟨?_, ?_, ?_, ?_, ?_, ?_, ?_, ?_, ?_, ?_, trivial⟩
  · intro s hs
    cases hs
    exact fun e he => absurd he List.not_mem_nil
  · intro s hs
    cases hs
    intro e top below he _ hstack
    cases he
    cases hstack
    rintro ⟨wt, rest, hframes⟩
    cases hframes
  · exact runGuard_iterate rfl rfl rfl fun hstatus => absurd hstatus (by decide)
  · refine runGuard_iterate rfl rfl rfl fun _ => ?_
    rintro ⟨-, hnil⟩
    cases hnil
  · exact runGuard_iterate rfl rfl rfl fun _ => trivial
  · exact runGuard_iterate rfl rfl rfl fun _ => trivial
  · exact runGuard_iterate rfl rfl rfl fun hstatus => absurd hstatus (by decide)
  · exact runGuard_iterate rfl rfl rfl fun _ => trivial
  · exact runGuard_iterate rfl rfl rfl fun hstatus => absurd hstatus (by decide)
  · intro s hs
    cases hs
    intro e he _ e' he'
    exact List.mem_singleton.1 he' ▸ rfl

theorem not_executors_consistent :
    ¬ ∀ events : List HostEvent,
      (∀ s, (executorMachine.run (some System.init) events).1 = some s → s.Consistent) ∧
        Reply.unreachable ∉ (executorMachine.run (some System.init) events).2 := by
  intro h
  exact (h failingRun).2 (by decide)

end Tcvm
