/-
# What a new run sees of an earlier one

`Executor::start` reuses the main thread.  Two hosts that have done different things start the same
function over equal heaps: their runs are the same, unless the main thread has kept something that
starting does not clear.

## Main definitions

* `RunEvent`, `newestMachine` — the run of the executor that was started last;
* `SameHeap` — two systems with equal shared heaps;
* `System.Clean` — the main thread has kept neither a pending action, a yield site nor a captured
  variable;
* `System.Alike` — two systems that differ in `top`, and in older executors;
* `TopGuard` — an event reads `top` only where both runs have the same.

## Main results

* `startExecutor_alike`, `stepSystem_alike` — starting, and every event;
* **`start_independent`** — the two runs give the same replies;
* `not_start_independent` — a yield site that was left behind ends the new run at once.
-/

import Tcvm.ExecutorRuns
import Tcvm.StackTop

namespace Tcvm

/-! ### The new run -/

/-- What happens in the run of the executor that was started last. -/
inductive RunEvent
  | step
  | iterate (c : Choice)
  | resume (args : List Value)
  | takeResult

def RunEvent.host : RunEvent → HostEvent
  | step => HostEvent.step 0
  | iterate c => HostEvent.iterate c
  | resume args => HostEvent.resume 0 args
  | takeResult => HostEvent.takeResult 0

/-- The machine of the host, whose events are those of the newest executor. -/
def newestMachine : Machine (Option System) RunEvent Reply where
  step s ev := executorMachine.step s ev.host

/-- The value of a captured variable. -/
def System.value (s : System) (uv : UpvalueId) : Option Value :=
  readUpvalue (s.driver { threadStack := [], mode := ExecutorMode.stopped }) uv

/-- Two systems whose main threads may differ, with the same coroutines and captured variables. -/
structure SameHeap (s s' : System) : Prop where
  threads : ∀ t, t ≠ mainThread → s'.threads t = s.threads t
  handle : (s'.threads mainThread).threadHandle = (s.threads mainThread).threadHandle
  value : ∀ uv, s'.value uv = s.value uv
  elsewhere : ∀ uv t index, t ≠ mainThread →
    (s'.cells uv = UpvalueState.openAt t index ↔ s.cells uv = UpvalueState.openAt t index)
  freshThread : s'.freshThread = s.freshThread
  freshUpvalue : s'.freshUpvalue = s.freshUpvalue

/-- The main thread has kept nothing that starting does not clear, but `top`. -/
structure System.Clean (s : System) : Prop where
  pending : (s.threads mainThread).pendingAction = none
  site : (s.threads mainThread).yieldBottom = none
  captured : ∀ uv index, s.cells uv ≠ UpvalueState.openAt mainThread index

/-- Two systems that differ in `top`, and in the executors that were started before. -/
structure System.Alike (s s' : System) : Prop where
  threads : ∀ t, SameButTop (s.threads t) (s'.threads t)
  cells : s'.cells = s.cells
  freshThread : s'.freshThread = s.freshThread
  freshUpvalue : s'.freshUpvalue = s.freshUpvalue
  executor : s'.executors[0]? = s.executors[0]?
  stepping : s'.stepping = s.stepping
  newest : ∀ i, s.stepping = some i → i = 0

/-- Two machines that may have halted. -/
def HaltedAlike : Option System → Option System → Prop
  | some s, some s' => s.Alike s'
  | none, none => True
  | _, _ => False

/-- An event reads `top` only where both runs have the same there. -/
def TopGuard (s s' : Option System) (ev : RunEvent) : Prop :=
  ∀ x x' e c, s = some x → s' = some x' → x.executors[0]? = some e → ev = RunEvent.iterate c →
    TopAgrees (x.driver e) (x'.driver e) c

/-! ### Starting -/

/-- Without captured variables of the main thread, equal heaps have equal cells. -/
theorem SameHeap.cells_eq {s s' : System} (h : SameHeap s s') (hs : s.Clean) (hs' : s'.Clean) :
    s'.cells = s.cells := by
  funext uv
  have hvalue := h.value uv
  cases huv : s.cells uv with
  | openAt t index =>
      have ht : t ≠ mainThread := by
        rintro rfl
        exact hs.captured uv index huv
      exact (h.elsewhere uv t index ht).2 huv
  | closed v =>
      cases huv' : s'.cells uv with
      | openAt t index =>
          have ht : t ≠ mainThread := by
            rintro rfl
            exact hs'.captured uv index huv'
          exact absurd (huv.symm.trans ((h.elsewhere uv t index ht).1 huv')) (by simp)
      | closed v' =>
          have hread : ∀ (x : System) (w : Value), x.cells uv = UpvalueState.closed w →
              x.value uv = some w := by
            intro x w hw
            have hcell : (x.driver { threadStack := [], mode := ExecutorMode.stopped }).cells uv =
              UpvalueState.closed w := hw
            simp only [System.value, readUpvalue, hcell]
          rw [hread s' v' huv', hread s v huv] at hvalue
          rw [Option.some.inj hvalue]

/-- **Starting** a function over equal heaps. -/
theorem startExecutor_alike {s s' : System} (h : SameHeap s s') (hs : s.Clean) (hs' : s'.Clean)
    (hidle : s.stepping = none) (hidle' : s'.stepping = none) (f : FunctionId)
    (args : List Value) : (startExecutor s f args).Alike (startExecutor s' f args) := by
  refine
    { threads := fun t => ?_
      cells := h.cells_eq hs hs'
      freshThread := h.freshThread
      freshUpvalue := h.freshUpvalue
      executor := rfl
      stepping := hidle'.trans hidle.symm
      newest := fun i hi => absurd (hidle.symm.trans hi) (by simp) }
  by_cases ht : t = mainThread
  · subst ht
    refine ⟨(s'.threads mainThread).top, ?_⟩
    simp only [startExecutor, System.setThread, Function.update_self, ThreadState.seeded,
      ThreadState.withTop, hs.pending, hs'.pending, hs.site, hs'.site, h.handle]
  · have hsame : (startExecutor s' f args).threads t = (startExecutor s f args).threads t := by
      simp only [startExecutor, System.setThread, Function.update_of_ne ht]
      exact h.threads t ht
    rw [hsame]
    exact SameButTop.refl _

/-! ### Events -/

section Events

variable {s s' : System}

theorem System.Alike.driver (h : s.Alike s') (e : Executor) : (s.driver e).Alike (s'.driver e) :=
  ⟨h.threads, h.cells, h.freshThread, h.freshUpvalue, rfl, rfl⟩

theorem System.Alike.setThread (h : s.Alike s') (t : ThreadId) {ts ts' : ThreadState}
    (hts : SameButTop ts ts') : (s.setThread t ts).Alike (s'.setThread t ts') := by
  refine { h with threads := fun t' => ?_ }
  by_cases heq : t' = t
  · subst heq
    simp only [System.setThread, Function.update_self]
    exact hts
  · simp only [System.setThread, Function.update_of_ne heq]
    exact h.threads t'

/-- The newest executor of both systems is replaced by the same one. -/
theorem set_zero_alike {α : Type} {l l' : List α} (h : l'[0]? = l[0]?) (a : α) :
    (l'.set 0 a)[0]? = (l.set 0 a)[0]? := by
  cases l with
  | nil =>
      cases l' with
      | nil => rfl
      | cons b l' => exact absurd h (by simp)
  | cons b l =>
      cases l' with
      | nil => exact absurd h (by simp)
      | cons b' l' => rfl

theorem System.Alike.setMode (h : s.Alike s') (e : Executor) (mode : ExecutorMode) :
    (s.setMode 0 e mode).Alike (s'.setMode 0 e mode) :=
  { h with executor := set_zero_alike h.executor _ }

theorem System.Alike.update (h : s.Alike s') {d d' : Driver} (hd : d.Alike d') :
    (s.update 0 d).Alike (s'.update 0 d') := by
  refine
    { threads := hd.threads
      cells := hd.cells
      freshThread := hd.freshThread
      freshUpvalue := hd.freshUpvalue
      executor := ?_
      stepping := h.stepping
      newest := h.newest }
  simp only [System.update, hd.threadStack, hd.mode]
  exact set_zero_alike h.executor _

theorem System.Alike.withStepping (h : s.Alike s') {stepping : Option ℕ}
    (hnewest : ∀ i, stepping = some i → i = 0) :
    System.Alike { s with stepping := stepping } { s' with stepping := stepping } :=
  { h with stepping := rfl, newest := hnewest }

/-- **An iteration** of the newest executor. -/
theorem iterateStep_alike (h : s.Alike s') (e : Executor) (c : Choice)
    (htop : TopAgrees (s.driver e) (s'.driver e) c) :
    HaltedAlike (iterateStep s 0 e c).1 (iterateStep s' 0 e c).1 ∧
      (iterateStep s 0 e c).2 = (iterateStep s' 0 e c).2 := by
  have hiter := iterate_alike (h.driver e) c htop
  unfold iterateStep
  generalize iterate (s.driver e) c = out, iterate (s'.driver e) c = out' at hiter ⊢
  have hstop : ∀ i, (none : Option ℕ) = some i → i = 0 := fun i hi => absurd hi (by simp)
  cases out with
  | next d =>
      cases out' with
      | next d' => exact ⟨h.update hiter, rfl⟩
      | _ => exact absurd hiter id
  | finish r d =>
      cases out' with
      | finish r' d' =>
          obtain ⟨rfl, hd⟩ := hiter
          exact ⟨(h.update hd).withStepping hstop, rfl⟩
      | _ => exact absurd hiter id
  | error err d =>
      cases out' with
      | error err' d' =>
          obtain ⟨rfl, hd⟩ := hiter
          exact ⟨(h.update hd).withStepping hstop, rfl⟩
      | _ => exact absurd hiter id
  | unreachable =>
      cases out' with
      | unreachable => exact ⟨trivial, rfl⟩
      | _ => exact absurd hiter id
  | panic =>
      cases out' with
      | panic => exact ⟨trivial, rfl⟩
      | _ => exact absurd hiter id

theorem resumeExecutor_alike (h : s.Alike s') (e : Executor) (args : List Value) :
    HaltedAlike (resumeExecutor s 0 e args).1 (resumeExecutor s' 0 e args).1 ∧
      (resumeExecutor s 0 e args).2 = (resumeExecutor s' 0 e args).2 := by
  unfold resumeExecutor
  split
  · cases e.threadStack with
    | nil => exact ⟨trivial, rfl⟩
    | cons top below =>
        obtain ⟨n, hn⟩ := h.threads top
        have hyield : ((s.threads top).withTop n).yieldBottom = (s.threads top).yieldBottom := rfl
        simp only [hn, hyield]
        cases (s.threads top).yieldBottom with
        | none => exact ⟨trivial, rfl⟩
        | some cs =>
            have hland : SameResult
                (landResumed { s.threads top with
                  stack := (s.threads top).stack.take cs.bottom ++ args, yieldBottom := none } cs)
                (landResumed { (s.threads top).withTop n with
                  stack := ((s.threads top).withTop n).stack.take cs.bottom ++ args
                  yieldBottom := none } cs) := landResumed_alike ⟨n, rfl⟩ cs
            simp only
            generalize landResumed { s.threads top with
                stack := (s.threads top).stack.take cs.bottom ++ args, yieldBottom := none } cs = r,
              landResumed { (s.threads top).withTop n with
                stack := ((s.threads top).withTop n).stack.take cs.bottom ++ args
                yieldBottom := none } cs = r' at hland ⊢
            cases hland with
            | none => exact ⟨trivial, rfl⟩
            | some hts => exact ⟨(h.setThread top hts).setMode e _, rfl⟩
  · exact ⟨h, rfl⟩

theorem takeResult_alike (h : s.Alike s') (e : Executor) :
    (takeResult s 0 e).1.Alike (takeResult s' 0 e).1 ∧
      (takeResult s 0 e).2 = (takeResult s' 0 e).2 := by
  obtain ⟨n, hn⟩ := h.threads mainThread
  unfold takeResult
  split
  · rw [hn]
    exact ⟨(h.setThread mainThread ⟨n, rfl⟩).setMode e _, rfl⟩
  · exact ⟨h, rfl⟩

/-- **Every event** of the newest executor has the same reply in systems that are alike. -/
theorem stepSystem_alike (h : s.Alike s') {ev : RunEvent}
    (htop : TopGuard (some s) (some s') ev) :
    HaltedAlike (stepSystem s ev.host).1 (stepSystem s' ev.host).1 ∧
      (stepSystem s ev.host).2 = (stepSystem s' ev.host).2 := by
  unfold stepSystem
  rw [h.stepping]
  cases hstep : s.stepping with
  | none =>
      cases ev with
      | step =>
          simp only [RunEvent.host, h.executor]
          cases s.executors[0]? with
          | none => exact ⟨h, rfl⟩
          | some e =>
              simp only [enterStep]
              split
              · refine ⟨h.withStepping fun i hi => (Option.some.inj hi).symm, rfl⟩
              · exact ⟨h, rfl⟩
      | iterate c => exact ⟨h, rfl⟩
      | resume args =>
          simp only [RunEvent.host, h.executor]
          cases s.executors[0]? with
          | none => exact ⟨h, rfl⟩
          | some e => exact resumeExecutor_alike h e args
      | takeResult =>
          simp only [RunEvent.host, h.executor]
          cases s.executors[0]? with
          | none => exact ⟨h, rfl⟩
          | some e => exact takeResult_alike h e
  | some i =>
      have hi := h.newest i hstep
      subst hi
      cases ev with
      | step => exact ⟨h, rfl⟩
      | iterate c =>
          simp only [RunEvent.host, h.executor]
          cases he : s.executors[0]? with
          | none => exact ⟨h, rfl⟩
          | some e => exact iterateStep_alike h e c (htop s s' e c rfl rfl he rfl)
      | resume args => exact ⟨h, rfl⟩
      | takeResult => exact ⟨h, rfl⟩

end Events

/-! ### Runs -/

/-- **Starting is independent of history**: over equal heaps, with main threads that have kept no
pending action, no yield site and no captured variable, the new runs give the same replies, and
the program sees the same in both, as long as they read no `top` that an earlier run has left. -/
theorem start_independent {s s' : System} (hidle : s.stepping = none)
    (hidle' : s'.stepping = none) (hheap : SameHeap s s') (hs : s.Clean) (hs' : s'.Clean)
    (f : FunctionId) (args : List Value) (events : List RunEvent)
    (htop : newestMachine.AdmitsBoth TopGuard (some (startExecutor s f args))
      (some (startExecutor s' f args)) events) :
    (newestMachine.run (some (startExecutor s f args)) events).2 =
        (newestMachine.run (some (startExecutor s' f args)) events).2 ∧
      HaltedAlike (newestMachine.run (some (startExecutor s f args)) events).1
        (newestMachine.run (some (startExecutor s' f args)) events).1 := by
  have hstart : HaltedAlike (some (startExecutor s f args)) (some (startExecutor s' f args)) :=
    startExecutor_alike hheap hs hs' hidle hidle' f args
  have hstep : ∀ (x x' : Option System) (ev : RunEvent), HaltedAlike x x' → TopGuard x x' ev →
      HaltedAlike (newestMachine.step x ev).1 (newestMachine.step x' ev).1 ∧
        (newestMachine.step x ev).2 = (newestMachine.step x' ev).2 := by
    intro x x' ev hx hguard
    cases x with
    | none =>
        cases x' with
        | none => exact ⟨trivial, rfl⟩
        | some x' => exact absurd hx id
    | some x =>
        cases x' with
        | none => exact absurd hx id
        | some x' => exact stepSystem_alike hx hguard
  exact (Machine.run_of_admitsBoth hstep hstart htop).symm

/-- A native callback is started and yields to the host. -/
def yieldingRun : List HostEvent :=
  [HostEvent.start 0 [], HostEvent.step 0,
    HostEvent.iterate (Choice.ofNative (NativeOutcome.ok (CallbackAction.yield none) [])),
    HostEvent.iterate (Choice.ofNative (NativeOutcome.ok (CallbackAction.yield none) [])),
    HostEvent.iterate (Choice.ofNative (NativeOutcome.ok (CallbackAction.yield none) []))]

/-- A native callback returns at once, and the host takes its result. -/
def nativeRun : List RunEvent :=
  [RunEvent.step, RunEvent.iterate (Choice.ofNative (NativeOutcome.ok CallbackAction.ret [])),
    RunEvent.iterate (Choice.ofNative (NativeOutcome.ok CallbackAction.ret [])),
    RunEvent.takeResult]

/-- A first run, and a run after one that has returned. -/
theorem start_independent_returning :
    ∃ s, (executorMachine.run (some System.init) returningRun).1 = some s ∧
      (newestMachine.run (some (startExecutor System.init 0 [])) nativeRun).2 =
        (newestMachine.run (some (startExecutor s 0 [])) nativeRun).2 := by
  have hiterate : ∀ (x x' : Option System) (out : NativeOutcome),
      TopGuard x x' (RunEvent.iterate (Choice.ofNative out)) := by
    intro x x' out y y' e c hx hx' he hev
    cases hev
    exact fun _ _ _ _ _ _ hvariable => absurd hvariable id
  have hother : ∀ (x x' : Option System) (ev : RunEvent),
      (∀ c, ev ≠ RunEvent.iterate c) → TopGuard x x' ev :=
    fun x x' ev hne y y' e c hx hx' he hev => absurd hev (hne c)
  refine ⟨_, rfl, ?_⟩
  refine (start_independent rfl rfl ?_ ⟨rfl, rfl, ?_⟩ ⟨rfl, rfl, ?_⟩ 0 [] nativeRun ?_).1
  · refine ⟨fun t ht => ?_, rfl, fun _ => rfl, fun _ _ _ _ => Iff.rfl, rfl, rfl⟩
    cases t with
    | zero => exact absurd rfl ht
    | succ t => rfl
  · exact fun uv index h => UpvalueState.noConfusion h
  · exact fun uv index h => UpvalueState.noConfusion h
  · refine ⟨hother _ _ _ ?_, hiterate _ _ _, hiterate _ _ _, hother _ _ _ ?_, trivial⟩
    · simp
    · simp

/-- The native callback of the second run is not called: the host gets the values that were
yielded before. -/
theorem not_start_independent :
    ¬ ∀ (earlier earlier' : List HostEvent) (s s' : System),
      (executorMachine.run (some System.init) earlier).1 = some s →
      (executorMachine.run (some System.init) earlier').1 = some s' →
      s.stepping = none → s'.stepping = none → SameHeap s s' →
      ∀ (f : FunctionId) (args : List Value) (events : List RunEvent),
        (newestMachine.run (some (startExecutor s f args)) events).2 =
          (newestMachine.run (some (startExecutor s' f args)) events).2 := by
  intro h
  have hreplies := h [] yieldingRun _ _ rfl rfl rfl rfl ?_ 0 [] nativeRun
  · exact absurd hreplies (by decide)
  · refine ⟨fun t ht => ?_, rfl, fun _ => rfl, fun _ _ _ _ => Iff.rfl, rfl, rfl⟩
    cases t with
    | zero => exact absurd rfl ht
    | succ t => rfl

end Tcvm
