/-
# Runs and captured variables

Over a run of the host and its executors, every captured variable that is open is listed by its
thread, alone on its slot, and in bounds; what a step takes off a stack has been closed with the
value it had.  This holds as long as no step takes off a slot that is captured without closing it:
`start`, `take_result` and `coroutine.close` clear the list of a thread without closing what is in
it, and a native callback cuts the stack at its arguments.

## Main definitions

* `Discards`, `System.Discards` — what a step takes off a stack;
* `System.Listed`, `System.Shares` — the invariant, and what it is for;
* `ClosesInto` — a step closes upvalues with the values of their slots;
* `UpvalueRunGuard` — the events that drop no captured slot.

## Main results

* `iterate_discards` — an iteration closes what it takes off;
* `run_linked` — the invariant along a run;
* **`open_upvalues`** — in every state, and after every step;
* `not_open_upvalues` — a run that is abandoned leaves an upvalue open.
-/

import Tcvm.OpenUpvalues
import Tcvm.ExecutorMachine

namespace Tcvm

open StackWindow

/-! ### What an iteration takes off -/

/-- The driven thread goes on: its values are handed to nobody. -/
def Drives (d : Driver) (top : ThreadId) (below : List ThreadId) : Prop :=
  d.threadStack = top :: below ∧
    ((d.threads top).status = ThreadStatus.normal ∨
      below = [] ∧ (d.threads top).status = ThreadStatus.suspended ∧
        (d.threads top).yieldBottom = none)

/-- The function that the top frame calls. -/
def calledByFrame (d : Driver) (top : ThreadId) (c : Choice) : Option Callee :=
  match (d.threads top).frames with
  | Frame.lua _ :: _ =>
      match c.instr with
      | Instr.call _ _ _ _ callee => some callee
      | Instr.tailcall _ _ callee => some callee
      | Instr.metamethod _ _ _ _ callee _ => some callee
      | _ => none
  | Frame.sequence seq cs e :: _ =>
      match pollSequence seq e ((d.threads top).stack.drop cs.bottom) c.poll with
      | PollOutcome.ok (SequencePoll.call _ _) _ _ => some c.callee
      | PollOutcome.ok (SequencePoll.tailCall _) _ _ => some c.callee
      | _ => none
  | Frame.start _ :: _ => some c.callee
  | _ => none

/-- The function that an iteration calls. -/
def calledBy (d : Driver) (top : ThreadId) (c : Choice) : Option Callee :=
  match (d.threads top).pendingAction with
  | some p =>
      match p.action with
      | CallbackAction.call _ _ => some c.callee
      | _ => none
  | none => calledByFrame d top c

/-- An iteration takes the slots of a thread from some slot on off its stack. -/
inductive Discards (d : Driver) (c : Choice) : ThreadId → ℕ → Prop
  | ret {top : ThreadId} {below : List ThreadId} {lf : LuaFrame} {rest : List Frame}
      {values count : ℕ} (hdrives : Drives d top below)
      (hpending : (d.threads top).pendingAction = none)
      (hframes : (d.threads top).frames = Frame.lua lf :: rest)
      (hinstr : c.instr = Instr.ret values count) : Discards d c top lf.base
  | tailcall {top : ThreadId} {below : List ThreadId} {lf : LuaFrame} {rest : List Frame}
      {func nargs : ℕ} {callee : Callee} (hdrives : Drives d top below)
      (hpending : (d.threads top).pendingAction = none)
      (hframes : (d.threads top).frames = Frame.lua lf :: rest)
      (hinstr : c.instr = Instr.tailcall func nargs callee) :
      Discards d c top (tailcallBase lf callee.target)
  | unwind {top : ThreadId} {below : List ThreadId} {err : Value} {rest : List Frame} {k : ℕ}
      (hdrives : Drives d top below) (hpending : (d.threads top).pendingAction = none)
      (hframes : (d.threads top).frames = Frame.error err :: rest) (hk : k ∈ unwoundBases rest) :
      Discards d c top k
  /-- `coroutine.close`. -/
  | close {top : ThreadId} {below : List ThreadId} {callee : Callee} {f : NativeFn} {co : ThreadId}
      (hdrives : Drives d top below) (hcalled : calledBy d top c = some callee)
      (htarget : callee.target = CallTarget.native f)
      (hclose : ThreadEffect.close co ∈ callee.effects)
      (hne : co ≠ top) (hstatus : (d.threads co).status ≠ ThreadStatus.normal) : Discards d c co 0

section Iterations

variable {d : Driver} {top : ThreadId} {below : List ThreadId} {c : Choice}

theorem Drives.iterate (h : Drives d top below) (c : Choice) :
    iterate d c = drive d top below c := by
  obtain ⟨hstack, hstatus⟩ := h
  unfold Tcvm.iterate
  rw [hstack]
  rcases hstatus with hnormal | ⟨rfl, hsuspended, hyield⟩
  · cases below with
    | nil => simp only [hnormal]
    | cons resumer below' => simp only [hnormal]
  · simp only [hsuspended, hyield]

theorem Drives.guard (h : Drives d top below) (hguard : UpvalueGuard d c) :
    DriveUpvalueGuard d top c := by
  obtain ⟨hstack, hstatus⟩ := h
  unfold UpvalueGuard at hguard
  rw [hstack] at hguard
  rcases hstatus with hnormal | ⟨rfl, hsuspended, hyield⟩
  · simp only [hnormal] at hguard
    exact hguard
  · simp only [hsuspended, if_true] at hguard
    exact hguard hyield

/-- A callback that is called closes no coroutine with an open upvalue. -/
theorem DriveUpvalueGuard.effects (h : DriveUpvalueGuard d top c) {callee : Callee}
    (hcalled : calledBy d top c = some callee) : EffectsGuard d top callee := by
  unfold DriveUpvalueGuard at h
  unfold calledBy at hcalled
  cases hpending : (d.threads top).pendingAction with
  | some p =>
      rw [hpending] at h hcalled
      simp only [ActionUpvalueGuard] at h hcalled
      split at hcalled
      · next f andThen haction =>
          rw [haction] at h
          cases hcalled
          exact h.2
      · exact absurd hcalled (by simp)
  | none =>
      rw [hpending] at h hcalled
      simp only [FrameUpvalueGuard, calledByFrame] at h hcalled
      split at hcalled
      · next lf rest hframes =>
          rw [hframes] at h
          simp only at h
          split at hcalled
          · next hinstr =>
              cases hcalled
              rw [hinstr] at h
              exact h.1
          · next hinstr =>
              cases hcalled
              rw [hinstr] at h
              exact h.1
          · next hinstr =>
              cases hcalled
              rw [hinstr] at h
              exact h.1
          · exact absurd hcalled (by simp)
      · next seq cs e rest hframes =>
          rw [hframes] at h
          simp only at h
          split at hcalled
          · next hpoll =>
              cases hcalled
              rw [hpoll] at h
              exact h.2
          · next hpoll =>
              cases hcalled
              rw [hpoll] at h
              exact h.2.2
          · exact absurd hcalled (by simp)
      · next f rest hframes =>
          rw [hframes] at h
          cases hcalled
          exact h.2
      · exact absurd hcalled (by simp)

/-- A thread that an operation moves has nothing open at the slots it has closed. -/
theorem Driver.Linked.openBelow_closed (h : d.Linked) {t : ThreadId} {ts : ThreadState}
    {cells : Cells} (hmoves : Moves (d.threads t) d.cells ts cells) {k : ℕ}
    (hclosed : OpenIn (d.threads t).openUpvalues cells k) : OpenBelow cells t k := by
  intro uv i hi
  exact hclosed uv (h.listed uv t i (hmoves.open_before hi)) t i hi

/-- A handler that closes slots leaves them closed. -/
theorem afterHandler_closes (h : d.Linked) {d' : Driver} {r : VmResult} {k : ℕ}
    (hmoves : VmMoves (d.threads top) d.cells r)
    (hcloses : VmCloses (d.threads top).openUpvalues k r) :
    (d'.afterHandler top r).All fun d'' => OpenBelow d''.cells top k := by
  unfold Driver.afterHandler
  rcases r with _ | ⟨flow, ts, cells⟩
  · trivial
  · have hopen := h.openBelow_closed (hmoves flow ts cells rfl) (hcloses flow ts cells rfl)
    cases flow with
    | dispatch pc => exact hopen
    | exit => exact hopen
    | raise => exact hopen

theorem unwindError_closes (h : d.Linked) {err : Value} {frames : List Frame} {k : ℕ}
    (hk : k ∈ unwoundBases frames) :
    (unwindError d top below err frames).All fun d' => OpenBelow d'.cells top k := by
  have hmoves := unwindFrames_moves err frames (d.threads top) d.cells
  have hcloses := unwindFrames_closes err frames (d.threads top) d.cells hk
  unfold unwindError
  cases hunwind : unwindFrames err frames (d.threads top) d.cells with
  | caught ts cells =>
      rw [hunwind] at hmoves hcloses
      exact h.openBelow_closed hmoves hcloses
  | unreachable => trivial
  | panic => trivial
  | uncaught ts cells =>
      rw [hunwind] at hmoves hcloses
      have hopen := h.openBelow_closed hmoves hcloses
      cases below with
      | nil => exact hopen
      | cons resumer below' =>
          simp only
          split
          · exact hopen
          · trivial

/-- **An iteration closes** what it takes off a stack. -/
theorem iterate_discards (h : d.Linked) (hcreated : d.Created) (hguard : UpvalueGuard d c)
    {t : ThreadId} {k : ℕ} (hdiscards : Discards d c t k) :
    (iterate d c).All fun d' => OpenBelow d'.cells t k := by
  cases hdiscards with
  | @ret _ below lf rest values count hdrives hpending hframes hinstr =>
      have hlua := ThreadState.topLua_cons hframes
      have hdrive := hdrives.guard hguard
      simp only [DriveUpvalueGuard, hpending, FrameUpvalueGuard, hframes, hinstr] at hdrive
      rw [hdrives.iterate]
      simp only [drive, hpending, pumpFrame, hframes, hinstr, execInstr]
      refine afterHandler_closes h (opReturn_moves _ _ _ fun f hf => ?_)
        (opReturn_closes _ _ _ hlua)
      obtain rfl := Option.some.inj (hlua.symm.trans hf)
      exact hdrive
  | @tailcall _ below lf rest func nargs callee hdrives hpending hframes hinstr =>
      have hlua := ThreadState.topLua_cons hframes
      have hdrive := hdrives.guard hguard
      simp only [DriveUpvalueGuard, hpending, FrameUpvalueGuard, hframes, hinstr] at hdrive
      rw [hdrives.iterate]
      simp only [drive, hpending, pumpFrame, hframes, hinstr, execInstr]
      refine afterHandler_closes h (opTailcall_moves _ _ _ _ (h.openIn_length t)
        fun f g hf hg => ?_) (opTailcall_closes _ _ _ _ hlua)
      obtain rfl := Option.some.inj (hlua.symm.trans hf)
      exact ⟨h.openIn (hdrive.2 g hg).1, (hdrive.2 g hg).2⟩
  | @unwind _ below err rest _ hdrives hpending hframes hk =>
      rw [hdrives.iterate]
      simp only [drive, hpending, pumpFrame, hframes]
      exact unwindError_closes h hk
  | @close top below callee f _ hdrives hcalled htarget hclose hne hstatus =>
      have heffects := (hdrives.guard hguard).effects hcalled
      unfold EffectsGuard at heffects
      rw [htarget] at heffects
      have hopen := heffects t hclose hne hstatus
      refine (iterate_advances h hcreated hguard).mono fun d' hd' uv i hi => ?_
      rcases hd'.follows.opened uv t i hi with hwas | hhead
      · exact hopen uv i hwas
      · rw [hdrives.1] at hhead
        exact absurd (Option.some.inj hhead).symm hne

end Iterations

/-! ### Systems -/

namespace System

/-- The threads of a system, without an executor. -/
def resting (s : System) : Driver := s.driver { threadStack := [], mode := ExecutorMode.stopped }

/-- The invariant: over all threads, and the executors know created threads only. -/
structure Linked (s : System) : Prop where
  linked : s.resting.Linked
  created : ∀ e ∈ s.executors, ∀ t ∈ e.threadStack, t < s.freshThread
  main : mainThread < s.freshThread

/-- Every open upvalue is in the list of its thread, alone on its slot, and in bounds. -/
def Listed (s : System) : Prop :=
  ∀ uv t i, s.cells uv = UpvalueState.openAt t i →
    uv ∈ (s.threads t).openUpvalues ∧ i < (s.threads t).stack.length ∧
      ∀ uv', s.cells uv' = UpvalueState.openAt t i → uv' = uv

/-- What is written to an upvalue is read from it, and no other upvalue changes. -/
def Shares (s : System) : Prop :=
  ∀ e uv v, ∃ d, writeUpvalue (s.driver e) uv v = some d ∧ readUpvalue d uv = some v ∧
    ∀ uv', uv' ≠ uv → readUpvalue d uv' = readUpvalue (s.driver e) uv'

/-- An upvalue that is open stays open at its slot, or is closed with the value of the slot. -/
def ClosesInto (s s' : System) : Prop :=
  ∀ uv t i, s.cells uv = UpvalueState.openAt t i →
    s'.cells uv = UpvalueState.openAt t i ∨
      ∃ v, (s.threads t).stack[i]? = some v ∧ s'.cells uv = UpvalueState.closed v

/-- An event takes the slots of a thread from some slot on off its stack. -/
inductive Discards (s : System) : HostEvent → ThreadId → ℕ → Prop
  | start (f : FunctionId) (args : List Value) (hidle : s.stepping = none) :
      Discards s (HostEvent.start f args) mainThread 0
  | takeResult {i : ℕ} {e : Executor} (hidle : s.stepping = none) (he : s.executors[i]? = some e)
      (hmode : e.mode = ExecutorMode.result) : Discards s (HostEvent.takeResult i) mainThread 0
  | iterate {i : ℕ} {e : Executor} {c : Choice} {t : ThreadId} {k : ℕ}
      (hstep : s.stepping = some i) (he : s.executors[i]? = some e)
      (hdiscards : Tcvm.Discards (s.driver e) c t k) : Discards s (HostEvent.iterate c) t k

end System

/-- The events that drop no captured slot. -/
def UpvalueGuardAt (s : System) (ev : HostEvent) : Prop :=
  match s.stepping, ev with
  | none, HostEvent.start _ _ => OpenBelow s.cells mainThread 0
  | none, HostEvent.resume i _ => ∀ e top below y, s.executors[i]? = some e →
      e.mode = ExecutorMode.yielded → e.threadStack = top :: below →
      (s.threads top).yieldBottom = some y → OpenBelow s.cells top y.floor
  | none, HostEvent.takeResult i => ∀ e, s.executors[i]? = some e →
      e.mode = ExecutorMode.result → OpenBelow s.cells mainThread 0
  | some i, HostEvent.iterate c => ∀ e, s.executors[i]? = some e → UpvalueGuard (s.driver e) c
  | _, _ => True

def UpvalueRunGuard (x : Option System) (ev : HostEvent) : Prop :=
  ∀ s, x = some s → UpvalueGuardAt s ev

/-- A step keeps the invariant, closes upvalues into their values, and closes what it takes off. -/
structure System.Advances (s : System) (ev : HostEvent) (s' : System) : Prop where
  linked : s'.Linked
  closes : s.ClosesInto s'
  discards : ∀ t k, s.Discards ev t k → OpenBelow s'.cells t k

section Systems

variable {s : System}

theorem System.Linked.driver (h : s.Linked) (e : Executor) : (s.driver e).Linked :=
  h.linked.withStack e.threadStack e.mode

theorem System.Linked.listed (h : s.Linked) : s.Listed := fun uv t i hi =>
  ⟨h.linked.listed uv t i hi, h.linked.bounded uv t i hi,
    fun uv' hi' => h.linked.unique uv' uv t i hi' hi⟩

theorem System.Linked.shares (h : s.Linked) : s.Shares := fun e uv v => (h.driver e).shared uv v

theorem System.ClosesInto.refl (s : System) : s.ClosesInto s := fun _ _ _ hi => Or.inl hi

theorem init_linked : System.init.Linked := by
  refine ⟨?_, fun e he => absurd he List.not_mem_nil, Nat.lt_succ_self _⟩
  have hclosed : ∀ uv t i, System.init.cells uv ≠ UpvalueState.openAt t i := by
    intro uv t i hi
    exact UpvalueState.noConfusion hi
  exact
    ⟨fun uv t i hi => absurd hi (hclosed uv t i), fun uv uv' t i hi => absurd hi (hclosed uv t i),
      fun uv t i hi => absurd hi (hclosed uv t i), fun t uv huv => absurd huv List.not_mem_nil,
      fun t => rfl, fun t uv huv => absurd huv List.not_mem_nil, fun t _ => rfl⟩

/-- A thread without open upvalues is cleared. -/
theorem System.Linked.clear (h : s.Linked) {t : ThreadId} (ht : t < s.freshThread)
    (hopen : OpenBelow s.cells t 0) (ts : ThreadState) (hupvalues : ts.openUpvalues = [])
    (hhandle : ts.threadHandle = (s.threads t).threadHandle) {executors : List Executor}
    (hcreated : ∀ e ∈ executors, ∀ t ∈ e.threadStack, t < s.freshThread) :
    System.Linked { s.setThread t ts with executors := executors } :=
  ⟨h.linked.clear ht hopen hupvalues hhandle, hcreated, h.main⟩

/-- The executors after one of them has been replaced. -/
theorem mem_set {executors : List Executor} {i : ℕ} {e e' : Executor}
    (he : e' ∈ executors.set i e) : e' = e ∨ e' ∈ executors := by
  rcases List.mem_or_eq_of_mem_set he with hmem | heq
  · exact Or.inr hmem
  · exact Or.inl heq

theorem System.Linked.created_set (h : s.Linked) {i : ℕ} {e : Executor}
    (he : s.executors[i]? = some e) (mode : ExecutorMode) :
    ∀ e' ∈ s.executors.set i { e with mode := mode }, ∀ t ∈ e'.threadStack, t < s.freshThread := by
  intro e' hmem t ht
  rcases mem_set hmem with rfl | hmem
  · exact h.created e (List.mem_of_getElem? he) t ht
  · exact h.created e' hmem t ht

theorem startExecutor_advances (h : s.Linked) (hopen : OpenBelow s.cells mainThread 0)
    (f : FunctionId) (args : List Value) :
    s.Advances (HostEvent.start f args) (startExecutor s f args) := by
  refine ⟨h.clear h.main hopen (ThreadState.seeded _ f args) rfl rfl fun e he t ht => ?_,
    System.ClosesInto.refl s, fun t k hdiscards => ?_⟩
  · rcases List.mem_cons.1 he with rfl | hmem
    · rw [List.mem_singleton.1 ht]
      exact h.main
    · exact h.created e hmem t ht
  · cases hdiscards
    exact hopen

theorem takeResult_advances (h : s.Linked) {i : ℕ} {e : Executor}
    (he : s.executors[i]? = some e)
    (hopen : e.mode = ExecutorMode.result → OpenBelow s.cells mainThread 0) :
    s.Advances (HostEvent.takeResult i) (takeResult s i e).1 := by
  unfold takeResult
  split
  · next hmode =>
      refine ⟨h.clear h.main (hopen hmode) (ThreadState.cleared _) rfl rfl (h.created_set he _),
        System.ClosesInto.refl s, fun t k hdiscards => ?_⟩
      cases hdiscards
      exact hopen hmode
  · next hmode =>
      refine ⟨h, System.ClosesInto.refl s, fun t k hdiscards => ?_⟩
      cases hdiscards with
      | takeResult _ he' hmode' =>
          obtain rfl := Option.some.inj (he.symm.trans he')
          exact absurd hmode' hmode

theorem resumeExecutor_advances (h : s.Linked) {i : ℕ} {e : Executor}
    (he : s.executors[i]? = some e) (args : List Value)
    (hopen : ∀ top below y, e.mode = ExecutorMode.yielded → e.threadStack = top :: below →
      (s.threads top).yieldBottom = some y → OpenBelow s.cells top y.floor) :
    ∀ s', (resumeExecutor s i e args).1 = some s' → s.Advances (HostEvent.resume i args) s' := by
  intro s' hs'
  unfold resumeExecutor at hs'
  split at hs'
  · next hmode =>
      cases hstack : e.threadStack with
      | nil =>
          rw [hstack] at hs'
          exact absurd hs' (by simp)
      | cons top below =>
          rw [hstack] at hs'
          simp only at hs'
          cases hyield : (s.threads top).yieldBottom with
          | none =>
              rw [hyield] at hs'
              exact absurd hs' (by simp)
          | some y =>
              rw [hyield] at hs'
              simp only at hs'
              split at hs'
              · next ts' hland =>
                  cases hs'
                  have htop := h.created e (List.mem_of_getElem? he) top
                    (hstack ▸ List.mem_cons_self ..)
                  have hcut : Cuts y.floor (s.threads top) { s.threads top with
                      stack := (s.threads top).stack.take y.bottom ++ args, yieldBottom := none } :=
                    take_append_cuts y.floor_le rfl rfl
                  have hmoves : Moves (s.threads top) s.cells ts' s.cells :=
                    Moves.of_cuts (hcut.trans (landResumed_cuts hland))
                      (h.linked.openIn (hopen top below y hmode hstack hyield))
                  refine ⟨⟨h.linked.setThread htop hmoves (landResumed_keeps hland).threadHandle,
                    h.created_set he _, h.main⟩, System.ClosesInto.refl s, fun t k hdiscards => ?_⟩
                  cases hdiscards
              · exact absurd hs' (by simp)
  · cases hs'
    exact ⟨h, System.ClosesInto.refl s, fun t k hdiscards => by cases hdiscards⟩

/-- **An iteration** of the executor that is being stepped. -/
theorem iterateStep_advances (h : s.Linked) {i : ℕ} {e : Executor} (hstep : s.stepping = some i)
    (he : s.executors[i]? = some e) {c : Choice} (hguard : UpvalueGuard (s.driver e) c) :
    ∀ s', (iterateStep s i e c).1 = some s' → s.Advances (HostEvent.iterate c) s' := by
  have hcreated : (s.driver e).Created := h.created e (List.mem_of_getElem? he)
  have hadvances := iterate_advances (h.driver e) hcreated hguard
  have hcloses := fun t k (hdiscards : Discards (s.driver e) c t k) =>
    iterate_discards (h.driver e) hcreated hguard hdiscards
  have hupdate : ∀ (d : Driver) (stepping : Option ℕ), (s.driver e).Advances d →
      (∀ t k, Discards (s.driver e) c t k → OpenBelow d.cells t k) →
      s.Advances (HostEvent.iterate c) { s.update i d with stepping := stepping } := by
    intro d stepping hd hopen
    refine ⟨⟨hd.linked.withStack _ _, fun e' he' t ht => ?_,
      Nat.lt_of_lt_of_le h.main hd.follows.threads⟩, hd.follows.kept, fun t k hdiscards => ?_⟩
    · rcases mem_set he' with rfl | hmem
      · exact hd.created t ht
      · exact Nat.lt_of_lt_of_le (h.created e' hmem t ht) hd.follows.threads
    · cases hdiscards with
      | iterate hstep' he' hdiscards =>
          obtain rfl := Option.some.inj (hstep.symm.trans hstep')
          obtain rfl := Option.some.inj (he.symm.trans he')
          exact hopen t k hdiscards
  intro s' hs'
  unfold iterateStep at hs'
  generalize iterate (s.driver e) c = out at hadvances hcloses hs'
  cases out with
  | next d =>
      cases hs'
      exact hupdate d s.stepping hadvances hcloses
  | finish r d =>
      cases hs'
      exact hupdate d none hadvances hcloses
  | error err d =>
      cases hs'
      exact hupdate d none hadvances hcloses
  | unreachable => exact absurd hs' (by simp)
  | panic => exact absurd hs' (by simp)

/-- **Every event** that drops no captured slot. -/
theorem stepSystem_advances (h : s.Linked) {ev : HostEvent} (hguard : UpvalueGuardAt s ev) :
    ∀ s', (stepSystem s ev).1 = some s' → s.Advances ev s' := by
  intro s' hs'
  -- nothing happens
  have hstays : (∀ t k, ¬ s.Discards ev t k) → s' = s → s.Advances ev s' := by
    intro hnone heq
    rw [heq]
    exact ⟨h, System.ClosesInto.refl s, fun t k hdiscards => absurd hdiscards (hnone t k)⟩
  unfold UpvalueGuardAt at hguard
  unfold stepSystem at hs'
  cases hstep : s.stepping with
  | none =>
      rw [hstep] at hguard hs'
      cases ev with
      | start f args =>
          cases hs'
          exact startExecutor_advances h hguard f args
      | step i =>
          have hnone : ∀ t k, ¬ s.Discards (HostEvent.step i) t k := fun t k hd => by cases hd
          simp only at hs'
          cases he : s.executors[i]? with
          | none =>
              rw [he] at hs'
              exact hstays hnone (Option.some.inj hs').symm
          | some e =>
              rw [he] at hs'
              simp only [enterStep] at hs'
              split at hs'
              · cases hs'
                exact ⟨⟨h.linked, h.created, h.main⟩, System.ClosesInto.refl s,
                  fun t k hd => absurd hd (hnone t k)⟩
              · exact hstays hnone (Option.some.inj hs').symm
      | iterate c =>
          refine hstays (fun t k hd => ?_) (Option.some.inj hs').symm
          cases hd with
          | iterate hstep' _ _ => exact absurd (hstep.symm.trans hstep') (by simp)
      | resume i args =>
          simp only at hs' hguard
          cases he : s.executors[i]? with
          | none =>
              rw [he] at hs'
              exact hstays (fun t k hd => by cases hd) (Option.some.inj hs').symm
          | some e =>
              rw [he] at hs'
              exact resumeExecutor_advances h he args (fun top below y => hguard e top below y he)
                s' hs'
      | takeResult i =>
          simp only at hs' hguard
          cases he : s.executors[i]? with
          | none =>
              rw [he] at hs'
              refine hstays (fun t k hd => ?_) (Option.some.inj hs').symm
              cases hd with
              | takeResult _ he' _ => exact absurd (he.symm.trans he') (by simp)
          | some e =>
              rw [he] at hs'
              cases hs'
              exact takeResult_advances h he (hguard e he)
  | some i =>
      rw [hstep] at hguard hs'
      cases ev with
      | iterate c =>
          simp only at hs' hguard
          cases he : s.executors[i]? with
          | none =>
              rw [he] at hs'
              refine hstays (fun t k hd => ?_) (Option.some.inj hs').symm
              cases hd with
              | iterate hstep' he' _ =>
                  obtain rfl := Option.some.inj (hstep.symm.trans hstep')
                  exact absurd (he.symm.trans he') (by simp)
          | some e =>
              rw [he] at hs'
              exact iterateStep_advances h hstep he (hguard e he) s' hs'
      | start f args =>
          refine hstays (fun t k hd => ?_) (Option.some.inj hs').symm
          cases hd with
          | start _ _ hidle => exact absurd (hstep.symm.trans hidle) (by simp)
      | step j => exact hstays (fun t k hd => by cases hd) (Option.some.inj hs').symm
      | resume j args => exact hstays (fun t k hd => by cases hd) (Option.some.inj hs').symm
      | takeResult j =>
          refine hstays (fun t k hd => ?_) (Option.some.inj hs').symm
          cases hd with
          | takeResult hidle _ _ => exact absurd (hstep.symm.trans hidle) (by simp)

end Systems

/-! ### Runs -/

/-- The invariant of a system that has not halted. -/
def HaltedOrLinked (x : Option System) : Prop := ∀ s, x = some s → s.Linked

/-- **The invariant along a run.** -/
theorem run_linked {s : System} (h : s.Linked) {events : List HostEvent}
    (hadmits : executorMachine.Admits UpvalueRunGuard (some s) events) :
    HaltedOrLinked (executorMachine.run (some s) events).1 := by
  have hstep : ∀ (x : Option System) (ev : HostEvent), HaltedOrLinked x → UpvalueRunGuard x ev →
      HaltedOrLinked (executorMachine.step x ev).1 ∧ True := by
    intro x ev hx hguard
    refine ⟨fun s' hs' => ?_, trivial⟩
    cases x with
    | none => exact absurd hs' (by simp [executorMachine])
    | some s => exact (stepSystem_advances (hx s rfl) (hguard s rfl) s' hs').linked
  have hfirst : HaltedOrLinked (some s) := fun s' hs' => Option.some.inj hs' ▸ h
  exact (Machine.run_of_admits (Q := fun _ => True) hstep hfirst hadmits).1

/-- **Captured variables**: in every state of a run whose events drop no captured slot, open
upvalues are listed, alone on their slots and in bounds, and are one shared cell each; a step
closes them with the values of their slots only, and leaves none open at a slot that it takes
off. -/
theorem open_upvalues (events : List HostEvent) (ev : HostEvent)
    (h : executorMachine.Admits UpvalueRunGuard (some System.init) (events ++ [ev]))
    (s : System) (hs : (executorMachine.run (some System.init) events).1 = some s) :
    s.Listed ∧ s.Shares ∧
      ∀ s', (executorMachine.step (some s) ev).1 = some s' →
        s'.Listed ∧ s'.Shares ∧ s.ClosesInto s' ∧
          ∀ t k, s.Discards ev t k → OpenBelow s'.cells t k := by
  obtain ⟨hearlier, hlast⟩ := Machine.admits_append h
  have hlinked := run_linked init_linked hearlier s hs
  refine ⟨hlinked.listed, hlinked.shares, fun s' hs' => ?_⟩
  rw [hs] at hlast
  have hadvances := stepSystem_advances hlinked (hlast.1 s rfl) s' hs'
  exact ⟨hadvances.linked.listed, hadvances.linked.shares, hadvances.closes, hadvances.discards⟩

/-- A function of bytecode is called, or an instruction is executed. -/
def Choice.ofInstr (instr : Instr) : Choice :=
  { instr := instr
    callee := { target := CallTarget.lua (windowOf 2), effects := [] }
    poll := PollOutcome.error Value.nil [] }

/-- A function of bytecode is started, and captures its first register. -/
def capturingRun : List HostEvent :=
  [HostEvent.start 0 [], HostEvent.step 0, HostEvent.iterate (Choice.ofInstr Instr.raise),
    HostEvent.iterate (Choice.ofInstr (Instr.closure 1 1 [0] 1))]

/-- The function runs, with an open upvalue. -/
theorem capturingRun_captures :
    ∃ s e lf rest s', (executorMachine.run (some System.init) capturingRun).1 = some s ∧
      s.cells 0 = UpvalueState.openAt 0 1 ∧ s.stepping = some 0 ∧ s.executors[0]? = some e ∧
      Drives (s.driver e) 0 [] ∧ (s.threads 0).pendingAction = none ∧
      (s.threads 0).frames = Frame.lua lf :: rest ∧ lf.base = 1 ∧
      (executorMachine.step (some s)
        (HostEvent.iterate (Choice.ofInstr (Instr.ret 0 1)))).1 = some s' :=
  ⟨_, _, _, _, _, rfl, rfl, rfl, rfl, ⟨rfl, Or.inl rfl⟩, rfl, rfl, rfl, rfl⟩

/-- The function returns, and the register is closed. -/
theorem open_upvalues_returning :
    ∃ s, (executorMachine.run (some System.init) capturingRun).1 = some s ∧
      s.cells 0 = UpvalueState.openAt 0 1 ∧
      ∃ s', (executorMachine.step (some s)
          (HostEvent.iterate (Choice.ofInstr (Instr.ret 0 1)))).1 = some s' ∧
        s.ClosesInto s' ∧ OpenBelow s'.cells 0 1 := by
  -- an iteration is admitted in a state that is known
  have hiterate : ∀ (s : System) (c : Choice) (i : ℕ) (e : Executor), s.stepping = some i →
      s.executors[i]? = some e → UpvalueGuard (s.driver e) c →
      UpvalueRunGuard (some s) (HostEvent.iterate c) := by
    intro s c i e hstep he hguard s' hs'
    cases hs'
    unfold UpvalueGuardAt
    rw [hstep]
    intro e' he'
    obtain rfl := Option.some.inj (he.symm.trans he')
    exact hguard
  have hadmits : executorMachine.Admits UpvalueRunGuard (some System.init)
      (capturingRun ++ [HostEvent.iterate (Choice.ofInstr (Instr.ret 0 1))]) := by
    refine ⟨?_, ?_, ?_, ?_, ?_, trivial⟩
    · intro s hs
      cases hs
      exact fun uv i hi => UpvalueState.noConfusion hi
    · intro s hs
      cases hs
      trivial
    · refine hiterate _ _ 0 _ rfl rfl fun _ => ?_
      exact ⟨fun uv i hi => UpvalueState.noConfusion hi, trivial⟩
    · refine hiterate _ _ 0 _ rfl rfl ?_
      intro r hr
      rw [List.mem_singleton.1 hr]
      decide
    · refine hiterate _ _ 0 _ rfl rfl fun _ uv huv t i hi => ?_
      rw [List.mem_singleton.1 huv] at hi
      cases hi
      exact Or.inr (Nat.le_refl _)
  obtain ⟨s, e, lf, rest, s', hs, hcells, hstep, he, hdrives, hpending, hframes, hbase, hs'⟩ :=
    capturingRun_captures
  obtain ⟨-, -, hlast⟩ := open_upvalues capturingRun _ hadmits s hs
  obtain ⟨-, -, hcloses, hdiscards⟩ := hlast s' hs'
  refine ⟨s, hs, hcells, s', hs', hcloses, ?_⟩
  have hret := hdiscards 0 lf.base
    (System.Discards.iterate hstep he (Discards.ret hdrives hpending hframes rfl))
  rwa [hbase] at hret

/-- The function fails, and another one is started on the same stack. -/
def abandonedRun : List HostEvent :=
  capturingRun ++ [HostEvent.iterate (Choice.ofInstr Instr.raise), HostEvent.start 1 []]

/-- The captured variable refers to the stack of the new run, and nothing lists it. -/
theorem abandonedRun_dangling :
    ∃ s, (executorMachine.run (some System.init) abandonedRun).1 = some s ∧
      s.cells 0 = UpvalueState.openAt 0 1 ∧ (s.threads 0).openUpvalues = [] :=
  ⟨_, rfl, rfl, rfl⟩

/-- A variable that is captured is not listed. -/
theorem not_open_upvalues :
    ¬ ∀ (events : List HostEvent) (s : System),
      (executorMachine.run (some System.init) events).1 = some s → s.Listed := by
  intro h
  obtain ⟨s, hs, hcells, hupvalues⟩ := abandonedRun_dangling
  obtain ⟨hmem, -⟩ := h abandonedRun s hs 0 0 1 hcells
  rw [hupvalues] at hmem
  exact absurd hmem List.not_mem_nil

end Tcvm
