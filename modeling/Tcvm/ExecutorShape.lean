/-
# What the operations do to frames and statuses

The executor decides what to do with a thread by its frames, its status, its pending action and
its yield site.  This file says what every operation on a thread does to these four, whatever it
does to the stack.

## Main definitions

* `Frame.Plain` — bytecode or a sequence;
* `Repositioned` — the same frames, up to the frame of bytecode on top;
* `ActiveAt`, `Active` — what the thread that is driven may look like.

## Main results

* `landCallResults_shape`, `landResumed_shape`, `landPropagated_shape` — the landing;
* `scheduleCallAt_shape` — calling a function;
* `opCall_active`, `opTailcall_active`, `opReturn_active`, `invokeMetamethod_active` — the
  instructions that transfer control;
* `iterate_normal`, `iterate_error`, `iterate_sequence` — an iteration on a thread that runs.
-/

import Tcvm.Executor

namespace Tcvm

open StackWindow

/-! ### Frames -/

/-- A frame of bytecode, or a sequence. -/
def Frame.Plain : Frame → Prop
  | Frame.lua _ => True
  | Frame.sequence _ _ _ => True
  | _ => False

def PlainFrames (frames : List Frame) : Prop := ∀ fr ∈ frames, fr.Plain

theorem plainFrames_nil : PlainFrames [] := fun _ h => absurd h List.not_mem_nil

theorem plainFrames_cons {fr : Frame} {rest : List Frame} :
    PlainFrames (fr :: rest) ↔ fr.Plain ∧ PlainFrames rest := List.forall_mem_cons

/-- The same frames, up to the frame of bytecode on top. -/
def Repositioned (frames frames' : List Frame) : Prop :=
  frames' = frames ∨
    ∃ lf lf' rest, frames = Frame.lua lf :: rest ∧ frames' = Frame.lua lf' :: rest

theorem Repositioned.refl (frames : List Frame) : Repositioned frames frames := Or.inl rfl

theorem Repositioned.eq_nil {frames frames' : List Frame} (h : Repositioned frames frames') :
    frames' = [] ↔ frames = [] := by
  rcases h with rfl | ⟨lf, lf', rest, rfl, rfl⟩
  · exact Iff.rfl
  · exact iff_of_false (List.cons_ne_nil _ _) (List.cons_ne_nil _ _)

theorem Repositioned.plain {frames frames' : List Frame} (h : Repositioned frames frames')
    (hplain : PlainFrames frames) : PlainFrames frames' := by
  rcases h with rfl | ⟨lf, lf', rest, rfl, rfl⟩
  · exact hplain
  · exact plainFrames_cons.2 ⟨trivial, (plainFrames_cons.1 hplain).2⟩

/-- What the thread that is driven may look like, by its frames, status, pending action and yield
site. -/
inductive ActiveAt :
    List Frame → ThreadStatus → Option PendingAction → Option CallSite → Prop
  | seeded {f : FunctionId} {status : ThreadStatus} {y : Option CallSite}
      (h : status = ThreadStatus.suspended ∨ status = ThreadStatus.normal) :
      ActiveAt [Frame.start f] status none y
  | running {frames : List Frame} {pending : Option PendingAction} {y : Option CallSite}
      (hplain : PlainFrames frames) (h : frames ≠ [] ∨ pending ≠ none)
      (hret : ∀ p, pending = some p → p.action ≠ CallbackAction.ret) :
      ActiveAt frames ThreadStatus.normal pending y
  | failing {err : Value} {rest : List Frame} {y : Option CallSite} (hplain : PlainFrames rest) :
      ActiveAt (Frame.error err :: rest) ThreadStatus.normal none y
  | parked {frames : List Frame} {y : CallSite} (hplain : PlainFrames frames) :
      ActiveAt frames ThreadStatus.suspended none (some y)
  | finished {bottom : ℕ} {y : Option CallSite} :
      ActiveAt [] (ThreadStatus.result bottom) none y
  | stopped {y : Option CallSite} : ActiveAt [] ThreadStatus.stopped none y

def Active (ts : ThreadState) : Prop :=
  ActiveAt ts.frames ts.status ts.pendingAction ts.yieldBottom

theorem ActiveAt.repositioned {frames frames' : List Frame} {status : ThreadStatus}
    {pending : Option PendingAction} {y : Option CallSite} (h : ActiveAt frames status pending y)
    (hframes : Repositioned frames frames') : ActiveAt frames' status pending y := by
  rcases hframes with rfl | ⟨lf, lf', rest, rfl, rfl⟩
  · exact h
  · cases h with
    | running hplain _ hret =>
        exact ActiveAt.running (plainFrames_cons.2 ⟨trivial, (plainFrames_cons.1 hplain).2⟩)
          (Or.inl (List.cons_ne_nil _ _)) hret
    | parked hplain =>
        exact ActiveAt.parked (plainFrames_cons.2 ⟨trivial, (plainFrames_cons.1 hplain).2⟩)

theorem setTopLua_repositioned {ts : ThreadState} {lf : LuaFrame} {rest : List Frame}
    (h : ts.frames = Frame.lua lf :: rest) (lf' : LuaFrame) :
    Repositioned ts.frames (ts.setTopLua lf').frames := by
  simp only [ThreadState.setTopLua, h, List.tail_cons]
  exact Or.inr ⟨lf, lf', rest, rfl, rfl⟩

theorem topLua_eq_some {ts : ThreadState} {lf : LuaFrame} (h : ts.topLua = some lf) :
    ∃ rest, ts.frames = Frame.lua lf :: rest := by
  unfold ThreadState.topLua at h
  split at h
  · next lf' rest heq =>
      cases h
      exact ⟨rest, heq⟩
  · exact absurd h (by simp)

theorem savePc_repositioned (ts : ThreadState) (pc : ℕ) :
    Repositioned ts.frames (ts.savePc pc).frames := by
  unfold ThreadState.savePc
  cases htop : ts.topLua with
  | none => exact Repositioned.refl _
  | some lf =>
      obtain ⟨rest, hframes⟩ := topLua_eq_some htop
      exact setTopLua_repositioned hframes _

theorem savePc_status (ts : ThreadState) (pc : ℕ) : (ts.savePc pc).status = ts.status := by
  unfold ThreadState.savePc
  split <;> rfl

theorem savePc_pendingAction (ts : ThreadState) (pc : ℕ) :
    (ts.savePc pc).pendingAction = ts.pendingAction := by
  unfold ThreadState.savePc
  split <;> rfl

theorem savePc_yieldBottom (ts : ThreadState) (pc : ℕ) :
    (ts.savePc pc).yieldBottom = ts.yieldBottom := by
  unfold ThreadState.savePc
  split <;> rfl

theorem Active.savePc {ts : ThreadState} (h : Active ts) (pc : ℕ) : Active (ts.savePc pc) := by
  unfold Active
  rw [savePc_status, savePc_pendingAction, savePc_yieldBottom]
  exact ActiveAt.repositioned h (savePc_repositioned ts pc)

theorem active_of_plain {ts : ThreadState} (hplain : PlainFrames ts.frames)
    (hne : ts.frames ≠ []) (hstatus : ts.status = ThreadStatus.normal)
    (hpending : ts.pendingAction = none) : Active ts := by
  unfold Active
  rw [hstatus, hpending]
  exact ActiveAt.running hplain (Or.inl hne) fun p h => absurd h (by simp)

theorem Active.of_normal {ts : ThreadState}
    (h : Active { ts with status := ThreadStatus.normal })
    (hstatus : ts.status = ThreadStatus.normal) : Active ts := by
  unfold Active at h ⊢
  rw [hstatus]
  exact h

theorem active_of_error {ts : ThreadState} {err : Value} {rest : List Frame}
    (hframes : ts.frames = Frame.error err :: rest) (hplain : PlainFrames rest)
    (hstatus : ts.status = ThreadStatus.normal) (hpending : ts.pendingAction = none) :
    Active ts := by
  unfold Active
  rw [hframes, hstatus, hpending]
  exact ActiveAt.failing hplain

theorem active_of_pending {ts : ThreadState} {p : PendingAction} (hplain : PlainFrames ts.frames)
    (hpending : ts.pendingAction = some p) (hret : p.action ≠ CallbackAction.ret)
    (hstatus : ts.status = ThreadStatus.normal) : Active ts := by
  unfold Active
  rw [hstatus, hpending]
  refine ActiveAt.running hplain (Or.inr (by simp)) fun q hq => ?_
  rwa [← Option.some.inj hq]

/-! ### The landing -/

theorem restoreWindow_fields (ts : ThreadState) :
    ts.restoreWindow.status = ts.status ∧ ts.restoreWindow.pendingAction = ts.pendingAction ∧
      ts.restoreWindow.yieldBottom = ts.yieldBottom := by
  unfold ThreadState.restoreWindow
  split <;> exact ⟨rfl, rfl, rfl⟩

/-- What a landing does to a thread: it keeps everything but the stack, and the status of a thread
without frames. -/
structure LandShape (ts ts' : ThreadState) : Prop where
  frames : Repositioned ts.frames ts'.frames
  pending : ts'.pendingAction = ts.pendingAction
  yieldBottom : ts'.yieldBottom = ts.yieldBottom
  status : ts.frames ≠ [] → ts'.status = ts.status
  finished : ts.frames = [] → ∃ bottom, ts'.status = ThreadStatus.result bottom

theorem LandShape.restoreWindow {ts ts' : ThreadState} (h : LandShape ts ts') :
    LandShape ts ts'.restoreWindow := by
  obtain ⟨hstatus, hpending, hyield⟩ := restoreWindow_fields ts'
  exact
    { frames := by rw [ThreadState.frames_restoreWindow]; exact h.frames
      pending := hpending.trans h.pending
      yieldBottom := hyield.trans h.yieldBottom
      status := fun hne => hstatus.trans (h.status hne)
      finished := fun hnil => by rw [hstatus]; exact h.finished hnil }

theorem LandShape.of_ne_nil {ts ts' : ThreadState} (hne : ts.frames ≠ [])
    (hframes : Repositioned ts.frames ts'.frames) (hstatus : ts'.status = ts.status)
    (hpending : ts'.pendingAction = ts.pendingAction)
    (hyield : ts'.yieldBottom = ts.yieldBottom) : LandShape ts ts' :=
  { frames := hframes, pending := hpending, yieldBottom := hyield, status := fun _ => hstatus
    finished := fun hnil => absurd hnil hne }

theorem applyNativeContinuation_shape {ts ts' : ThreadState} {bottom : ℕ} {cont : Continuation}
    (h : applyNativeContinuation ts bottom cont = some ts') : LandShape ts ts' := by
  unfold applyNativeContinuation at h
  obtain ⟨result0, -, h⟩ := Option.bind_eq_some_iff.1 h
  obtain ⟨caller, hcaller, h⟩ := Option.bind_eq_some_iff.1 h
  obtain ⟨rest, hframes⟩ := topLua_eq_some hcaller
  have hne : ts.frames ≠ [] := by
    rw [hframes]
    exact List.cons_ne_nil _ _
  have hstack : ∀ s, LandShape ts (ts.setStack s) := fun s =>
    LandShape.of_ne_nil hne (Repositioned.refl _) rfl rfl rfl
  have hsame : LandShape ts ts := LandShape.of_ne_nil hne (Repositioned.refl _) rfl rfl rfl
  cases hp : cont.payload with
  | storeResult dst =>
      simp only [hp] at h
      obtain ⟨s, -, rfl⟩ := Option.map_eq_some_iff.1 h
      exact (hstack s).restoreWindow
  | ignoreResult =>
      simp only [hp, Option.some.injEq] at h
      subst h
      exact hsame.restoreWindow
  | condJump offset inverted =>
      simp only [hp] at h
      split at h
      · cases h
        exact LandShape.restoreWindow
          (LandShape.of_ne_nil hne (setTopLua_repositioned hframes _) rfl rfl rfl)
      · cases h
        exact hsame.restoreWindow
  | tforCall reg count =>
      simp only [hp] at h
      obtain ⟨s, -, rfl⟩ := Option.map_eq_some_iff.1 h
      exact (hstack s).restoreWindow

theorem landCallResults_shape {ts ts' : ThreadState} {cs : CallSite}
    (h : landCallResults ts cs = some ts') : LandShape ts ts' := by
  cases hcont : cs.cont with
  | some cont =>
      simp only [landCallResults, hcont] at h
      exact applyNativeContinuation_shape h
  | none =>
      simp only [landCallResults, hcont] at h
      obtain ⟨s, -, rfl⟩ := Option.map_eq_some_iff.1 h
      -- the state before a thread without frames is marked as finished
      obtain ⟨u, hu, hframes, hstatus, hpending, hyield⟩ : ∃ u : ThreadState,
          (if cs.returns = 0 then
            { ts with
              stack := s.take (cs.funcIdx + (ts.stack.length - cs.bottom))
              top := cs.funcIdx + (ts.stack.length - cs.bottom) }
          else (ts.setStack s).restoreWindow) = u ∧ u.frames = ts.frames ∧
            u.status = ts.status ∧ u.pendingAction = ts.pendingAction ∧
            u.yieldBottom = ts.yieldBottom := by
        split
        · exact ⟨_, rfl, rfl, rfl, rfl, rfl⟩
        · obtain ⟨hstatus, hpending, hyield⟩ := restoreWindow_fields (ts.setStack s)
          exact ⟨_, rfl, ThreadState.frames_restoreWindow _, hstatus, hpending, hyield⟩
      rw [hu]
      cases hnil : ts.frames with
      | nil =>
          have hempty : finishIfEmpty u cs.funcIdx =
              { u with status := ThreadStatus.result cs.funcIdx } := by
            simp only [finishIfEmpty, hframes, hnil]
          rw [hempty]
          exact
            { frames := Or.inl hframes, pending := hpending, yieldBottom := hyield
              status := fun hne => absurd hnil hne, finished := fun _ => ⟨cs.funcIdx, rfl⟩ }
      | cons fr rest =>
          have hne : ts.frames ≠ [] := by
            rw [hnil]
            exact List.cons_ne_nil _ _
          rw [finishIfEmpty_of_ne (by rwa [hframes])]
          exact LandShape.of_ne_nil hne (Or.inl hframes) hstatus hpending hyield

theorem landUnlessSequence_shape {ts ts' : ThreadState} {cs : CallSite}
    (h : landUnlessSequence ts cs = some ts') : LandShape ts ts' := by
  unfold landUnlessSequence at h
  split at h
  · next seq cs' e rest heq =>
      cases h
      refine LandShape.of_ne_nil ?_ (Repositioned.refl _) rfl rfl rfl
      rw [heq]
      exact List.cons_ne_nil _ _
  · exact landCallResults_shape h

/-- A thread that is resumed runs. -/
theorem landResumed_shape {ts ts' : ThreadState} {cs : CallSite}
    (h : landResumed ts cs = some ts') :
    Repositioned ts.frames ts'.frames ∧ ts'.status = ThreadStatus.normal ∧
      ts'.pendingAction = ts.pendingAction := by
  unfold landResumed at h
  obtain ⟨u, hu, rfl⟩ := Option.map_eq_some_iff.1 h
  have hshape := landUnlessSequence_shape hu
  exact ⟨hshape.frames, rfl, hshape.pending⟩

/-- A waiting thread whose coroutine comes back is active again: it runs, or has finished. -/
theorem landPropagated_active {ts ts' : ThreadState} {cs : CallSite}
    (h : landPropagated ts cs = some ts') (hplain : PlainFrames ts.frames)
    (hstatus : ts.status = ThreadStatus.normal) (hpending : ts.pendingAction = none) :
    Active ts' := by
  unfold landPropagated at h
  obtain ⟨u, hu, rfl⟩ := Option.map_eq_some_iff.1 h
  have hshape := landUnlessSequence_shape hu
  by_cases hnil : ts.frames = []
  · obtain ⟨bottom, hbottom⟩ := hshape.finished hnil
    have hframes : u.frames = [] := hshape.frames.eq_nil.2 hnil
    simp only [hbottom]
    unfold Active
    rw [hframes, hbottom, hshape.pending, hpending]
    exact ActiveAt.finished
  · have hu' : u.status = ThreadStatus.normal := (hshape.status hnil).trans hstatus
    have hne : u.frames ≠ [] := fun hu'' => hnil (hshape.frames.eq_nil.1 hu'')
    simp only [hu']
    exact active_of_plain (hshape.frames.plain hplain) hne rfl (hshape.pending.trans hpending)

/-! ### Calls -/

/-- A thread that can be resumed was suspended. -/
theorem resumeWith_suspended {ts : ThreadState} {args : List Value} {r : Option ThreadState}
    (h : ts.resumeWith args = some r) : ts.status = ThreadStatus.suspended := by
  unfold ThreadState.resumeWith at h
  cases hstatus : ts.status with
  | suspended => rfl
  | _ =>
      rw [hstatus] at h
      exact absurd h (by simp)

/-- A native callback that returns at once, for the arguments. -/
def ReturnsAtOnce (target : CallTarget) (args : List Value) : Prop :=
  ∃ g window, target = CallTarget.native g ∧
    g args = NativeOutcome.ok CallbackAction.ret window

/-- The arguments of a callback are the values above its slot. -/
theorem invokeNative_args {ts : ThreadState} {argsBase : ℕ} (g : NativeFn)
    (h : argsBase ≤ ts.stack.length) :
    (invokeNative ts argsBase (ts.stack.length - argsBase) g).2 = g (ts.stack.drop argsBase) := by
  have hlen : argsBase + (ts.stack.length - argsBase) = ts.stack.length := by omega
  simp only [invokeNative, hlen]
  rw [resize_of_le (Nat.le_refl _), List.take_length]

theorem pushCall_eq {ts ts' : ThreadState} {closure : LuaClosure} {base nargs returns : ℕ}
    {cont : Option Continuation} (h : pushCall ts closure base nargs returns cont = some ts') :
    ∃ lf, ts'.frames = Frame.lua lf :: ts.frames ∧ ts'.status = ts.status ∧
      ts'.pendingAction = ts.pendingAction ∧ ts'.yieldBottom = ts.yieldBottom := by
  unfold pushCall at h
  obtain ⟨s, -, rfl⟩ := Option.map_eq_some_iff.1 h
  exact ⟨_, rfl, rfl, rfl, rfl⟩

/-- A thread that calls a function keeps its status, and may run, unless the function was a native
callback that returned at once to no frame. -/
theorem scheduleCallAt_shape {ts ts' : ThreadState} {slot returns : ℕ} {target : CallTarget}
    (h : scheduleCallAt ts slot target returns = some ts') (hplain : PlainFrames ts.frames)
    (hpending : ts.pendingAction = none) (hslot : slot + 1 ≤ ts.stack.length) :
    ts'.status = ts.status ∧
      (Active { ts' with status := ThreadStatus.normal } ∨
        (ts'.frames = [] ∧ ts'.pendingAction = none ∧ ts.frames = [] ∧
          ReturnsAtOnce target (ts.stack.drop (slot + 1)))) := by
  unfold scheduleCallAt at h
  cases target with
  | lua closure =>
      obtain ⟨lf, hframes, hstatus', hpending', -⟩ := pushCall_eq h
      refine ⟨hstatus', Or.inl (active_of_plain ?_ ?_ rfl (hpending'.trans hpending))⟩
      · show PlainFrames ts'.frames
        rw [hframes]
        exact plainFrames_cons.2 ⟨trivial, hplain⟩
      · show ts'.frames ≠ []
        rw [hframes]
        exact List.cons_ne_nil _ _
  | native g =>
      have hargs := invokeNative_args g hslot
      simp only at h
      cases hout : (invokeNative ts (slot + 1) (ts.stack.length - (slot + 1)) g).2 with
      | error err window =>
          simp only [hout, Option.some.injEq] at h
          subst h
          exact ⟨rfl, Or.inl (active_of_error rfl hplain rfl hpending)⟩
      | ok action window =>
          cases haction : action with
          | ret =>
              simp only [hout, haction] at h
              obtain ⟨s, -, rfl⟩ := Option.map_eq_some_iff.1 h
              refine ⟨rfl, ?_⟩
              by_cases hnil : ts.frames = []
              · refine Or.inr ⟨hnil, hpending, hnil, g, window, rfl, ?_⟩
                rw [← hargs, hout, haction]
              · exact Or.inl (active_of_plain hplain hnil rfl hpending)
          | _ =>
              simp only [hout, haction, Option.some.injEq] at h
              subst h
              exact ⟨rfl, Or.inl (active_of_pending hplain rfl (by simp) rfl)⟩

/-! ### Instructions that transfer control -/

/-- A handler leaves an active thread, and raises no error. -/
def VmActive (r : VmResult) : Prop :=
  ∀ flow ts cells, r = some (flow, ts, cells) → flow ≠ Flow.raise ∧ Active ts

theorem vmActive_none : VmActive none := fun _ _ _ h => absurd h (by simp)

theorem vmActive_some {flow : Flow} {ts : ThreadState} {cells : Cells} (hflow : flow ≠ Flow.raise)
    (h : Active ts) : VmActive (some (flow, ts, cells)) := by
  intro flow' ts' cells' heq
  cases heq
  exact ⟨hflow, h⟩

theorem vmActive_map {α : Type} {r : Option α} {k : α → Flow × ThreadState × Cells}
    (h : ∀ a, r = some a → (k a).1 ≠ Flow.raise ∧ Active (k a).2.1) : VmActive (r.map k) := by
  cases r with
  | none => exact vmActive_none
  | some a =>
      obtain ⟨hflow, hactive⟩ := h a rfl
      exact vmActive_some hflow hactive

theorem vmActive_bind {α : Type} {r : Option α} {k : α → VmResult}
    (h : ∀ a, r = some a → VmActive (k a)) : VmActive (r.bind k) := by
  cases r with
  | none => exact vmActive_none
  | some a => exact h a rfl

/-- A thread that runs a frame of bytecode. -/
structure RunsLua (ts : ThreadState) (lf : LuaFrame) (rest : List Frame) : Prop where
  frames : ts.frames = Frame.lua lf :: rest
  plain : PlainFrames rest
  status : ts.status = ThreadStatus.normal
  pending : ts.pendingAction = none

namespace RunsLua

variable {ts : ThreadState} {lf : LuaFrame} {rest : List Frame}

theorem topLua (h : RunsLua ts lf rest) : ts.topLua = some lf := ThreadState.topLua_cons h.frames

theorem plainFrames (h : RunsLua ts lf rest) : PlainFrames ts.frames := by
  rw [h.frames]
  exact plainFrames_cons.2 ⟨trivial, h.plain⟩

theorem ne_nil (h : RunsLua ts lf rest) : ts.frames ≠ [] := by
  rw [h.frames]
  exact List.cons_ne_nil _ _

theorem active (h : RunsLua ts lf rest) : Active ts :=
  active_of_plain h.plainFrames h.ne_nil h.status h.pending

theorem setStack (h : RunsLua ts lf rest) (s : List Value) : RunsLua (ts.setStack s) lf rest :=
  ⟨h.frames, h.plain, h.status, h.pending⟩

theorem setTopLua (h : RunsLua ts lf rest) (lf' : LuaFrame) :
    RunsLua (ts.setTopLua lf') lf' rest := by
  refine ⟨?_, h.plain, h.status, h.pending⟩
  simp only [ThreadState.setTopLua, h.frames, List.tail_cons]

theorem savePc (h : RunsLua ts lf rest) (pc : ℕ) :
    RunsLua (ts.savePc pc) { lf with pc := pc } rest := by
  refine ⟨?_, h.plain, (savePc_status ts pc).trans h.status,
    (savePc_pendingAction ts pc).trans h.pending⟩
  simp only [ThreadState.savePc, h.topLua, ThreadState.setTopLua, h.frames, List.tail_cons]

/-- A Lua callee is pushed on a thread that runs. -/
theorem pushCall (h : RunsLua ts lf rest) {ts' : ThreadState} {closure : LuaClosure}
    {base nargs returns : ℕ} {cont : Option Continuation}
    (hcall : Tcvm.pushCall ts closure base nargs returns cont = some ts') : Active ts' := by
  obtain ⟨lf', hframes, hstatus, hpending, -⟩ := pushCall_eq hcall
  refine active_of_plain ?_ ?_ (hstatus.trans h.status) (hpending.trans h.pending)
  · rw [hframes]
    exact plainFrames_cons.2 ⟨trivial, h.plainFrames⟩
  · rw [hframes]
    exact List.cons_ne_nil _ _

/-- An error is pushed on a thread that runs. -/
theorem pushError (h : RunsLua ts lf rest) (err : Value) : Active (ts.push (Frame.error err)) :=
  active_of_error rfl h.plainFrames h.status h.pending

/-- Leaving a frame keeps the status. -/
theorem leaveFrame (h : RunsLua ts lf rest) {cells : Cells} {base : ℕ}
    {r : ThreadState × Cells} (hleave : Tcvm.leaveFrame ts cells base = some r) :
    r.1.frames = rest ∧ r.1.status = ThreadStatus.normal ∧ r.1.pendingAction = none := by
  unfold Tcvm.leaveFrame at hleave
  obtain ⟨u, hu, rfl⟩ := Option.map_eq_some_iff.1 hleave
  unfold closeUpvalues at hu
  obtain ⟨v, -, rfl⟩ := Option.map_eq_some_iff.1 hu
  refine ⟨?_, h.status, h.pending⟩
  show ts.frames.tail = rest
  rw [h.frames, List.tail_cons]

theorem opCall_active (h : RunsLua ts lf rest) (cells : Cells) (ip func nargs returns : ℕ)
    (target : CallTarget) : VmActive (opCall ts cells ip func nargs returns target) := by
  unfold opCall
  cases target with
  | lua closure =>
      refine vmActive_map fun ts' hcall => ⟨by simp, ?_⟩
      exact (h.savePc ip).pushCall hcall
  | native g =>
      simp only
      have hrun : ∀ b n, RunsLua (invokeNative ts b n g).1 lf rest := fun b n => h.setStack _
      split
      · next err window hout =>
          exact vmActive_some (by simp) (((hrun _ _).savePc ip).pushError err)
      · next window hout =>
          refine vmActive_map fun ts' hret => ⟨by simp, ?_⟩
          unfold opCallReturn at hret
          simp only at hret
          split at hret
          · obtain ⟨s, -, rfl⟩ := Option.map_eq_some_iff.1 hret
            exact active_of_plain h.plainFrames h.ne_nil h.status h.pending
          · obtain ⟨s, -, rfl⟩ := Option.map_eq_some_iff.1 hret
            exact active_of_plain h.plainFrames h.ne_nil h.status h.pending
      · next action window hne hout =>
          refine vmActive_some (by simp) (active_of_pending ?_ rfl hne ?_)
          · exact ((hrun _ _).savePc ip).plainFrames
          · exact ((hrun _ _).savePc ip).status

/-- The values of a frame that has been left go to the frame below. -/
theorem deliverReturn_active {u : ThreadState} {f : LuaFrame} {valuesBase nret : ℕ}
    {d : FrameReturn × ThreadState} (hplain : PlainFrames u.frames)
    (hstatus : u.status = ThreadStatus.normal) (hpending : u.pendingAction = none)
    (hdeliver : deliverReturn u f valuesBase nret = some d) :
    d.1 ≠ FrameReturn.continuation ∧ Active d.2 := by
  unfold deliverReturn at hdeliver
  simp only at hdeliver
  split at hdeliver
  · next hframes =>
      obtain ⟨s, -, rfl⟩ := Option.map_eq_some_iff.1 hdeliver
      refine ⟨by simp, ?_⟩
      show ActiveAt u.frames (ThreadStatus.result _) u.pendingAction u.yieldBottom
      rw [hframes, hpending]
      exact ActiveAt.finished
  · next caller rest' hframes =>
      have hne : u.frames ≠ [] := by
        rw [hframes]
        exact List.cons_ne_nil _ _
      split at hdeliver
      · obtain ⟨s, -, rfl⟩ := Option.map_eq_some_iff.1 hdeliver
        exact ⟨by simp, active_of_plain hplain hne hstatus hpending⟩
      · obtain ⟨s, -, rfl⟩ := Option.map_eq_some_iff.1 hdeliver
        exact ⟨by simp, active_of_plain hplain hne hstatus hpending⟩
  · next fr rest' hlua hframes =>
      obtain ⟨s, -, rfl⟩ := Option.map_eq_some_iff.1 hdeliver
      refine ⟨by simp, active_of_plain hplain ?_ hstatus hpending⟩
      show u.frames ≠ []
      rw [hframes]
      exact List.cons_ne_nil _ _

/-- A frame with a continuation is left for the caller it was pushed on. -/
theorem contResume_active (h : RunsLua ts lf rest) (cells : Cells) :
    VmActive (contResume ts cells) := by
  unfold contResume
  refine vmActive_bind fun f _ => vmActive_bind fun cont _ => vmActive_bind fun r hleave => ?_
  obtain ⟨hframes, hstatus, hpending⟩ := h.leaveFrame hleave
  refine vmActive_bind fun caller hcaller => vmActive_map fun p _ => ⟨by simp, ?_⟩
  refine active_of_plain ?_ ?_ hstatus hpending
  · show PlainFrames r.1.frames
    rw [hframes]
    exact h.plain
  · obtain ⟨rest', hrest'⟩ := topLua_eq_some hcaller
    show r.1.frames ≠ []
    rw [hrest']
    exact List.cons_ne_nil _ _

/-- A frame returns, and the handler continues. -/
theorem frameReturn_active (h : RunsLua ts lf rest) (cells : Cells) (valuesBase nret : ℕ) :
    VmActive ((frameReturn ts cells valuesBase nret).bind afterReturn) := by
  refine vmActive_bind fun r hreturn => ?_
  simp only [frameReturn, h.topLua, Option.bind_some] at hreturn
  cases hcont : lf.continuation with
  | some cont =>
      simp only [hcont, Option.some.injEq] at hreturn
      subst hreturn
      exact (h.setTopLua _).contResume_active cells
  | none =>
      simp only [hcont] at hreturn
      obtain ⟨l, hleave, hreturn⟩ := Option.bind_eq_some_iff.1 hreturn
      obtain ⟨d, hdeliver, rfl⟩ := Option.map_eq_some_iff.1 hreturn
      obtain ⟨hframes, hstatus, hpending⟩ := h.leaveFrame hleave
      have hplain : PlainFrames l.1.frames := by
        rw [hframes]
        exact h.plain
      obtain ⟨hne, hactive⟩ := deliverReturn_active hplain hstatus hpending hdeliver
      unfold afterReturn
      cases hd : d.1 with
      | continuation => exact absurd hd hne
      | topLevel => exact vmActive_some (by simp) hactive
      | caller newBase newPc => exact vmActive_some (by simp) hactive
      | toNonLua => exact vmActive_some (by simp) hactive

theorem opReturn_active (h : RunsLua ts lf rest) (cells : Cells) (values count : ℕ) :
    VmActive (opReturn ts cells values count) := by
  unfold opReturn
  exact vmActive_bind fun f _ => h.frameReturn_active cells _ _

theorem opTailcall_active (h : RunsLua ts lf rest) (cells : Cells) (func nargs : ℕ)
    (target : CallTarget) : VmActive (opTailcall ts cells func nargs target) := by
  unfold opTailcall
  refine vmActive_bind fun f hf => ?_
  cases target with
  | lua closure =>
      simp only
      unfold tailcallLua
      refine vmActive_bind fun r hclose => vmActive_bind fun s _ => vmActive_map fun s'' _ =>
        ⟨by simp, ?_⟩
      unfold closeUpvalues at hclose
      obtain ⟨v, -, rfl⟩ := Option.map_eq_some_iff.1 hclose
      refine active_of_plain ?_ (List.cons_ne_nil _ _) h.status h.pending
      show PlainFrames (Frame.lua _ :: ts.frames.tail)
      rw [h.frames, List.tail_cons]
      exact plainFrames_cons.2 ⟨trivial, h.plain⟩
  | native g =>
      simp only
      have hrun : ∀ b n, RunsLua (invokeNative ts b n g).1 lf rest := fun b n => h.setStack _
      split
      · next err window hout =>
          refine vmActive_map fun l hleave => ⟨by simp, ?_⟩
          obtain ⟨hframes, hstatus, hpending⟩ := (hrun _ _).leaveFrame hleave
          refine active_of_error rfl ?_ hstatus hpending
          rw [hframes]
          exact h.plain
      · next window hout => exact (hrun _ _).frameReturn_active cells _ _
      · next action window hne hout =>
          refine vmActive_map fun l hleave => ⟨by simp, ?_⟩
          obtain ⟨hframes, hstatus, -⟩ := (hrun _ _).leaveFrame hleave
          refine active_of_pending ?_ rfl hne hstatus
          show PlainFrames l.1.frames
          rw [hframes]
          exact h.plain

theorem invokeMetamethod_active (h : RunsLua ts lf rest) (cells : Cells) (ip : ℕ)
    (metaFn : Value) (args : List Value) (cont : Continuation) (target : CallTarget)
    (crossing : Value) :
    VmActive (invokeMetamethod ts cells ip metaFn args cont target crossing) := by
  have hsave := h.savePc ip
  unfold invokeMetamethod
  refine vmActive_bind fun caller _ => ?_
  cases target with
  | lua closure =>
      exact vmActive_map fun ts' hcall => ⟨by simp, (hsave.setStack _).pushCall hcall⟩
  | native g =>
      simp only
      unfold nativeMetaCall
      have hrun : ∀ s b n, RunsLua (invokeNative ((ts.savePc ip).setStack s) b n g).1
          { lf with pc := ip } rest := fun s b n => (hsave.setStack s).setStack _
      simp only
      split
      · next err window hout => exact vmActive_some (by simp) ((hrun _ _ _).pushError err)
      · next window hout =>
          exact vmActive_map fun p _ => ⟨by simp, ((hrun _ _ _).setStack p.1).active⟩
      · next f andThen window hout =>
          exact vmActive_some (by simp) ((hrun _ _ _).pushError crossing)
      · next action window hret hcall hout =>
          refine vmActive_some (by simp) (active_of_pending ?_ rfl hret ?_)
          · exact hsave.plainFrames
          · exact hsave.status

end RunsLua

/-! ### The loop -/

section Loop

variable {d : Driver} {top : ThreadId} {below : List ThreadId}

/-- A thread that runs is driven. -/
theorem iterate_normal (hstack : d.threadStack = top :: below)
    (hstatus : (d.threads top).status = ThreadStatus.normal) (c : Choice) :
    iterate d c = drive d top below c := by
  unfold iterate
  rw [hstack]
  cases below with
  | nil => simp only [hstatus]
  | cons resumer below' => simp only [hstatus]

theorem iterate_error (hstack : d.threadStack = top :: below)
    (hstatus : (d.threads top).status = ThreadStatus.normal)
    (hpending : (d.threads top).pendingAction = none) {err : Value} {rest : List Frame}
    (hframes : (d.threads top).frames = Frame.error err :: rest) (c : Choice) :
    iterate d c = unwindError d top below err rest := by
  rw [iterate_normal hstack hstatus]
  simp only [drive, hpending, pumpFrame, hframes]

theorem iterate_sequence (hstack : d.threadStack = top :: below)
    (hstatus : (d.threads top).status = ThreadStatus.normal)
    (hpending : (d.threads top).pendingAction = none) {seq : Sequence} {cs : CallSite}
    {e : Option Value} {rest : List Frame}
    (hframes : (d.threads top).frames = Frame.sequence seq cs e :: rest) (c : Choice) :
    iterate d c =
      pumpSequence d top { d.threads top with frames := rest } seq cs e c.poll c.callee := by
  rw [iterate_normal hstack hstatus]
  simp only [drive, hpending, pumpFrame, hframes]

end Loop

end Tcvm
