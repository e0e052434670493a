/-
# The coroutine library

The native callbacks of `coroutine`, as functions of the threads they see, of the thread that runs
and of their arguments.

## Main definitions

* `coroutineStatus` — what `coroutine.status` reports;
* `unresumableReason`, `luaResume` — resuming a coroutine;
* `closes`, `luaCloseEffects` — closing a coroutine;
* `Unstarted`, `Parked`, `Awaits`, `Ended` — where the body of a coroutine is, by its frames.

## Main results

* `luaClose_refused` — a refused close leaves all threads as they are;
* `luaResume_refused` — a refused resume returns at once.
-/

import Tcvm.ExecutorMachine

namespace Tcvm

/-! ### Reports -/

inductive CoroutineStatus
  | suspended
  | running
  | normal
  | dead
  deriving DecidableEq

/-- What `coroutine.status` reports on the thread `current`. -/
def coroutineStatus (threads : ThreadId → ThreadState) (current co : ThreadId) :
    CoroutineStatus :=
  if co = current then CoroutineStatus.running
  else
    match (threads co).status with
    | ThreadStatus.stopped => CoroutineStatus.dead
    | ThreadStatus.result _ => CoroutineStatus.dead
    | ThreadStatus.suspended => CoroutineStatus.suspended
    | ThreadStatus.normal => CoroutineStatus.normal

/-! ### Resuming -/

/-- `unresumable_reason`. -/
def unresumableReason (threads : ThreadId → ThreadState) (current co : ThreadId) :
    Option LuaString :=
  if co = mainThread ∨ co = current then some (bytes "cannot resume non-suspended coroutine")
  else
    match (threads co).status with
    | ThreadStatus.suspended => none
    | ThreadStatus.result _ => some (bytes "cannot resume dead coroutine")
    | ThreadStatus.stopped => some (bytes "cannot resume dead coroutine")
    | ThreadStatus.normal => some (bytes "cannot resume non-suspended coroutine")

/-- `lua_resume`. -/
def luaResume (threads : ThreadId → ThreadState) (current : ThreadId) : NativeFn := fun args =>
  match args with
  | Value.thread co :: rest =>
      match unresumableReason threads current co with
      | some msg => NativeOutcome.ok CallbackAction.ret [Value.boolean false, Value.string msg]
      | none => NativeOutcome.ok (CallbackAction.resume co (some Sequence.pcall)) rest
  | _ =>
      NativeOutcome.error
        (Value.string (bytes "bad argument #1 to 'resume' (coroutine expected)")) args

/-! ### Closing -/

/-- `lua_close` clears the coroutine. -/
def closes (threads : ThreadId → ThreadState) (current co : ThreadId) : Bool :=
  if co = current then false
  else
    match (threads co).status with
    | ThreadStatus.normal => false
    | _ => true

/-- What `lua_close` does to other threads. -/
def luaCloseEffects (args : List Value) : List ThreadEffect :=
  match args with
  | Value.thread co :: _ => [ThreadEffect.close co]
  | _ => []

/-- A refused close leaves all threads as they are. -/
theorem luaClose_refused {d : Driver} {current co : ThreadId}
    (h : closes d.threads current co = false) (args : List Value) :
    applyEffects current d (luaCloseEffects (Value.thread co :: args)) = d := by
  show ThreadEffect.apply current d (ThreadEffect.close co) = d
  unfold closes at h
  unfold ThreadEffect.apply
  by_cases heq : co = current
  · exact if_pos heq
  · rw [if_neg heq] at h
    simp only [if_neg heq]
    have hclose : (d.threads co).close = d.threads co := by
      unfold ThreadState.close
      split
      · rfl
      · next hnormal =>
          split at h
          · next hs => exact absurd hs hnormal
          · exact absurd h (by simp)
    rw [hclose]
    unfold Driver.setThread
    rw [Function.update_eq_self]

/-- A refused resume returns `false` and the reason at once. -/
theorem luaResume_refused {threads : ThreadId → ThreadState} {current co : ThreadId}
    (h : unresumableReason threads current co ≠ none) (args : List Value) :
    ∃ msg, luaResume threads current (Value.thread co :: args) =
      NativeOutcome.ok CallbackAction.ret [Value.boolean false, Value.string msg] := by
  obtain ⟨msg, hmsg⟩ := Option.ne_none_iff_exists'.1 h
  exact ⟨msg, by simp only [luaResume, hmsg]⟩

/-! ### Where the body of a coroutine is -/

/-- The body has not started. -/
def Unstarted (ts : ThreadState) : Prop := ∃ f, ts.frames = [Frame.start f]

/-- The body is parked in a yield. -/
def Parked (ts : ThreadState) : Prop := ts.yieldBottom ≠ none

/-- The body waits for a coroutine it resumed. -/
def Awaits (ts : ThreadState) : Prop :=
  ∃ wt rest, ts.frames = Frame.waitThread wt :: rest

/-- The body has returned, has raised an error, or has been closed: it has no frame, nothing
pending, and is not parked. -/
def Ended (ts : ThreadState) : Prop :=
  ts.frames = [] ∧ ts.pendingAction = none ∧ ts.yieldBottom = none

end Tcvm
