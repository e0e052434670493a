/-
# Calls and returns of the interpreter

The instructions that transfer control between frames, as functions on a thread and the captured
variables.  An index past the end of the stack and an `unwrap` of nothing are `none`; the native
callbacks that are called are parameters, given by what they do with their window of the stack.

## Main definitions

* `Flow`, `VmResult` — how a handler ends;
* `invokeNative` — run a native callback on its window;
* `landValues` — the two loops that place values and pad with nil;
* `opCall`, `opCallReturn` — `CALL`, and the results of a native that returned at once;
* `frameReturn`, `deliverReturn` — leave a frame with its values;
* `applyContPayload`, `contResume` — the fixup of a metamethod or an iterator;
* `opTailcall`, `opReturn` — `TAILCALL` and `RETURN`;
* `scheduleMetaCall`, `invokeMetamethod` — call a metamethod with a continuation.

## Main results

* `leaveFrame_eq`, `leaveFrame_eq_none` — a frame can be left exactly when what it captured is on
  the stack;
* `landValues_eq_some_iff` — placing values succeeds exactly when they are on the stack and the
  padding fits, and is one block write.
-/

import Tcvm.ThreadState

namespace Tcvm

open StackWindow

/-! ### Handlers -/

/-- How a handler ends: it dispatches the instruction at `ip`, returns to the executor, or raises
an error there. -/
inductive Flow
  | dispatch (ip : ℕ)
  | exit
  | raise
  deriving DecidableEq

abbrev VmResult := Option (Flow × ThreadState × Cells)

/-- A cast to `u8`. -/
def asU8 (n : ℕ) : ℕ := n % 256

/-- Offset an instruction pointer. -/
def offsetPc (pc : ℕ) (offset : ℤ) : ℕ := ((pc : ℤ) + offset).toNat

namespace ThreadState

/-- Pop the top frame. -/
def pop (ts : ThreadState) : ThreadState := { ts with frames := ts.frames.tail }

/-- Store the program counter in the top frame, if it runs bytecode. -/
def savePc (ts : ThreadState) (pc : ℕ) : ThreadState :=
  match ts.topLua with
  | some lf => ts.setTopLua { lf with pc := pc }
  | none => ts

end ThreadState

/-! ### Native callbacks -/

/-- What a native callback does: it requests an action or fails, and leaves values in its
window. -/
inductive NativeOutcome
  | ok (action : CallbackAction) (window : List Value)
  | error (err : Value) (window : List Value)

/-- The window a callback leaves. -/
def NativeOutcome.window : NativeOutcome → List Value
  | ok _ w => w
  | error _ w => w

/-- A native callback, as a function of its arguments. -/
abbrev NativeFn := List Value → NativeOutcome

/-- The resolved target of a call. -/
inductive CallTarget
  | lua (closure : LuaClosure)
  | native (f : NativeFn)

/-- `invoke_native`: the stack is clipped to the arguments, and ends after the window the callback
leaves. -/
def invokeNative (ts : ThreadState) (argsBase argc : ℕ) (f : NativeFn) :
    ThreadState × NativeOutcome :=
  let s := resize ts.stack (argsBase + argc) Value.nil
  let out := f (s.drop argsBase)
  (ts.setStack (s.take argsBase ++ out.window), out)

/-- The number of arguments: `0` stands for all values up to `top`. -/
def argCount (ts : ThreadState) (argsBase nargs : ℕ) : ℕ :=
  if nargs = 0 then ts.top - argsBase else nargs - 1

/-! ### Placing values -/

/-- Copy the first values at `src` to `dst`, and write nil for the missing ones. -/
def landValues (s : List Value) (dst src retc wanted : ℕ) : Option (List Value) :=
  (copy? s dst src (min retc wanted)).bind fun s' =>
    fill? Value.nil s' (dst + min retc wanted) (wanted - min retc wanted)

/-- The extra arguments of a call of a vararg function. -/
def extraArgs (closure : LuaClosure) (nargs : ℕ) : ℕ :=
  if closure.proto.isVararg then nargs - closure.proto.numParams else 0

/-- Write nil to the parameters that got no argument. -/
def padParams (s : List Value) (base nargs numParams : ℕ) : Option (List Value) :=
  fill? Value.nil s (base + nargs) (numParams - nargs)

/-! ### `CALL` -/

/-- The results of a native callback that returned at once. -/
def opCallReturn (ts : ThreadState) (funcIdx returns : ℕ) : Option ThreadState :=
  let argsBase := funcIdx + 1
  let retc := ts.stack.length - argsBase
  if returns = 0 then
    (landValues ts.stack funcIdx argsBase retc retc).map fun s =>
      { ts with stack := s.take (funcIdx + retc), top := funcIdx + retc }
  else
    -- the window is restored before the results are written
    (landValues ts.restoreWindow.stack funcIdx argsBase retc (returns - 1)).map ts.setStack

/-- Push the frame of a Lua callee at `base`, over a stack that reaches its window. -/
def pushCall (ts : ThreadState) (closure : LuaClosure) (base nargs returns : ℕ)
    (cont : Option Continuation) : Option ThreadState :=
  let s := grow ts.stack (base + closure.proto.maxStackSize) Value.nil
  (padParams s base nargs closure.proto.numParams).map fun s' =>
    (ts.setStack s').push (Frame.lua
      { closure := closure, base := base, pc := 0, numResults := returns
        numExtras := extraArgs closure nargs, continuation := cont })

/-- `op_call`, once the callee is resolved. -/
def opCall (ts : ThreadState) (cells : Cells) (ip func nargs returns : ℕ) (target : CallTarget) :
    VmResult :=
  let base := (ts.topLua.map LuaFrame.base).getD 0
  let funcIdx := base + func
  match target with
  | CallTarget.lua closure =>
      (pushCall (ts.savePc ip) closure (funcIdx + 1) (argCount ts (funcIdx + 1) nargs) returns
        none).map fun ts' => (Flow.dispatch 0, ts', cells)
  | CallTarget.native f =>
      let r := invokeNative ts (funcIdx + 1) (argCount ts (funcIdx + 1) nargs) f
      match r.2 with
      | NativeOutcome.error err _ =>
          some (Flow.exit, (r.1.savePc ip).push (Frame.error err), cells)
      | NativeOutcome.ok CallbackAction.ret _ =>
          (opCallReturn r.1 funcIdx returns).map fun ts' => (Flow.dispatch ip, ts', cells)
      | NativeOutcome.ok action _ =>
          some (Flow.exit,
            { r.1.savePc ip with
              pendingAction := some
                { action := action
                  callSite :=
                    { bottom := funcIdx + 1, funcIdx := funcIdx, returns := returns
                      cont := none } } },
            cells)

/-! ### Leaving a frame -/

/-- What happens after a frame has returned. -/
inductive FrameReturn
  | continuation
  | topLevel
  | caller (newBase newPc : ℕ)
  | toNonLua
  deriving DecidableEq

/-- Deliver the values of a frame that has been popped, to the frame below it. -/
def deliverReturn (ts : ThreadState) (f : LuaFrame) (valuesBase nret : ℕ) :
    Option (FrameReturn × ThreadState) :=
  let dst := f.funcSlot
  match ts.frames with
  | [] =>
      (copy? ts.stack dst valuesBase nret).map fun s =>
        (FrameReturn.topLevel,
          { ts with stack := s.take (dst + nret), status := ThreadStatus.result dst })
  | Frame.lua caller :: _ =>
      if f.numResults = 0 then
        (copy? ts.stack dst valuesBase nret).map fun s =>
          (FrameReturn.caller caller.base caller.pc, { ts with stack := s, top := dst + nret })
      else
        (landValues ts.stack dst valuesBase nret (f.numResults - 1)).map fun s =>
          (FrameReturn.caller caller.base caller.pc, ts.setStack s)
  | _ :: _ =>
      -- a single copy: the parent is not bytecode and reads all values
      (copy? ts.stack dst valuesBase nret).map fun s =>
        (FrameReturn.toNonLua, { ts with stack := s.take (dst + nret), top := dst + nret })

/-- Close what a frame captured, and pop it. -/
def leaveFrame (ts : ThreadState) (cells : Cells) (base : ℕ) : Option (ThreadState × Cells) :=
  (closeUpvalues ts cells base).map fun r => ((closeTbcVars r.1 base).pop, r.2)

/-- `frame_return`. -/
def frameReturn (ts : ThreadState) (cells : Cells) (valuesBase nret : ℕ) :
    Option (FrameReturn × ThreadState × Cells) :=
  ts.topLua.bind fun f =>
    match f.continuation with
    | some cont =>
        let cont' := { cont with resultsBase := valuesBase, nret := asU8 nret }
        some (FrameReturn.continuation, ts.setTopLua { f with continuation := some cont' }, cells)
    | none =>
        (leaveFrame ts cells f.base).bind fun r =>
          (deliverReturn r.1 f valuesBase nret).map fun d => (d.1, d.2, r.2)

/-! ### Continuations -/

/-- The first of `nret` values at `resultsBase`, or nil. -/
def firstResult (s : List Value) (resultsBase nret : ℕ) : Option Value :=
  if 0 < nret then s[resultsBase]? else some Value.nil

/-- `apply_cont_payload!`: the registers of the frame at `base` and the instruction pointer after
the fixup. -/
def applyContPayload (s : List Value) (base ip : ℕ) (payload : ContinuationPayload)
    (resultsBase nret : ℕ) : Option (List Value × ℕ) :=
  match payload with
  | ContinuationPayload.storeResult dst =>
      (firstResult s resultsBase nret).bind fun r =>
        (set? s (base + dst) r).map fun s' => (s', ip)
  | ContinuationPayload.ignoreResult => some (s, ip)
  | ContinuationPayload.condJump offset inverted =>
      (firstResult s resultsBase nret).map fun r =>
        (s, if (!r.isFalsy) != inverted then offsetPc ip offset else ip)
  | ContinuationPayload.tforCall reg count =>
      -- asserted in the source: the registers fit in a byte
      if reg + 3 + count ≤ 256 then
        (landValues s (base + (reg + 3)) resultsBase nret count).map fun s' => (s', ip)
      else none

/-- `cont_resume`: leave the metamethod's frame and apply its continuation to the caller. -/
def contResume (ts : ThreadState) (cells : Cells) : VmResult :=
  ts.topLua.bind fun f =>
    f.continuation.bind fun cont =>
      (leaveFrame ts cells f.base).bind fun r =>
        r.1.topLua.bind fun caller =>
          (applyContPayload r.1.stack caller.base caller.pc cont.payload cont.resultsBase
            cont.nret).map fun p => (Flow.dispatch p.2, r.1.setStack p.1, r.2)

/-- After `frame_return`: where the handler continues. -/
def afterReturn (r : FrameReturn × ThreadState × Cells) : VmResult :=
  match r.1 with
  | FrameReturn.continuation => contResume r.2.1 r.2.2
  | FrameReturn.topLevel => some (Flow.exit, r.2.1, r.2.2)
  | FrameReturn.toNonLua => some (Flow.exit, r.2.1, r.2.2)
  | FrameReturn.caller _ newPc => some (Flow.dispatch newPc, r.2.1, r.2.2)

/-! ### `RETURN` and `TAILCALL` -/

/-- `op_return`. -/
def opReturn (ts : ThreadState) (cells : Cells) (values count : ℕ) : VmResult :=
  ts.topLua.bind fun f =>
    let valuesBase := f.base + values
    (frameReturn ts cells valuesBase (argCount ts valuesBase count)).bind afterReturn

/-- `TAILCALL` of a Lua callee: its arguments and its frame replace the current ones. -/
def tailcallLua (ts : ThreadState) (cells : Cells) (f : LuaFrame) (funcIdx nargs : ℕ)
    (closure : LuaClosure) : VmResult :=
  let newBase := f.funcSlot + 1
  (closeUpvalues ts cells newBase).bind fun r =>
    (copy? r.1.stack newBase (funcIdx + 1) nargs).bind fun s =>
      let s' := grow s (newBase + closure.proto.maxStackSize) Value.nil
      (padParams s' newBase nargs closure.proto.numParams).map fun s'' =>
        (Flow.dispatch 0,
          (r.1.setStack s'').setTopLua
            { f with
              closure := closure, pc := 0, base := newBase
              numExtras := extraArgs closure nargs },
          r.2)

/-- `op_tailcall`, once the callee is resolved. -/
def opTailcall (ts : ThreadState) (cells : Cells) (func nargs : ℕ) (target : CallTarget) :
    VmResult :=
  ts.topLua.bind fun f =>
    let funcIdx := f.base + func
    let argsBase := funcIdx + 1
    let argc := argCount ts argsBase nargs
    match target with
    | CallTarget.lua closure => tailcallLua ts cells f funcIdx argc closure
    | CallTarget.native g =>
        let r := invokeNative ts argsBase argc g
        match r.2 with
        | NativeOutcome.error err _ =>
            (leaveFrame r.1 cells f.base).map fun l => (Flow.exit, l.1.push (Frame.error err), l.2)
        | NativeOutcome.ok CallbackAction.ret _ =>
            (frameReturn r.1 cells argsBase (r.1.stack.length - argsBase)).bind afterReturn
        | NativeOutcome.ok action _ =>
            (leaveFrame r.1 cells f.base).map fun l =>
              (Flow.exit,
                { l.1 with
                  pendingAction := some
                    { action := action
                      callSite :=
                        { bottom := argsBase, funcIdx := f.base - 1, returns := f.numResults
                          cont := none } } },
                l.2)

/-! ### Metamethods -/

/-- The native arm of `schedule_meta_call`, and what `invoke_metamethod!` makes of it. -/
def nativeMetaCall (ts : ThreadState) (cells : Cells) (ip : ℕ) (f : NativeFn)
    (cont : Continuation) (callerBase newBase nargs : ℕ) (crossing : Value) : VmResult :=
  let r := invokeNative ts newBase nargs f
  match r.2 with
  | NativeOutcome.error err _ => some (Flow.exit, r.1.push (Frame.error err), cells)
  | NativeOutcome.ok CallbackAction.ret _ =>
      let nret := asU8 (r.1.stack.length - newBase)
      (applyContPayload r.1.stack callerBase ip cont.payload newBase nret).map fun p =>
        (Flow.dispatch p.2, r.1.setStack p.1, cells)
  | NativeOutcome.ok (CallbackAction.call _ _) _ =>
      -- rejected: the continuation cannot follow a call into Lua
      some (Flow.exit, r.1.push (Frame.error crossing), cells)
  | NativeOutcome.ok action _ =>
      some (Flow.exit,
        { r.1 with
          pendingAction := some
            { action := action
              callSite :=
                { bottom := newBase, funcIdx := callerBase, returns := 0, cont := some cont } } },
        cells)

/-- `invoke_metamethod!` with `schedule_meta_call`, once the callee is resolved: the callee and
its arguments are staged above the window of the caller. -/
def invokeMetamethod (ts : ThreadState) (cells : Cells) (ip : ℕ) (metaFn : Value)
    (args : List Value) (cont : Continuation) (target : CallTarget) (crossing : Value) :
    VmResult :=
  (ts.savePc ip).topLua.bind fun caller =>
    let scratch := caller.windowEnd
    let s := grow ts.stack (scratch + 1 + args.length) Value.nil
    let ts' := (ts.savePc ip).setStack (overwrite s scratch (metaFn :: args))
    match target with
    | CallTarget.lua closure =>
        (pushCall ts' closure (scratch + 1) args.length 0 (some cont)).map fun t =>
          (Flow.dispatch 0, t, cells)
    | CallTarget.native f =>
        nativeMetaCall ts' cells ip f cont caller.base (scratch + 1) args.length crossing

/-! ### Leaving a frame, and placing values -/

/-- A frame can be left when what it captured is on the stack: the stack stays, and the frame is
gone. -/
theorem leaveFrame_eq {ts : ThreadState} {cells : Cells} {base : ℕ}
    (h : Closable ts.stack base ts.openUpvalues cells) :
    ∃ ts', leaveFrame ts cells base =
        some (ts', closeCells ts.stack base ts.openUpvalues cells) ∧
      ts'.stack = ts.stack ∧ ts'.frames = ts.frames.tail := by
  obtain ⟨kept, hkept⟩ := (closeUpvalues_spec ts cells base).1 h
  refine ⟨(closeTbcVars { ts with openUpvalues := kept } base).pop, ?_, rfl, rfl⟩
  rw [leaveFrame, hkept, Option.map_some]

theorem leaveFrame_eq_none {ts : ThreadState} {cells : Cells} {base : ℕ}
    (h : ¬ Closable ts.stack base ts.openUpvalues cells) : leaveFrame ts cells base = none := by
  rw [leaveFrame, (closeUpvalues_spec ts cells base).2 h, Option.map_none]

/-- **Placing values** succeeds exactly when the values are on the stack and the padding fits, and
is one block write. -/
theorem landValues_eq_some_iff {s s' : List Value} {dst src retc wanted : ℕ} (hdst : dst ≤ src) :
    landValues s dst src retc wanted = some s' ↔
      InBounds s src (min retc wanted) ∧ (wanted ≤ retc ∨ dst + wanted ≤ s.length) ∧
        s' = overwrite s dst (resize ((s.drop src).take retc) wanted Value.nil) := by
  by_cases hin : InBounds s src (min retc wanted)
  · have hcopy := (copy?_eq_some_iff hdst).2 ⟨hin, rfl⟩
    have hresize : resize ((s.drop src).take retc) wanted Value.nil =
        (s.drop src).take (min retc wanted) ++
          List.replicate (wanted - min retc wanted) Value.nil := by
      rw [resize, List.take_take, List.length_take, List.length_drop, Nat.min_comm wanted retc]
      congr 2
      rcases hin with h | h <;> omega
    have happend : overwrite (overwrite s dst ((s.drop src).take (min retc wanted)))
        (dst + min retc wanted) (List.replicate (wanted - min retc wanted) Value.nil) =
        overwrite s dst (resize ((s.drop src).take retc) wanted Value.nil) := by
      rw [hresize]
      rcases hin with h | h
      · simp only [h, List.take_zero, overwrite_nil, Nat.add_zero, List.nil_append]
      · have hlen : ((s.drop src).take (min retc wanted)).length = min retc wanted := by
          rw [List.length_take, List.length_drop]
          omega
        have hroom : dst + ((s.drop src).take (min retc wanted)).length ≤ s.length := by omega
        have happend := overwrite_append hroom (List.replicate (wanted - min retc wanted) Value.nil)
        rwa [hlen] at happend
    have hfit : (wanted - min retc wanted = 0 ∨
        dst + min retc wanted + (wanted - min retc wanted) ≤ s.length) ↔
        (wanted ≤ retc ∨ dst + wanted ≤ s.length) := by
      constructor <;> rintro (h | h) <;> omega
    rw [landValues, hcopy, Option.bind_some, fill?_eq_some_iff, length_copy? hcopy, happend, hfit,
      and_iff_right hin]
  · rw [landValues, copy?_eq_none hin]
    exact iff_of_false (by simp) fun h => hin h.1

theorem length_landValues {s s' : List Value} {dst src retc wanted : ℕ}
    (h : landValues s dst src retc wanted = some s') : s'.length = s.length := by
  obtain ⟨t, hcopy, hfill⟩ := Option.bind_eq_some_iff.1 h
  exact (length_fill? hfill).trans (length_copy? hcopy)

end Tcvm
