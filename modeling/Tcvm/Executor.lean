/-
# The executor

`Executor::step` drives a stack of threads: it hands the values of a thread that has finished or
yielded to the thread below it, drains the action a native callback has requested, and pumps the
top frame.  One iteration of its loop is a function here; what bytecode, native callbacks and
sequences do is read from a choice.  An `unreachable!` or an `expect` of the executor is kept
apart from an index past the end of a stack.

## Main definitions

* `Driver` — an executor that is being stepped, with all threads;
* `DriveOutcome` — how an iteration ends;
* `scheduleCallAt`, `scheduleThreadResume` — call a function, switch to a coroutine;
* `applyPendingAction`, `pumpSequence`, `propagateInnerToResumer`, `unwindError` — the arms of the
  loop;
* `Instr` — an instruction, by what it does to a thread;
* `iterate` — one iteration.
-/

import Tcvm.ResultLanding

namespace Tcvm

open StackWindow

/-! ### States and outcomes -/

inductive ExecutorMode
  | stopped
  | normal
  | result
  | yielded
  deriving DecidableEq

/-- The errors the host sees. -/
inductive RuntimeError
  | badMode
  | opcode (pc : ℕ)
  | lua (err : Value)
  deriving DecidableEq

inductive StepResult
  | done
  | yielded (values : List Value)
  | pending
  deriving DecidableEq

/-- An executor that is being stepped: its active threads, the driven one first, and all threads
and captured variables.  Those from `freshThread` and `freshUpvalue` on have not been created. -/
structure Driver where
  threads : ThreadId → ThreadState
  cells : Cells
  freshThread : ThreadId
  freshUpvalue : UpvalueId
  threadStack : List ThreadId
  mode : ExecutorMode

/-- How an iteration of the loop ends. -/
inductive DriveOutcome
  | next (d : Driver)
  | finish (r : StepResult) (d : Driver)
  | error (e : RuntimeError) (d : Driver)
  /-- An `unreachable!` or an `expect`. -/
  | unreachable
  /-- An index past the end of a stack, or a continuation without a frame. -/
  | panic

namespace Driver

def setThread (d : Driver) (t : ThreadId) (ts : ThreadState) : Driver :=
  { d with threads := Function.update d.threads t ts }

@[simp] theorem setThread_self (d : Driver) (t : ThreadId) (ts : ThreadState) :
    (d.setThread t ts).threads t = ts := by
  simp only [setThread, Function.update_self]

theorem setThread_of_ne (d : Driver) {t t' : ThreadId} (h : t' ≠ t) (ts : ThreadState) :
    (d.setThread t ts).threads t' = d.threads t' := by
  simp only [setThread, Function.update_of_ne h]

/-- Replace a thread, and the captured variables. -/
def store (d : Driver) (t : ThreadId) (ts : ThreadState) (cells : Cells) : Driver :=
  { d.setThread t ts with cells := cells }

/-- Continue with a thread that has been updated, unless an index was past the end. -/
def continueWith (d : Driver) (t : ThreadId) (r : Option ThreadState) : DriveOutcome :=
  match r with
  | some ts => DriveOutcome.next (d.setThread t ts)
  | none => DriveOutcome.panic

end Driver

/-! ### The coroutine library -/

/-- What a native callback does to other threads. -/
inductive ThreadEffect
  /-- `coroutine.create` and `coroutine.wrap`. -/
  | create (f : FunctionId)
  | close (co : ThreadId)
  deriving DecidableEq

/-- A thread that has been created for a function. -/
def ThreadState.created (handle : ThreadId) (f : FunctionId) : ThreadState :=
  { ThreadState.new handle with frames := [Frame.start f], status := ThreadStatus.suspended }

/-- `lua_close`, on a thread that is not running. -/
def ThreadState.close (ts : ThreadState) : ThreadState :=
  match ts.status with
  | ThreadStatus.normal => ts
  | _ =>
      { ts with
        stack := [], frames := [], openUpvalues := [], tbcSlots := [], pendingAction := none
        yieldBottom := none, status := ThreadStatus.stopped }

/-- A callback that runs on `current` affects other threads. -/
def ThreadEffect.apply (current : ThreadId) (d : Driver) : ThreadEffect → Driver
  | create f =>
      { d.setThread d.freshThread (ThreadState.created d.freshThread f) with
        freshThread := d.freshThread + 1 }
  | close co => if co = current then d else d.setThread co (d.threads co).close

def applyEffects (current : ThreadId) (d : Driver) (effects : List ThreadEffect) : Driver :=
  effects.foldl (ThreadEffect.apply current) d

/-- A function that is called, with what it does to other threads if it is native. -/
structure Callee where
  target : CallTarget
  effects : List ThreadEffect

/-- A Lua function does nothing to other threads by being called. -/
def Callee.applied (c : Callee) (current : ThreadId) (d : Driver) : Driver :=
  match c.target with
  | CallTarget.lua _ => d
  | CallTarget.native _ => applyEffects current d c.effects

/-! ### Calls -/

/-- Insert the function below its arguments. -/
def insertFunction (ts : ThreadState) (slot : ℕ) (f : FunctionId) : Option ThreadState :=
  if slot ≤ ts.stack.length then
    some (ts.setStack (ts.stack.take slot ++ Value.function f :: ts.stack.drop slot))
  else none

/-- `schedule_call_at`: the function is at `slot`, with its arguments above. -/
def scheduleCallAt (ts : ThreadState) (slot : ℕ) (target : CallTarget) (callerReturns : ℕ) :
    Option ThreadState :=
  let argsBase := slot + 1
  match target with
  | CallTarget.lua closure =>
      pushCall ts closure argsBase (ts.stack.length - argsBase) callerReturns none
  | CallTarget.native f =>
      let r := invokeNative ts argsBase (ts.stack.length - argsBase) f
      match r.2 with
      | NativeOutcome.error err _ => some (r.1.push (Frame.error err))
      | NativeOutcome.ok CallbackAction.ret _ =>
          let retc := r.1.stack.length - argsBase
          (copy? r.1.stack slot argsBase retc).map fun s => r.1.setStack (s.take (slot + retc))
      | NativeOutcome.ok action _ =>
          some
            { r.1 with
              pendingAction := some
                { action := action
                  callSite :=
                    { bottom := argsBase, funcIdx := slot, returns := callerReturns
                      cont := none } } }

/-- Insert a function at `slot` and call it. -/
def callAt (ts : ThreadState) (slot : ℕ) (f : FunctionId) (target : CallTarget)
    (callerReturns : ℕ) : Option ThreadState :=
  (insertFunction ts slot f).bind fun ts' => scheduleCallAt ts' slot target callerReturns

/-! ### Switching threads -/

/-- The thread waits for another one, and its arguments have been drained. -/
def ThreadState.waiting (ts : ThreadState) (argsBottom : ℕ) (wt : CallSite) : ThreadState :=
  { ts with
    stack := ts.stack.take argsBottom, frames := Frame.waitThread wt :: ts.frames
    status := ThreadStatus.normal }

/-- The target of a resume gets the arguments and runs; `none` is a thread that cannot be
resumed, `some none` an index past the end. -/
def ThreadState.resumeWith (ts : ThreadState) (args : List Value) :
    Option (Option ThreadState) :=
  match ts.status with
  | ThreadStatus.suspended =>
      match ts.frames with
      | Frame.start _ :: _ => some (some { ts with stack := args, status := ThreadStatus.normal })
      | _ =>
          ts.yieldBottom.map fun y =>
            landResumed
              { ts with stack := ts.stack.take y.bottom ++ args, yieldBottom := none } y
  | _ => none

/-- `schedule_thread_resume`. -/
def scheduleThreadResume (d : Driver) (resumer target : ThreadId) (argsBottom : ℕ)
    (wt : CallSite) : DriveOutcome :=
  let rs := d.threads resumer
  if argsBottom ≤ rs.stack.length then
    let d' := d.setThread resumer (rs.waiting argsBottom wt)
    match (d'.threads target).resumeWith (rs.stack.drop argsBottom) with
    | some (some ts) =>
        DriveOutcome.next { d'.setThread target ts with threadStack := target :: d'.threadStack }
    | some none => DriveOutcome.panic
    -- the resumer is left waiting
    | none => DriveOutcome.error RuntimeError.badMode d'
  else DriveOutcome.panic

/-- Push the sequence that follows an action, if there is one. -/
def pushThen (ts : ThreadState) (andThen : Option Sequence) (cs : CallSite) : ThreadState :=
  match andThen with
  | some seq => ts.push (Frame.sequence seq cs none)
  | none => ts

/-- `apply_pending_action`. -/
def applyPendingAction (d : Driver) (top : ThreadId) (p : PendingAction) (callee : Callee) :
    DriveOutcome :=
  let ts := d.threads top
  let cs := p.callSite
  match p.action with
  | CallbackAction.ret => DriveOutcome.unreachable
  | CallbackAction.sequence seq =>
      DriveOutcome.next (d.setThread top (ts.push (Frame.sequence seq cs none)))
  | CallbackAction.call f andThen =>
      (callee.applied top d).continueWith top
        (callAt (pushThen ts andThen cs) cs.bottom f callee.target cs.returns)
  | CallbackAction.yield andThen =>
      DriveOutcome.next (d.setThread top
        { pushThen ts andThen cs with
          yieldBottom := some cs, status := ThreadStatus.suspended })
  | CallbackAction.resume target andThen =>
      scheduleThreadResume (d.setThread top (pushThen ts andThen cs)) top target cs.bottom cs

/-- `propagate_inner_to_resumer`: the values of `inner` from `bottom` on go to the thread below
it. -/
def propagateInnerToResumer (d : Driver) (inner : ThreadId) (below : List ThreadId)
    (bottom : ℕ) (innerYielded : Bool) : DriveOutcome :=
  let ts := d.threads inner
  if bottom ≤ ts.stack.length then
    let d' :=
      { (if innerYielded then d else d.setThread inner (ts.setStack [])) with
        threadStack := below }
    match below with
    | [] => DriveOutcome.unreachable
    | resumer :: _ =>
        let rs := d'.threads resumer
        match rs.frames with
        | Frame.waitThread wt :: rest =>
            d'.continueWith resumer
              (landPropagated
                { rs with
                  frames := rest, stack := rs.stack.take wt.bottom ++ ts.stack.drop bottom }
                wt)
        | _ => DriveOutcome.unreachable
  else DriveOutcome.panic

/-! ### Sequences -/

inductive SequencePoll
  | pending
  | ret
  | call (function : FunctionId) (bottom : ℕ)
  | yield (bottom : ℕ)
  | resume (thread : ThreadId) (bottom : ℕ)
  | tailCall (function : FunctionId)
  | tailYield
  | tailResume (thread : ThreadId)
  deriving DecidableEq

/-- What polling a sequence does: it requests an action or fails, leaves values in its window, and
moves to its next state. -/
inductive PollOutcome
  | ok (poll : SequencePoll) (window : List Value) (next : Sequence)
  | error (err : Value) (window : List Value)

/-- The window a poll leaves. -/
def PollOutcome.window : PollOutcome → List Value
  | ok _ w _ => w
  | error _ w => w

/-- `poll` and `error` of a sequence, on its window: the two sequences of the coroutine library,
and a choice for the others. -/
def pollSequence (seq : Sequence) (pendingError : Option Value) (window : List Value)
    (choice : PollOutcome) : PollOutcome :=
  match seq, pendingError with
  | Sequence.pcall, none =>
      PollOutcome.ok SequencePoll.ret (Value.boolean true :: window) Sequence.pcall
  | Sequence.pcall, some err =>
      PollOutcome.ok SequencePoll.ret [Value.boolean false, err] Sequence.pcall
  | Sequence.unwrapResume, none =>
      PollOutcome.ok SequencePoll.ret window Sequence.unwrapResume
  | Sequence.unwrapResume, some err => PollOutcome.error err window
  | Sequence.other _, _ => choice

/-- `SequencePoll::TailCall`: the arguments move down to the call's slot. -/
def compactArgs (ts : ThreadState) (cs : CallSite) (f : FunctionId) : Option ThreadState :=
  let argc := ts.stack.length - cs.bottom
  let newArgsBase := cs.funcIdx + 1
  let moved :=
    if newArgsBase < cs.bottom then
      (copy? ts.stack newArgsBase cs.bottom argc).map fun s => s.take (newArgsBase + argc)
    else some ts.stack
  moved.bind fun s => (set? s cs.funcIdx (Value.function f)).map ts.setStack

/-- `pump_sequence`: `ts` is the thread without the frame of the sequence. -/
def pumpSequence (d : Driver) (top : ThreadId) (ts : ThreadState) (seq : Sequence)
    (cs : CallSite) (pendingError : Option Value) (choice : PollOutcome) (callee : Callee) :
    DriveOutcome :=
  if cs.bottom ≤ ts.stack.length then
    let out := pollSequence seq pendingError (ts.stack.drop cs.bottom) choice
    let polled := ts.setStack (ts.stack.take cs.bottom ++ out.window)
    match out with
    | PollOutcome.error err _ => DriveOutcome.next (d.setThread top (polled.push (Frame.error err)))
    | PollOutcome.ok poll _ seq' =>
        let again := polled.push (Frame.sequence seq' cs none)
        match poll with
        | SequencePoll.pending => DriveOutcome.finish StepResult.pending (d.setThread top again)
        | SequencePoll.ret => d.continueWith top (landCallResults polled cs)
        | SequencePoll.call f bottom =>
            (callee.applied top d).continueWith top
              (callAt again (cs.bottom + bottom) f callee.target 0)
        | SequencePoll.tailCall f =>
            (callee.applied top d).continueWith top
              ((compactArgs polled cs f).bind fun ts' =>
                scheduleCallAt ts' cs.funcIdx callee.target cs.returns)
        | SequencePoll.yield bottom =>
            DriveOutcome.next (d.setThread top
              { again with
                yieldBottom := some { cs with bottom := cs.bottom + bottom }
                status := ThreadStatus.suspended })
        | SequencePoll.tailYield =>
            DriveOutcome.next (d.setThread top
              { polled with yieldBottom := some cs, status := ThreadStatus.suspended })
        | SequencePoll.resume target bottom =>
            scheduleThreadResume (d.setThread top again) top target (cs.bottom + bottom) cs
        | SequencePoll.tailResume target =>
            scheduleThreadResume (d.setThread top polled) top target cs.bottom cs
  else DriveOutcome.panic

/-! ### Errors -/

/-- How unwinding the frames of a thread ends. -/
inductive Unwound
  | caught (ts : ThreadState) (cells : Cells)
  | uncaught (ts : ThreadState) (cells : Cells)
  | unreachable
  | panic

/-- Leave the frames of a thread, up to a sequence that catches the error. -/
def unwindFrames (err : Value) : List Frame → ThreadState → Cells → Unwound
  | [], ts, cells => Unwound.uncaught { ts with frames := [] } cells
  | Frame.lua lf :: rest, ts, cells =>
      match closeUpvalues ts cells lf.base with
      | some r =>
          unwindFrames err rest
            ((closeTbcVars r.1 lf.base).setStack (r.1.stack.take lf.base)) r.2
      | none => Unwound.panic
  | Frame.sequence seq cs _ :: rest, ts, cells =>
      Unwound.caught { ts with frames := Frame.sequence seq cs (some err) :: rest } cells
  | Frame.waitThread _ :: rest, ts, cells => unwindFrames err rest ts cells
  | Frame.start _ :: _, _, _ => Unwound.unreachable
  | Frame.error _ :: _, _, _ => Unwound.unreachable

/-- `unwind_error`: the error frame is on top of `frames`. -/
def unwindError (d : Driver) (top : ThreadId) (below : List ThreadId) (err : Value)
    (frames : List Frame) : DriveOutcome :=
  match unwindFrames err frames (d.threads top) d.cells with
  | Unwound.caught ts cells => DriveOutcome.next (d.store top ts cells)
  | Unwound.unreachable => DriveOutcome.unreachable
  | Unwound.panic => DriveOutcome.panic
  | Unwound.uncaught ts cells =>
      let d' := d.store top ts cells
      match below with
      | [] => DriveOutcome.error (RuntimeError.lua err) d'
      | resumer :: _ =>
          let rs := d'.threads resumer
          match rs.frames with
          | Frame.waitThread _ :: rest =>
              DriveOutcome.next
                { d'.setThread resumer
                    { rs with
                      frames := Frame.error err :: rest, status := ThreadStatus.normal } with
                  threadStack := below }
          | _ => DriveOutcome.unreachable

/-! ### Instructions -/

/-- An instruction of the frame on top. -/
inductive Instr
  /-- Write registers of a stack that may get longer, and `top` if values of a variable number are
  among them. -/
  | registers (size : ℕ) (writes : List (ℕ × Value)) (top : Option ℕ) (pc : ℕ)
  | getUpvalue (dst : ℕ) (uv : UpvalueId) (pc : ℕ)
  | setUpvalue (uv : UpvalueId) (v : Value) (pc : ℕ)
  /-- Capture registers for a closure. -/
  | closure (dst : ℕ) (f : FunctionId) (captures : List ℕ) (pc : ℕ)
  | varargPrep (pc : ℕ)
  | setlist (table count pc : ℕ)
  | close (start pc : ℕ)
  | tbc (val pc : ℕ)
  /-- The instruction raises an error of its own. -/
  | raise
  | call (ip func nargs returns : ℕ) (callee : Callee)
  | tailcall (func nargs : ℕ) (callee : Callee)
  | ret (values count : ℕ)
  | metamethod (ip : ℕ) (metaFn : Value) (args : List Value) (payload : ContinuationPayload)
      (callee : Callee) (crossing : Value)

/-- The thread goes on at `pc`. -/
def Driver.goOn (d : Driver) (top : ThreadId) (ts : ThreadState) (pc : ℕ) : DriveOutcome :=
  DriveOutcome.next (d.setThread top (ts.savePc pc))

/-- What the executor makes of a handler: between instructions, the program counter is kept in the
frame. -/
def Driver.afterHandler (d : Driver) (top : ThreadId) (r : VmResult) : DriveOutcome :=
  match r with
  | some (Flow.dispatch pc, ts, cells) => DriveOutcome.next (d.store top (ts.savePc pc) cells)
  | some (Flow.exit, ts, cells) => DriveOutcome.next (d.store top ts cells)
  | some (Flow.raise, ts, cells) =>
      DriveOutcome.error (RuntimeError.opcode 0) (d.store top ts cells)
  | none => DriveOutcome.panic

/-- `read_upvalue`. -/
def readUpvalue (d : Driver) (uv : UpvalueId) : Option Value :=
  match d.cells uv with
  | UpvalueState.closed v => some v
  | UpvalueState.openAt t index => (d.threads t).stack[index]?

/-- `write_upvalue`. -/
def writeUpvalue (d : Driver) (uv : UpvalueId) (v : Value) : Option Driver :=
  match d.cells uv with
  | UpvalueState.closed _ =>
      some { d with cells := Function.update d.cells uv (UpvalueState.closed v) }
  | UpvalueState.openAt t index =>
      (set? (d.threads t).stack index v).map fun s => d.setThread t ((d.threads t).setStack s)

/-- A variable of `op_closure`: the slot is captured already, or by a new variable. -/
def captureSlot (top : ThreadId) (d : Driver) (slot : ℕ) : Driver :=
  let ts := d.threads top
  match ts.openUpvalues.find? fun uv =>
      match d.cells uv with
      | UpvalueState.openAt _ index => index = slot
      | UpvalueState.closed _ => false with
  | some _ => d
  | none =>
      { d.store top { ts with openUpvalues := ts.openUpvalues ++ [d.freshUpvalue] }
          (Function.update d.cells d.freshUpvalue
            (UpvalueState.openAt ts.threadHandle slot)) with
        freshUpvalue := d.freshUpvalue + 1 }

/-- `VARARGPREP`: the parameters move behind the extra arguments. -/
def varargPrep (ts : ThreadState) (f : LuaFrame) : ThreadState :=
  if 0 < f.numExtras then
    let numParams := f.closure.proto.numParams
    let block := (ts.stack.drop f.base).take (f.numExtras + numParams)
    let s := overwrite ts.stack f.base (block.drop numParams ++ block.take numParams)
    let newBase := f.base + f.numExtras
    (ts.setStack (grow s (newBase + f.closure.proto.maxStackSize) Value.nil)).setTopLua
      { f with base := newBase }
  else ts

/-- `SETLIST`: values are read for the table, and after a variable number of them the window is
restored. -/
def opSetlist (ts : ThreadState) (f : LuaFrame) (table count : ℕ) : Option ThreadState :=
  let start := f.base + table + 1
  let stop := if count = 0 then ts.top else start + count
  if start ≤ stop ∧ InBounds ts.stack start (stop - start) then
    some (if count = 0 then ts.setStack (grow ts.stack f.windowEnd Value.nil) else ts)
  else none

theorem opSetlist_spec {ts ts' : ThreadState} {f : LuaFrame} {table count : ℕ}
    (h : opSetlist ts f table count = some ts') :
    ∃ s, ts' = ts.setStack s ∧ ts.stack.length ≤ s.length := by
  obtain ⟨-, heq⟩ := Option.ite_none_right_eq_some.1 h
  obtain rfl := Option.some.inj heq
  split
  · exact ⟨_, rfl, by rw [length_grow]; exact Nat.le_max_left _ _⟩
  · exact ⟨_, rfl, Nat.le_refl _⟩

/-- One instruction of the frame `f`. -/
def execInstr (d : Driver) (top : ThreadId) (f : LuaFrame) (instr : Instr) : DriveOutcome :=
  let ts := d.threads top
  match instr with
  | Instr.registers size writes top' pc =>
      d.goOn top
        { ts with
          stack := writes.foldl (fun s w => s.set w.1 w.2) (grow ts.stack size Value.nil)
          top := top'.getD ts.top }
        pc
  | Instr.getUpvalue dst uv pc =>
      match readUpvalue d uv with
      | some v => d.goOn top (ts.setStack (ts.stack.set (f.base + dst) v)) pc
      | none => DriveOutcome.panic
  | Instr.setUpvalue uv v pc =>
      match writeUpvalue d uv v with
      | some d' => d'.goOn top (d'.threads top) pc
      | none => DriveOutcome.panic
  | Instr.closure dst g captures pc =>
      let d' := (captures.map (f.base + ·)).foldl (captureSlot top) d
      d'.goOn top
        ((d'.threads top).setStack ((d'.threads top).stack.set (f.base + dst) (Value.function g)))
        pc
  | Instr.varargPrep pc => d.goOn top (varargPrep ts f) pc
  | Instr.setlist table count pc =>
      match opSetlist ts f table count with
      | some ts' => d.goOn top ts' pc
      | none => DriveOutcome.panic
  | Instr.close start pc =>
      match closeUpvalues ts d.cells (f.base + start) with
      | some r =>
          DriveOutcome.next (d.store top ((closeTbcVars r.1 (f.base + start)).savePc pc) r.2)
      | none => DriveOutcome.panic
  | Instr.tbc val pc => d.goOn top { ts with tbcSlots := ts.tbcSlots ++ [f.base + val] } pc
  | Instr.raise => DriveOutcome.error (RuntimeError.opcode 0) d
  | Instr.call ip func nargs returns callee =>
      (callee.applied top d).afterHandler top
        (opCall ts d.cells ip func nargs returns callee.target)
  | Instr.tailcall func nargs callee =>
      (callee.applied top d).afterHandler top (opTailcall ts d.cells func nargs callee.target)
  | Instr.ret values count => d.afterHandler top (opReturn ts d.cells values count)
  | Instr.metamethod ip metaFn args payload callee crossing =>
      (callee.applied top d).afterHandler top
        (invokeMetamethod ts d.cells ip metaFn args { payload := payload } callee.target crossing)

/-! ### The loop -/

/-- What bytecode, native callbacks and sequences do in an iteration. -/
structure Choice where
  instr : Instr
  callee : Callee
  poll : PollOutcome

/-- A native callback with a fixed outcome is called, and nothing else is chosen. -/
def Choice.ofNative (out : NativeOutcome) : Choice :=
  { instr := Instr.raise
    callee := { target := CallTarget.native fun _ => out, effects := [] }
    poll := PollOutcome.error Value.nil [] }

/-- The arm of `Frame::Start`: `rest` are the frames below it. -/
def startFrame (d : Driver) (top : ThreadId) (f : FunctionId) (rest : List Frame)
    (callee : Callee) : DriveOutcome :=
  let ts := d.threads top
  (callee.applied top d).continueWith top
    ((callAt { ts with frames := rest } 0 f callee.target 0).map fun ts' =>
      if ts'.frames = [] ∧ ts'.pendingAction = none then
        { ts' with status := ThreadStatus.result 0 }
      else { ts' with status := ThreadStatus.normal })

/-- Pump the top frame. -/
def pumpFrame (d : Driver) (top : ThreadId) (below : List ThreadId) (c : Choice) : DriveOutcome :=
  let ts := d.threads top
  match ts.frames with
  | [] => DriveOutcome.unreachable
  | Frame.lua f :: _ => execInstr d top f c.instr
  | Frame.sequence seq cs pendingError :: rest =>
      pumpSequence d top { ts with frames := rest } seq cs pendingError c.poll c.callee
  | Frame.start f :: rest => startFrame d top f rest c.callee
  | Frame.waitThread _ :: _ => DriveOutcome.unreachable
  | Frame.error err :: rest => unwindError d top below err rest

/-- Drain a pending action, or pump the top frame. -/
def drive (d : Driver) (top : ThreadId) (below : List ThreadId) (c : Choice) : DriveOutcome :=
  let ts := d.threads top
  match ts.pendingAction with
  | some p =>
      applyPendingAction (d.setThread top { ts with pendingAction := none }) top p c.callee
  | none => pumpFrame d top below c

/-- One iteration of the loop of `step`. -/
def iterate (d : Driver) (c : Choice) : DriveOutcome :=
  match d.threadStack with
  | [] => DriveOutcome.unreachable
  | [top] =>
      let ts := d.threads top
      match ts.status with
      | ThreadStatus.result _ =>
          DriveOutcome.finish StepResult.done { d with mode := ExecutorMode.result }
      | ThreadStatus.stopped => DriveOutcome.error RuntimeError.badMode d
      | ThreadStatus.suspended =>
          match ts.yieldBottom with
          | some y =>
              if y.bottom ≤ ts.stack.length then
                DriveOutcome.finish (StepResult.yielded (ts.stack.drop y.bottom))
                  { d with mode := ExecutorMode.yielded }
              else DriveOutcome.panic
          | none => drive d top [] c
      | ThreadStatus.normal => drive d top [] c
  | top :: below =>
      let ts := d.threads top
      match ts.status with
      | ThreadStatus.result bottom => propagateInnerToResumer d top below bottom false
      | ThreadStatus.suspended =>
          propagateInnerToResumer d top below ((ts.yieldBottom.map CallSite.bottom).getD 0) true
      | ThreadStatus.stopped => DriveOutcome.error RuntimeError.badMode d
      | ThreadStatus.normal => drive d top below c

end Tcvm
