/-
# The host and its executors

The host starts, steps and resumes executors, and takes their results; between two of its calls an
executor runs the loop of `step`.  All executors share the threads, and each drives the main
thread first.

## Main definitions

* `System` — all threads, and the executors, with the one that is being stepped;
* `HostEvent`, `Reply` — the calls of the host, the iterations, and what comes of them;
* `executorMachine` — the machine that reads events; a fault halts it.
-/

import Tcvm.Executor
import Tcvm.Machine

namespace Tcvm

/-- The main thread. -/
def mainThread : ThreadId := 0

/-- The active threads of an executor, the driven one first, and its mode. -/
structure Executor where
  threadStack : List ThreadId
  mode : ExecutorMode

/-- All threads and captured variables, the executors, the newest first, and the position of the
one whose `step` has not returned. -/
structure System where
  threads : ThreadId → ThreadState
  cells : Cells
  freshThread : ThreadId
  freshUpvalue : UpvalueId
  executors : List Executor
  stepping : Option ℕ

/-- No executor has been started. -/
def System.init : System :=
  { threads := ThreadState.new, cells := fun _ => UpvalueState.closed Value.nil
    freshThread := mainThread + 1, freshUpvalue := 0, executors := [], stepping := none }

inductive HostEvent
  | start (f : FunctionId) (args : List Value)
  | step (i : ℕ)
  | iterate (c : Choice)
  | resume (i : ℕ) (args : List Value)
  | takeResult (i : ℕ)

inductive Reply
  | unit
  | finish (r : StepResult)
  | values (vs : List Value)
  | error (e : RuntimeError)
  | unreachable
  | panic
  deriving DecidableEq

namespace System

/-- The executor at a position, with all threads. -/
def driver (s : System) (e : Executor) : Driver :=
  { threads := s.threads, cells := s.cells, freshThread := s.freshThread
    freshUpvalue := s.freshUpvalue, threadStack := e.threadStack, mode := e.mode }

/-- The threads and the executor at position `i` after an iteration. -/
def update (s : System) (i : ℕ) (d : Driver) : System :=
  { s with
    threads := d.threads, cells := d.cells, freshThread := d.freshThread
    freshUpvalue := d.freshUpvalue
    executors := s.executors.set i { threadStack := d.threadStack, mode := d.mode } }

def setThread (s : System) (t : ThreadId) (ts : ThreadState) : System :=
  { s with threads := Function.update s.threads t ts }

def setMode (s : System) (i : ℕ) (e : Executor) (mode : ExecutorMode) : System :=
  { s with executors := s.executors.set i { e with mode := mode } }

end System

/-- The main thread is cleared for a call of a function. -/
def ThreadState.seeded (ts : ThreadState) (f : FunctionId) (args : List Value) : ThreadState :=
  { ts with
    stack := args, frames := [Frame.start f], openUpvalues := [], tbcSlots := []
    status := ThreadStatus.suspended }

/-- `Executor::start`. -/
def startExecutor (s : System) (f : FunctionId) (args : List Value) : System :=
  { s.setThread mainThread ((s.threads mainThread).seeded f args) with
    executors :=
      { threadStack := [mainThread], mode := ExecutorMode.normal } :: s.executors }

/-- `Executor::step`, up to its loop. -/
def enterStep (s : System) (i : ℕ) (e : Executor) : System × Reply :=
  if e.mode = ExecutorMode.normal then ({ s with stepping := some i }, Reply.unit)
  else (s, Reply.error RuntimeError.badMode)

/-- An iteration of the executor at position `i`. -/
def iterateStep (s : System) (i : ℕ) (e : Executor) (c : Choice) : Option System × Reply :=
  match iterate (s.driver e) c with
  | DriveOutcome.next d => (some (s.update i d), Reply.unit)
  | DriveOutcome.finish r d => (some { s.update i d with stepping := none }, Reply.finish r)
  | DriveOutcome.error err d => (some { s.update i d with stepping := none }, Reply.error err)
  | DriveOutcome.unreachable => (none, Reply.unreachable)
  | DriveOutcome.panic => (none, Reply.panic)

/-- `Executor::resume`. -/
def resumeExecutor (s : System) (i : ℕ) (e : Executor) (args : List Value) :
    Option System × Reply :=
  if e.mode = ExecutorMode.yielded then
    match e.threadStack with
    | [] => (none, Reply.unreachable)
    | top :: _ =>
        let ts := s.threads top
        match ts.yieldBottom with
        | none => (none, Reply.unreachable)
        | some cs =>
            match landResumed
                { ts with stack := ts.stack.take cs.bottom ++ args, yieldBottom := none } cs with
            | some ts' =>
                (some ((s.setThread top ts').setMode i e ExecutorMode.normal), Reply.unit)
            | none => (none, Reply.panic)
  else (some s, Reply.error RuntimeError.badMode)

/-- The main thread after its results have been taken. -/
def ThreadState.cleared (ts : ThreadState) : ThreadState :=
  { ts with
    stack := [], frames := [], openUpvalues := [], tbcSlots := []
    status := ThreadStatus.stopped }

/-- `Executor::take_result`. -/
def takeResult (s : System) (i : ℕ) (e : Executor) : System × Reply :=
  if e.mode = ExecutorMode.result then
    ((s.setThread mainThread (s.threads mainThread).cleared).setMode i e ExecutorMode.stopped,
      Reply.values (s.threads mainThread).stack)
  else (s, Reply.error RuntimeError.badMode)

/-- What an event does.  The host calls nothing while an executor is being stepped, and nothing on
an executor it has not started. -/
def stepSystem (s : System) (ev : HostEvent) : Option System × Reply :=
  match s.stepping, ev with
  | none, HostEvent.start f args => (some (startExecutor s f args), Reply.unit)
  | none, HostEvent.step i =>
      match s.executors[i]? with
      | some e => ((enterStep s i e).map some id)
      | none => (some s, Reply.unit)
  | none, HostEvent.resume i args =>
      match s.executors[i]? with
      | some e => resumeExecutor s i e args
      | none => (some s, Reply.unit)
  | none, HostEvent.takeResult i =>
      match s.executors[i]? with
      | some e => ((takeResult s i e).map some id)
      | none => (some s, Reply.unit)
  | some i, HostEvent.iterate c =>
      match s.executors[i]? with
      | some e => iterateStep s i e c
      | none => (some s, Reply.unit)
  | _, _ => (some s, Reply.unit)

/-- The machine of the host and its executors; `none` is a halted one. -/
def executorMachine : Machine (Option System) HostEvent Reply where
  step s ev :=
    match s with
    | some s => stepSystem s ev
    | none => (none, Reply.unit)

end Tcvm
