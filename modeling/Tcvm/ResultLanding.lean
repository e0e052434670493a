/-
# The landing of results

A call delivers its values to the register window of the caller on one of three paths: inline,
when a native callback returns at once; by `frame_return`, when a Lua callee returns; and by
`land_call_results`, when a native was suspended, a sequence finished or a coroutine came back.
The convention is the same: the first values, as many as the call wants, with nil for the missing
ones, or all of them with `top` behind the last one.

## Main definitions

* `landCallResults`, `applyNativeContinuation` — the landing of the executor;
* `landResumed`, `landPropagated` — the landing where a thread is resumed, and where a coroutine
  comes back;
* `expected`, `Landed` — the convention, in the window of the caller;
* `moved`, `Fits` — the values a return moves, and the padding that stays on the stack;
* `Call`, `NativeSite`, `ReturnSite`, `SuspendedSite` — a call, and the states in which it is
  about to deliver its values on each path;
* `Call.Restored` — the values have landed, in a window that is on the stack.

## Main results

* `nativeSite_lands`, `returnSite_lands`, `suspendedSite_lands` — each path follows the convention
  exactly when the padding fits, and where a Lua callee returns, when the values and the window of
  the caller are on the stack;
* **`results_land`** — the three paths agree exactly when that holds on each of them.
-/

import Tcvm.CallOps

namespace Tcvm

open StackWindow

/-! ### The landing of the executor -/

/-- `apply_native_continuation`: the fixup of a metamethod or an iterator that was suspended. -/
def applyNativeContinuation (ts : ThreadState) (bottom : ℕ) (cont : Continuation) :
    Option ThreadState :=
  let retc := ts.stack.length - bottom
  (firstResult ts.stack bottom retc).bind fun result0 =>
    ts.topLua.bind fun caller =>
      let base := caller.base
      match cont.payload with
      | ContinuationPayload.storeResult dst =>
          (set? ts.stack (base + dst) result0).map fun s => (ts.setStack s).restoreWindow
      | ContinuationPayload.ignoreResult => some ts.restoreWindow
      | ContinuationPayload.condJump offset inverted =>
          if (!result0.isFalsy) != inverted then
            some (ts.setTopLua { caller with pc := offsetPc caller.pc offset }).restoreWindow
          else some ts.restoreWindow
      | ContinuationPayload.tforCall reg count =>
          (landValues ts.stack (base + reg + 3) bottom retc count).map fun s =>
            (ts.setStack s).restoreWindow

/-- A thread without frames has finished. -/
def finishIfEmpty (ts : ThreadState) (funcIdx : ℕ) : ThreadState :=
  match ts.frames with
  | [] => { ts with status := ThreadStatus.result funcIdx }
  | _ => ts

theorem finishIfEmpty_of_ne {ts : ThreadState} (h : ts.frames ≠ []) (funcIdx : ℕ) :
    finishIfEmpty ts funcIdx = ts := by
  unfold finishIfEmpty
  split
  · next heq => exact absurd heq h
  · rfl

@[simp] theorem stack_finishIfEmpty (ts : ThreadState) (funcIdx : ℕ) :
    (finishIfEmpty ts funcIdx).stack = ts.stack := by
  unfold finishIfEmpty
  split <;> rfl

/-- `land_call_results`. -/
def landCallResults (ts : ThreadState) (cs : CallSite) : Option ThreadState :=
  match cs.cont with
  | some cont => applyNativeContinuation ts cs.bottom cont
  | none =>
      let retc := ts.stack.length - cs.bottom
      let wanted := if cs.returns = 0 then retc else cs.returns - 1
      (landValues ts.stack cs.funcIdx cs.bottom retc wanted).map fun s =>
        finishIfEmpty
          (if cs.returns = 0 then
            { ts with stack := s.take (cs.funcIdx + retc), top := cs.funcIdx + retc }
          else (ts.setStack s).restoreWindow)
          cs.funcIdx

/-- The values on top of the stack are left to a sequence, and landed otherwise. -/
def landUnlessSequence (ts : ThreadState) (cs : CallSite) : Option ThreadState :=
  match ts.frames with
  | Frame.sequence _ _ _ :: _ => some ts
  | _ => landCallResults ts cs

/-- The values a thread is resumed with have replaced those it yielded: the thread runs again. -/
def landResumed (ts : ThreadState) (cs : CallSite) : Option ThreadState :=
  (landUnlessSequence ts cs).map fun ts' => { ts' with status := ThreadStatus.normal }

/-- The values of a coroutine have arrived: the thread runs again, unless it has finished. -/
def landPropagated (ts : ThreadState) (cs : CallSite) : Option ThreadState :=
  (landUnlessSequence ts cs).map fun ts' =>
    match ts'.status with
    | ThreadStatus.result _ => ts'
    | _ => { ts' with status := ThreadStatus.normal }

/-! ### The convention -/

/-- The values a call delivers: all of them, or as many as it wants. -/
def expected (returns : ℕ) (vals : List Value) : List Value :=
  if returns = 0 then vals else resize vals (returns - 1) Value.nil

/-- The caller's frame is on top, the values are where its function was, with its other registers
below them, and `top` is behind them if all are delivered. -/
structure Landed (frames : List Frame) (below : List Value) (returns : ℕ) (vals : List Value)
    (ts : ThreadState) : Prop where
  frames : ts.frames = frames
  window : ts.stack.take (below.length + (expected returns vals).length) =
    below ++ expected returns vals
  top : returns = 0 → ts.top = below.length + vals.length

/-- The padding stays below `len`. -/
def Fits (funcIdx returns retc len : ℕ) : Prop :=
  returns = 0 ∨ returns - 1 ≤ retc ∨ funcIdx + (returns - 1) ≤ len

/-- The number of values a return moves: all of them, or as many as the call wants. -/
def moved (returns n : ℕ) : ℕ := if returns = 0 then n else min n (returns - 1)

/-- A call of the function in register `func` of a frame of bytecode. -/
structure Call where
  caller : LuaFrame
  rest : List Frame
  func : ℕ
  returns : ℕ
  /-- The stack below the function. -/
  below : List Value
  vals : List Value
  slot : below.length = caller.base + func

namespace Call

/-- The frames of the caller. -/
def frames (c : Call) : List Frame := Frame.lua c.caller :: c.rest

/-- A native callback is about to be called, and will return the values at once: it has been read
from the slot of the function. -/
structure NativeSite (c : Call) where
  ts : ThreadState
  ip : ℕ
  nargs : ℕ
  f : NativeFn
  frames : ts.frames = c.frames
  below : ts.stack.take c.below.length = c.below
  slot : c.below.length < ts.stack.length
  outcome : (invokeNative ts (c.below.length + 1) (argCount ts (c.below.length + 1) nargs) f).2 =
    NativeOutcome.ok CallbackAction.ret c.vals

/-- A Lua callee is about to leave its frame with the values.  A native callback that it called in
tail position has cut the stack, so that only some of them may still be on it. -/
structure ReturnSite (c : Call) where
  ts : ThreadState
  cells : Cells
  callee : LuaFrame
  valuesBase : ℕ
  frames : ts.frames = Frame.lua callee :: c.frames
  below : ts.stack.take c.below.length = c.below
  base : callee.base = c.below.length + 1 + callee.numExtras
  returns : callee.numResults = c.returns
  cont : callee.continuation = none
  above : callee.base ≤ valuesBase
  values : (ts.stack.drop valuesBase).take c.vals.length <+: c.vals

/-- The values of a suspended call are on top of the stack. -/
structure SuspendedSite (c : Call) where
  ts : ThreadState
  bottom : ℕ
  frames : ts.frames = c.frames
  below : ts.stack.take c.below.length = c.below
  above : c.below.length < bottom
  len : bottom ≤ ts.stack.length
  values : ts.stack.drop bottom = c.vals

/-- The values have landed, and with a fixed number of them the registers of the caller are on the
stack. -/
structure Restored (c : Call) (ts : ThreadState) : Prop where
  landed : Landed c.frames c.below c.returns c.vals ts
  window : c.returns ≠ 0 → c.caller.windowEnd ≤ ts.stack.length

variable {c : Call}

/-- `CALL` of the native callback delivers its values to the caller. -/
def NativeSite.Lands (s : c.NativeSite) : Prop :=
  ∀ cells, ∃ ts', opCall s.ts cells s.ip c.func s.nargs c.returns (CallTarget.native s.f) =
    some (Flow.dispatch s.ip, ts', cells) ∧ c.Restored ts'

/-- `frame_return` delivers the values to the caller. -/
def ReturnSite.Lands (s : c.ReturnSite) : Prop :=
  ∃ ts' cells', frameReturn s.ts s.cells s.valuesBase c.vals.length =
    some (FrameReturn.caller c.caller.base c.caller.pc, ts', cells') ∧ c.Restored ts'

/-- `land_call_results` delivers the values to the caller. -/
def SuspendedSite.Lands (s : c.SuspendedSite) : Prop :=
  ∃ ts', landCallResults s.ts
      { bottom := s.bottom, funcIdx := c.below.length, returns := c.returns, cont := none } =
    some ts' ∧ c.Restored ts'

/-! ### Each path -/

theorem length_expected (returns : ℕ) (vals : List Value) :
    (expected returns vals).length = if returns = 0 then vals.length else returns - 1 := by
  unfold expected
  split
  · rfl
  · exact length_resize _ _ _

/-- Values that were placed at the function's slot are what the convention asks for. -/
theorem take_overwrite_below {below s : List Value} (h : s.take below.length = below)
    (vs : List Value) :
    (overwrite s below.length vs).take (below.length + vs.length) = below ++ vs := by
  have hlen : below.length ≤ s.length := by
    have := congrArg List.length h
    rw [List.length_take] at this
    omega
  rw [take_overwrite hlen, h]

/-- All values are placed by one copy, which always fits. -/
theorem landValues_all {s vals : List Value} {dst src : ℕ} (hdst : dst ≤ src)
    (hlen : src + vals.length ≤ s.length) (hvals : (s.drop src).take vals.length = vals) :
    landValues s dst src vals.length vals.length = some (overwrite s dst vals) := by
  refine (landValues_eq_some_iff hdst).2 ⟨Or.inr ?_, Or.inl (Nat.le_refl _), ?_⟩
  · rwa [Nat.min_self]
  · rw [hvals, resize_of_le (Nat.le_refl _), List.take_length]

/-- A fixed number of values is placed exactly when those that are moved are on the stack and the
padding fits. -/
theorem landValues_moved {s s' below vals : List Value} {src returns : ℕ} (hreturns : returns ≠ 0)
    (hsrc : below.length ≤ src) (hvals : (s.drop src).take vals.length <+: vals) :
    landValues s below.length src vals.length (returns - 1) = some s' ↔
      InBounds s src (moved returns vals.length) ∧ Fits below.length returns vals.length s.length ∧
        s' = overwrite s below.length (expected returns vals) := by
  rw [landValues_eq_some_iff hsrc, expected, if_neg hreturns, moved, if_neg hreturns]
  refine and_congr_right fun hin => ?_
  rw [resize_take_drop hin hvals]
  simp only [Fits, hreturns, false_or]

/-- A fixed number of values that are on the stack is placed exactly when the padding fits. -/
theorem landValues_fixed {s s' below vals : List Value} {src returns : ℕ} (hreturns : returns ≠ 0)
    (hsrc : below.length ≤ src) (hlen : src + vals.length ≤ s.length)
    (hvals : (s.drop src).take vals.length = vals) :
    landValues s below.length src vals.length (returns - 1) = some s' ↔
      Fits below.length returns vals.length s.length ∧
        s' = overwrite s below.length (expected returns vals) := by
  have hin : InBounds s src (moved returns vals.length) := by
    rw [moved, if_neg hreturns, InBounds]
    omega
  rw [landValues_moved hreturns hsrc (hvals.symm ▸ List.prefix_rfl), and_iff_right hin]

/-- A stack that is cut behind the values it was overwritten with. -/
theorem landed_all {ts : ThreadState} {frames : List Frame} {below vals : List Value}
    (hframes : ts.frames = frames) (hbelow : ts.stack.take below.length = below) :
    Landed frames below 0 vals
      { ts with
        stack := (overwrite ts.stack below.length vals).take (below.length + vals.length)
        top := below.length + vals.length } := by
  refine ⟨hframes, ?_, fun _ => rfl⟩
  simp only [expected, if_true, List.take_take, Nat.min_self]
  exact take_overwrite_below hbelow vals

/-- A fixed number of values, in a stack that only got longer at the end. -/
theorem landed_fixed {ts : ThreadState} {frames : List Frame} {s below vals : List Value}
    {returns : ℕ} (hreturns : returns ≠ 0) (hframes : ts.frames = frames)
    (hbelow : s.take below.length = below)
    (hstack : ts.stack.take (below.length + (expected returns vals).length) =
      (overwrite s below.length (expected returns vals)).take
        (below.length + (expected returns vals).length)) :
    Landed frames below returns vals ts := by
  refine ⟨hframes, ?_, fun h => absurd h hreturns⟩
  rw [hstack, take_overwrite_below hbelow]

/-- The results of a native callback that returned at once. -/
theorem opCallReturn_lands {ts : ThreadState} {below vals : List Value} {caller : LuaFrame}
    {rest : List Frame} {returns : ℕ} (hframes : ts.frames = Frame.lua caller :: rest)
    (hbelow : ts.stack.take below.length = below)
    (hlen : ts.stack.length = below.length + 1 + vals.length)
    (hvals : ts.stack.drop (below.length + 1) = vals) :
    (∃ ts', opCallReturn ts below.length returns = some ts' ∧
        Landed (Frame.lua caller :: rest) below returns vals ts') ↔
      Fits below.length returns vals.length
        (max (below.length + 1 + vals.length) caller.windowEnd) := by
  have hretc : ts.stack.length - (below.length + 1) = vals.length := by omega
  have hblock : (ts.stack.drop (below.length + 1)).take vals.length = vals := by
    rw [hvals, List.take_length]
  by_cases hreturns : returns = 0
  · subst hreturns
    have hland := landValues_all (Nat.le_succ below.length) (Nat.le_of_eq hlen.symm) hblock
    refine iff_of_true ⟨_, ?_, landed_all hframes hbelow⟩ (Or.inl rfl)
    simp only [opCallReturn, if_true, hretc, hland, Option.map_some]
  · have hgrown : (grow ts.stack caller.windowEnd Value.nil).length =
        max (below.length + 1 + vals.length) caller.windowEnd := by
      rw [length_grow, hlen]
    have hgblock : ((grow ts.stack caller.windowEnd Value.nil).drop (below.length + 1)).take
        vals.length = vals := by
      rw [take_drop_grow (by omega), hblock]
    have hgbelow : (grow ts.stack caller.windowEnd Value.nil).take below.length = below := by
      rw [take_grow (by omega), hbelow]
    have hland : ∀ s', landValues (grow ts.stack caller.windowEnd Value.nil) below.length
        (below.length + 1) vals.length (returns - 1) = some s' ↔ _ := fun s' =>
      landValues_fixed hreturns (Nat.le_succ below.length) (by omega) hgblock
    rw [hgrown] at hland
    simp only [opCallReturn, if_neg hreturns, hretc, ThreadState.restoreWindow_cons hframes,
      ThreadState.stack_setStack, Option.map_eq_some_iff]
    constructor
    · rintro ⟨ts', ⟨s', hs', -⟩, -⟩
      exact ((hland s').1 hs').1
    · intro hfits
      exact ⟨_, ⟨_, (hland _).2 ⟨hfits, rfl⟩, rfl⟩, landed_fixed hreturns hframes hgbelow rfl⟩

/-- The values of a frame that has been popped, at the slot of its function. -/
theorem deliverReturn_lands {ts : ThreadState} {below vals : List Value} {callee caller : LuaFrame}
    {rest : List Frame} {valuesBase : ℕ} (hframes : ts.frames = Frame.lua caller :: rest)
    (hbelow : ts.stack.take below.length = below) (hslot : callee.funcSlot = below.length)
    (habove : below.length ≤ valuesBase)
    (hvals : (ts.stack.drop valuesBase).take vals.length <+: vals) :
    (∃ ts', deliverReturn ts callee valuesBase vals.length =
          some (FrameReturn.caller caller.base caller.pc, ts') ∧
        Landed (Frame.lua caller :: rest) below callee.numResults vals ts') ↔
      InBounds ts.stack valuesBase (moved callee.numResults vals.length) ∧
        Fits below.length callee.numResults vals.length ts.stack.length := by
  by_cases hreturns : callee.numResults = 0
  · have hmoved : moved callee.numResults vals.length = vals.length := if_pos hreturns
    simp only [deliverReturn, hframes, hslot, if_pos hreturns, Option.map_eq_some_iff,
      Prod.mk.injEq, true_and, copy?_eq_some_iff habove, hmoved]
    constructor
    · rintro ⟨ts', ⟨s', ⟨hin, -⟩, -⟩, -⟩
      exact ⟨hin, Or.inl hreturns⟩
    · rintro ⟨hin, -⟩
      refine ⟨_, ⟨_, ⟨hin, rfl⟩, rfl⟩, rfl, ?_, fun _ => rfl⟩
      rw [take_drop_eq hin (Nat.le_refl _) hvals, List.take_length, expected, if_pos hreturns]
      exact take_overwrite_below hbelow vals
  · have hland : ∀ s', landValues ts.stack below.length valuesBase vals.length
        (callee.numResults - 1) = some s' ↔ _ := fun s' =>
      landValues_moved hreturns habove hvals
    simp only [deliverReturn, hframes, hslot, if_neg hreturns, Option.map_eq_some_iff,
      Prod.mk.injEq, true_and]
    constructor
    · rintro ⟨ts', ⟨s', hs', -⟩, -⟩
      obtain ⟨hin, hfits, -⟩ := (hland s').1 hs'
      exact ⟨hin, hfits⟩
    · rintro ⟨hin, hfits⟩
      exact ⟨_, ⟨_, (hland _).2 ⟨hin, hfits, rfl⟩, rfl⟩, landed_fixed hreturns hframes hbelow rfl⟩

/-- A return to a frame of bytecode neither cuts the stack nor restores the window. -/
theorem length_deliverReturn {ts : ThreadState} {callee caller : LuaFrame} {rest : List Frame}
    {valuesBase nret : ℕ} {d : FrameReturn × ThreadState}
    (hframes : ts.frames = Frame.lua caller :: rest)
    (h : deliverReturn ts callee valuesBase nret = some d) :
    d.2.stack.length = ts.stack.length := by
  simp only [deliverReturn, hframes] at h
  split at h
  · obtain ⟨s, hs, rfl⟩ := Option.map_eq_some_iff.1 h
    exact length_copy? hs
  · obtain ⟨s, hs, rfl⟩ := Option.map_eq_some_iff.1 h
    exact length_landValues hs

/-- The values of a suspended call, with a frame of bytecode on top. -/
theorem landCallResults_lands {ts : ThreadState} {below vals : List Value} {caller : LuaFrame}
    {rest : List Frame} {bottom returns : ℕ} (hframes : ts.frames = Frame.lua caller :: rest)
    (hbelow : ts.stack.take below.length = below) (habove : below.length ≤ bottom)
    (hlen : bottom ≤ ts.stack.length) (hvals : ts.stack.drop bottom = vals) :
    (∃ ts', landCallResults ts
          { bottom := bottom, funcIdx := below.length, returns := returns, cont := none } =
        some ts' ∧ Landed (Frame.lua caller :: rest) below returns vals ts') ↔
      Fits below.length returns vals.length ts.stack.length := by
  have hretc : ts.stack.length - bottom = vals.length := by
    rw [← hvals, List.length_drop]
  have hroom : bottom + vals.length ≤ ts.stack.length := by omega
  have hblock : (ts.stack.drop bottom).take vals.length = vals := by
    rw [hvals, List.take_length]
  have hne : ts.frames ≠ [] := by
    rw [hframes]
    exact List.cons_ne_nil _ _
  by_cases hreturns : returns = 0
  · subst hreturns
    have hland := landValues_all habove hroom hblock
    refine iff_of_true ⟨_, ?_, landed_all hframes hbelow⟩ (Or.inl rfl)
    simp only [landCallResults, if_true, hretc, hland, Option.map_some]
    exact congrArg some (finishIfEmpty_of_ne (by exact hne) _)
  · have hland : ∀ s', landValues ts.stack below.length bottom vals.length (returns - 1) =
        some s' ↔ _ := fun s' => landValues_fixed hreturns habove hroom hblock
    simp only [landCallResults, if_neg hreturns, hretc, Option.map_eq_some_iff]
    constructor
    · rintro ⟨ts', ⟨s', hs', -⟩, -⟩
      exact ((hland s').1 hs').1
    · intro hfits
      have hs := (hland _).2 ⟨hfits, rfl⟩
      refine ⟨_, ⟨_, hs, rfl⟩, ?_⟩
      have hcons : (ts.setStack (overwrite ts.stack below.length
          (expected returns vals))).frames = Frame.lua caller :: rest := hframes
      rw [ThreadState.restoreWindow_cons hcons,
        finishIfEmpty_of_ne (by exact hne)]
      refine landed_fixed hreturns hcons hbelow ?_
      -- the window is restored after the results were written: they are on the stack already
      have hexpected := length_expected returns vals
      rw [if_neg hreturns] at hexpected
      have hend : below.length + (expected returns vals).length ≤ ts.stack.length := by
        rw [hexpected]
        rcases hfits with h | h | h <;> omega
      exact take_grow (by rwa [ThreadState.stack_setStack, length_overwrite hend]) _ _

/-! ### The three paths -/

/-- Where the window is restored anyway, landing is all there is to show. -/
theorem restored_iff {r : Option ThreadState}
    (h : ∀ ts', r = some ts' → c.returns ≠ 0 → c.caller.windowEnd ≤ ts'.stack.length) :
    (∃ ts', r = some ts' ∧ c.Restored ts') ↔
      ∃ ts', r = some ts' ∧ Landed c.frames c.below c.returns c.vals ts' := by
  constructor
  · rintro ⟨ts', hts', hrestored⟩
    exact ⟨ts', hts', hrestored.landed⟩
  · rintro ⟨ts', hts', hlanded⟩
    exact ⟨ts', hts', hlanded, h ts' hts'⟩

theorem opCallReturn_window {ts ts' : ThreadState} {caller : LuaFrame} {rest : List Frame}
    {funcIdx returns : ℕ} (hframes : ts.frames = Frame.lua caller :: rest) (hreturns : returns ≠ 0)
    (h : opCallReturn ts funcIdx returns = some ts') : caller.windowEnd ≤ ts'.stack.length := by
  simp only [opCallReturn, if_neg hreturns, ThreadState.restoreWindow_cons hframes] at h
  obtain ⟨s, hs, rfl⟩ := Option.map_eq_some_iff.1 h
  rw [ThreadState.stack_setStack, length_landValues hs, ThreadState.stack_setStack, length_grow]
  exact Nat.le_max_right _ _

theorem landCallResults_window {ts ts' : ThreadState} {caller : LuaFrame} {rest : List Frame}
    {bottom funcIdx returns : ℕ} (hframes : ts.frames = Frame.lua caller :: rest)
    (hreturns : returns ≠ 0)
    (h : landCallResults ts
      { bottom := bottom, funcIdx := funcIdx, returns := returns, cont := none } = some ts') :
    caller.windowEnd ≤ ts'.stack.length := by
  simp only [landCallResults, if_neg hreturns] at h
  obtain ⟨s, -, rfl⟩ := Option.map_eq_some_iff.1 h
  rw [stack_finishIfEmpty, @ThreadState.restoreWindow_cons (ts.setStack s) _ _ hframes,
    ThreadState.stack_setStack, length_grow]
  exact Nat.le_max_right _ _

theorem below_lt_of_site {ts : ThreadState} (h : c.below.length < ts.stack.length)
    (hbelow : ts.stack.take c.below.length = c.below) :
    (ts.stack.take (c.below.length + 1)).take c.below.length = c.below ∧
      (ts.stack.take (c.below.length + 1)).length = c.below.length + 1 := by
  refine ⟨?_, by rw [List.length_take]; omega⟩
  rw [List.take_take, Nat.min_eq_left (Nat.le_succ _), hbelow]

/-- **A native callback that returns at once** follows the convention exactly when the padding
stays in the window of the caller. -/
theorem nativeSite_lands (s : c.NativeSite) : s.Lands ↔
    Fits c.below.length c.returns c.vals.length
      (max (c.below.length + 1 + c.vals.length) c.caller.windowEnd) := by
  obtain ⟨htake, hlen⟩ := below_lt_of_site s.slot s.below
  have hpre : (resize s.ts.stack (c.below.length + 1 +
      argCount s.ts (c.below.length + 1) s.nargs) Value.nil).take (c.below.length + 1) =
      s.ts.stack.take (c.below.length + 1) :=
    take_resize (Nat.succ_le_of_lt s.slot) (Nat.le_add_right _ _) _
  -- the state after the callback: the function's slot, then the values
  have hts : (invokeNative s.ts (c.below.length + 1)
      (argCount s.ts (c.below.length + 1) s.nargs) s.f).1 =
      s.ts.setStack (s.ts.stack.take (c.below.length + 1) ++ c.vals) := by
    have hout := s.outcome
    simp only [invokeNative] at hout ⊢
    rw [hpre, hout]
    rfl
  have hcall : ∀ cells, opCall s.ts cells s.ip c.func s.nargs c.returns (CallTarget.native s.f) =
      (opCallReturn (s.ts.setStack (s.ts.stack.take (c.below.length + 1) ++ c.vals))
        c.below.length c.returns).map fun ts' => (Flow.dispatch s.ip, ts', cells) := by
    intro cells
    have hbase : (s.ts.topLua.map LuaFrame.base).getD 0 + c.func = c.below.length := by
      rw [ThreadState.topLua_cons s.frames, c.slot]
      rfl
    simp only [opCall, hbase, s.outcome, hts]
  have hret : (∃ ts', opCallReturn (s.ts.setStack (s.ts.stack.take (c.below.length + 1) ++ c.vals))
        c.below.length c.returns = some ts' ∧ c.Restored ts') ↔
      Fits c.below.length c.returns c.vals.length
        (max (c.below.length + 1 + c.vals.length) c.caller.windowEnd) := by
    rw [restored_iff fun ts' h hreturns => opCallReturn_window (by exact s.frames) hreturns h]
    refine opCallReturn_lands s.frames ?_ ?_ ?_
    · rw [ThreadState.stack_setStack, List.take_append_of_le_length (by omega), htake]
    · rw [ThreadState.stack_setStack, List.length_append, hlen]
    · rw [ThreadState.stack_setStack, List.drop_left' hlen]
  rw [← hret]
  constructor
  · intro h
    obtain ⟨ts', hts', hland⟩ := h fun _ => UpvalueState.closed Value.nil
    rw [hcall, Option.map_eq_some_iff] at hts'
    obtain ⟨t, ht, heq⟩ := hts'
    cases heq
    exact ⟨_, ht, hland⟩
  · rintro ⟨ts', hts', hland⟩ cells
    exact ⟨ts', by rw [hcall, hts', Option.map_some], hland⟩

/-- What a callee captured is on the stack, and so are the values that are moved, the padding and
the registers of the caller. -/
structure ReturnSite.Fits (s : c.ReturnSite) : Prop where
  captured : Closable s.ts.stack s.callee.base s.ts.openUpvalues s.cells
  values : InBounds s.ts.stack s.valuesBase (moved c.returns c.vals.length)
  padding : Tcvm.Fits c.below.length c.returns c.vals.length s.ts.stack.length
  window : c.returns ≠ 0 → c.caller.windowEnd ≤ s.ts.stack.length

/-- **A Lua callee that returns** follows the convention exactly when what it captured, the values,
the padding and the caller's window are on the stack. -/
theorem returnSite_lands (s : c.ReturnSite) : s.Lands ↔ s.Fits := by
  have hslot : s.callee.funcSlot = c.below.length := by
    have := s.base
    rw [LuaFrame.funcSlot]
    omega
  have htop := ThreadState.topLua_cons s.frames
  by_cases hclosable : Closable s.ts.stack s.callee.base s.ts.openUpvalues s.cells
  · obtain ⟨t, hleave, hstack, htail⟩ := leaveFrame_eq hclosable
    have hframes : t.frames = Frame.lua c.caller :: c.rest := by
      rw [htail, s.frames, List.tail_cons]
      rfl
    have habove : c.below.length ≤ s.valuesBase := by
      have := s.base
      have := s.above
      omega
    have hdeliver := deliverReturn_lands hframes (by rw [hstack, s.below]) hslot habove
      (by rw [hstack]; exact s.values)
    rw [s.returns, hstack] at hdeliver
    have hframe : frameReturn s.ts s.cells s.valuesBase c.vals.length =
        (deliverReturn t s.callee s.valuesBase c.vals.length).map fun d =>
          (d.1, d.2, closeCells s.ts.stack s.callee.base s.ts.openUpvalues s.cells) := by
      simp only [frameReturn, htop, Option.bind_some, s.cont, hleave]
    have hlength : ∀ ts', deliverReturn t s.callee s.valuesBase c.vals.length =
        some (FrameReturn.caller c.caller.base c.caller.pc, ts') →
          ts'.stack.length = s.ts.stack.length := fun ts' h => by
      rw [← hstack, ← length_deliverReturn hframes h]
    rw [ReturnSite.Lands, hframe]
    simp only [Option.map_eq_some_iff, Prod.mk.injEq]
    constructor
    · rintro ⟨ts', cells', ⟨d, hd, hfr, rfl, -⟩, hrestored⟩
      have hd' : deliverReturn t s.callee s.valuesBase c.vals.length =
          some (FrameReturn.caller c.caller.base c.caller.pc, d.2) := by rw [hd, ← hfr]
      obtain ⟨hvalues, hpadding⟩ := hdeliver.1 ⟨d.2, hd', hrestored.landed⟩
      refine ⟨hclosable, hvalues, hpadding, ?_⟩
      rw [← hlength d.2 hd']
      exact hrestored.window
    · intro hfits
      obtain ⟨ts', hts', hlanded⟩ := hdeliver.2 ⟨hfits.values, hfits.padding⟩
      refine ⟨ts', _, ⟨_, hts', rfl, rfl, rfl⟩, hlanded, ?_⟩
      rw [hlength ts' hts']
      exact hfits.window
  · refine iff_of_false ?_ fun h => hclosable h.captured
    rintro ⟨ts', cells', h, -⟩
    simp only [frameReturn, htop, Option.bind_some, s.cont, leaveFrame_eq_none hclosable,
      Option.bind_none, reduceCtorEq] at h

/-- **A suspended call** follows the convention exactly when the padding ends at most where its
values end. -/
theorem suspendedSite_lands (s : c.SuspendedSite) : s.Lands ↔
    Fits c.below.length c.returns c.vals.length s.ts.stack.length :=
  (restored_iff fun _ h hreturns => landCallResults_window s.frames hreturns h).trans
    (landCallResults_lands s.frames s.below (Nat.le_of_lt s.above) s.len s.values)

/-- **The three paths agree** on a call, each of them from any state it can start in, exactly when
the padding is on the stack, and where a Lua callee returns also what it captured, its values and
the window of the caller. -/
theorem results_land (c : Call) (n : c.NativeSite) (r : c.ReturnSite) (s : c.SuspendedSite) :
    (n.Lands ∧ r.Lands ∧ s.Lands) ↔
      Fits c.below.length c.returns c.vals.length
          (max (c.below.length + 1 + c.vals.length) c.caller.windowEnd) ∧
        r.Fits ∧ Fits c.below.length c.returns c.vals.length s.ts.stack.length := by
  rw [nativeSite_lands, returnSite_lands, suspendedSite_lands]

end Call

/-! ### A yield that is resumed with nothing -/

/-- A function with a window of `n` registers. -/
def windowOf (n : ℕ) : LuaClosure :=
  { proto :=
      { code := [], constants := [], prototypes := [], upvalueDesc := [], numParams := 0
        isVararg := false, needsVarargTable := false, maxStackSize := n, numUpvalues := 0
        icTable := 0 }
    upvalues := [] }

/-- The frame of a main function with a window of `n` registers. -/
def mainFrame (n : ℕ) : LuaFrame :=
  { closure := windowOf n, base := 1, pc := 1, numResults := 0, numExtras := 0
    continuation := none }

/-- `local a, b = f()`, where `f` delivers nothing. -/
def twoResults : Call :=
  { caller := mainFrame 2, rest := [], func := 0, returns := 3, below := [Value.function 0]
    vals := [], slot := rfl }

/-- `f` is `coroutine.yield`, and the coroutine is resumed without values. -/
def twoResults.yielded : twoResults.SuspendedSite :=
  { ts :=
      { ThreadState.new 0 with
        stack := [Value.function 0, Value.function 1], frames := [Frame.lua (mainFrame 2)] }
    bottom := 2, frames := rfl, below := rfl, above := by decide, len := by decide, values := rfl }

/-- `f` is a native callback that returns nothing at once. -/
def twoResults.native : twoResults.NativeSite :=
  { ts :=
      { ThreadState.new 0 with
        stack := [Value.function 0, Value.function 1, Value.nil]
        frames := [Frame.lua (mainFrame 2)] }
    ip := 1, nargs := 1, f := fun _ => NativeOutcome.ok CallbackAction.ret []
    frames := rfl, below := rfl, slot := by decide, outcome := rfl }

/-- `f` is a Lua function that returns nothing. -/
def twoResults.returned : twoResults.ReturnSite :=
  { ts :=
      { ThreadState.new 0 with
        stack := [Value.function 0, Value.function 1, Value.nil]
        frames := [Frame.lua { mainFrame 1 with base := 2, numResults := 3 },
          Frame.lua (mainFrame 2)] }
    cells := fun _ => UpvalueState.closed Value.nil
    callee := { mainFrame 1 with base := 2, numResults := 3 }
    valuesBase := 2, frames := rfl, below := rfl, base := rfl, returns := rfl, cont := rfl
    above := by decide, values := List.prefix_rfl }

/-- When the yield is resumed, the padding is written past the end of the stack. -/
theorem not_results_land :
    ¬ (twoResults.native.Lands ∧ twoResults.returned.Lands ∧ twoResults.yielded.Lands) := by
  rintro ⟨-, -, ts', hts', -⟩
  cases hts'

end Tcvm
