/-
# The state of a thread

A thread has a value stack, a stack of frames, and the bookkeeping of calls that are not finished:
the open upvalues, a pending action of a native callback, and the place a yield left its values
at.  Frame stacks are lists with the top first; value stacks are lists indexed from the bottom.

## Main definitions

* `Continuation`, `CallSite` — what is left to do when a call delivers its values, and where;
* `Frame`, `ThreadState` — frames and threads;
* `Cells`, `UpvalueState` — the captured variables, shared by closures of all threads;
* `ThreadState.topLua`, `ThreadState.setTopLua` — the frame an instruction runs in;
* `ThreadState.restoreWindow` — lengthen the stack to the register window of the top frame;
* `closeUpvalues`, `closeTbcVars` — leave the slots from a position on.

## Main results

* `closeList_spec`, `closeUpvalues_spec` — closing succeeds exactly when every cell to close is on
  the stack, and then each of them holds the value of its slot.
-/

import Tcvm.Instruction
import Tcvm.StackWindow

namespace Tcvm

open StackWindow

abbrev ThreadId := ℕ

abbrev UpvalueId := ℕ

/-- The address of a function. -/
abbrev FunctionId := ℕ

/-! ### Closures and captured variables -/

/-- A prototype with the variables it captured. -/
structure LuaClosure where
  proto : Prototype
  upvalues : List UpvalueId

/-- A captured variable: a slot of a thread's stack, or a value of its own. -/
inductive UpvalueState
  | openAt (thread : ThreadId) (index : ℕ)
  | closed (v : Value)
  deriving DecidableEq

/-- The captured variables of all closures. -/
abbrev Cells := UpvalueId → UpvalueState

/-! ### Frames -/

/-- What to do with the values a metamethod or an iterator returns. -/
inductive ContinuationPayload
  /-- Place the first value (or nil) into `R[dst]` of the caller. -/
  | storeResult (dst : ℕ)
  | ignoreResult
  /-- Jump by `offset` if the first value, as a boolean, is not `inverted`. -/
  | condJump (offset : ℤ) (inverted : Bool)
  /-- Copy up to `count` values into `R[base + 3]` and on, with nil for the missing ones. -/
  | tforCall (base count : ℕ)
  deriving DecidableEq

/-- A pending fixup attached to a callee frame; `frame_return` writes where the values are. -/
structure Continuation where
  payload : ContinuationPayload
  resultsBase : ℕ := 0
  nret : ℕ := 0
  deriving DecidableEq

/-- The stack window of a suspended call: its values are at `bottom` and above, and go to
`funcIdx`, as many as `returns` says (`0` for all of them, `n + 1` for `n`). -/
structure CallSite where
  bottom : ℕ
  funcIdx : ℕ
  returns : ℕ
  cont : Option Continuation
  deriving DecidableEq

/-- A frame of bytecode. -/
structure LuaFrame where
  closure : LuaClosure
  base : ℕ
  pc : ℕ
  numResults : ℕ
  /-- Arguments beyond the parameters; they sit right below `base`. -/
  numExtras : ℕ
  continuation : Option Continuation

/-- A multi-step native callback: the two of the coroutine library, and any other. -/
inductive Sequence
  | pcall
  | unwrapResume
  | other (id : ℕ)
  deriving DecidableEq

inductive Frame
  | lua (lf : LuaFrame)
  | sequence (seq : Sequence) (callSite : CallSite) (pendingError : Option Value)
  /-- A thread that has not run yet. -/
  | start (f : FunctionId)
  /-- The thread waits for a thread it resumed. -/
  | waitThread (callSite : CallSite)
  /-- An error that is being unwound. -/
  | error (err : Value)

/-! ### Threads -/

inductive ThreadStatus
  | stopped
  | suspended
  | normal
  | result (bottom : ℕ)
  deriving DecidableEq

/-- What a native callback requests on return. -/
inductive CallbackAction
  | ret
  | sequence (seq : Sequence)
  | call (function : FunctionId) (andThen : Option Sequence)
  | yield (andThen : Option Sequence)
  | resume (thread : ThreadId) (andThen : Option Sequence)
  deriving DecidableEq

structure PendingAction where
  action : CallbackAction
  callSite : CallSite
  deriving DecidableEq

structure ThreadState where
  stack : List Value
  frames : List Frame
  openUpvalues : List UpvalueId
  tbcSlots : List ℕ
  status : ThreadStatus
  /-- Written by a producer of a variable number of values, read by its consumer. -/
  top : ℕ
  threadHandle : ThreadId
  pendingAction : Option PendingAction
  yieldBottom : Option CallSite

/-- A new thread. -/
def ThreadState.new (handle : ThreadId) : ThreadState :=
  { stack := [], frames := [], openUpvalues := [], tbcSlots := [], status := ThreadStatus.stopped
    top := 0, threadHandle := handle, pendingAction := none, yieldBottom := none }

namespace LuaFrame

/-- The end of the register window. -/
def windowEnd (lf : LuaFrame) : ℕ := lf.base + lf.closure.proto.maxStackSize

/-- The slot of the caller the function was called at: below the extra arguments. -/
def funcSlot (lf : LuaFrame) : ℕ := lf.base - 1 - lf.numExtras

end LuaFrame

namespace ThreadState

/-- `top_lua`: the top frame, if it runs bytecode. -/
def topLua (ts : ThreadState) : Option LuaFrame :=
  match ts.frames with
  | Frame.lua lf :: _ => some lf
  | _ => none

/-- Replace the top frame. -/
def setTopLua (ts : ThreadState) (lf : LuaFrame) : ThreadState :=
  { ts with frames := Frame.lua lf :: ts.frames.tail }

def push (ts : ThreadState) (f : Frame) : ThreadState := { ts with frames := f :: ts.frames }

def setStack (ts : ThreadState) (s : List Value) : ThreadState := { ts with stack := s }

/-- Lengthen the stack to the register window of the top frame, if there is one. -/
def restoreWindow (ts : ThreadState) : ThreadState :=
  match ts.topLua with
  | some lf => ts.setStack (grow ts.stack lf.windowEnd Value.nil)
  | none => ts

@[simp] theorem stack_setStack (ts : ThreadState) (s : List Value) :
    (ts.setStack s).stack = s := rfl

@[simp] theorem topLua_setStack (ts : ThreadState) (s : List Value) :
    (ts.setStack s).topLua = ts.topLua := rfl

theorem topLua_cons {ts : ThreadState} {lf : LuaFrame} {rest : List Frame}
    (h : ts.frames = Frame.lua lf :: rest) : ts.topLua = some lf := by
  simp only [topLua, h]

@[simp] theorem frames_restoreWindow (ts : ThreadState) : ts.restoreWindow.frames = ts.frames := by
  unfold restoreWindow
  split <;> rfl

theorem restoreWindow_cons {ts : ThreadState} {lf : LuaFrame} {rest : List Frame}
    (h : ts.frames = Frame.lua lf :: rest) :
    ts.restoreWindow = ts.setStack (grow ts.stack lf.windowEnd Value.nil) := by
  simp only [restoreWindow, topLua_cons h]

end ThreadState

/-! ### Leaving slots -/

/-- Close the cells of a list that are open at `start` or above, and keep the others.  A cell
whose slot is not on the stack is an index error. -/
def closeList (stack : List Value) (start : ℕ) :
    List UpvalueId → Cells → Option (List UpvalueId × Cells)
  | [], cells => some ([], cells)
  | uv :: uvs, cells =>
      match cells uv with
      | UpvalueState.openAt _ index =>
          if start ≤ index then
            stack[index]?.bind fun v =>
              closeList stack start uvs (Function.update cells uv (UpvalueState.closed v))
          else (closeList stack start uvs cells).map fun r => (uv :: r.1, r.2)
      | UpvalueState.closed _ => (closeList stack start uvs cells).map fun r => (uv :: r.1, r.2)

/-- `close_upvalues`. -/
def closeUpvalues (ts : ThreadState) (cells : Cells) (start : ℕ) :
    Option (ThreadState × Cells) :=
  (closeList ts.stack start ts.openUpvalues cells).map fun r =>
    ({ ts with openUpvalues := r.1 }, r.2)

/-- `close_tbc_vars`; the `__close` metamethods are not called. -/
def closeTbcVars (ts : ThreadState) (start : ℕ) : ThreadState :=
  { ts with tbcSlots := ts.tbcSlots.filter fun slot => slot < start }

/-- A cell of the list that is open at `start` or above is on the stack. -/
def Closable (stack : List Value) (start : ℕ) (uvs : List UpvalueId) (cells : Cells) : Prop :=
  ∀ uv ∈ uvs, ∀ t index, cells uv = UpvalueState.openAt t index → start ≤ index →
    index < stack.length

/-- A cell after the slots from `start` on have been left. -/
def closeCell (stack : List Value) (start : ℕ) : UpvalueState → UpvalueState
  | UpvalueState.openAt t index =>
      if start ≤ index then UpvalueState.closed (stack.getD index Value.nil)
      else UpvalueState.openAt t index
  | UpvalueState.closed v => UpvalueState.closed v

/-- The cells of a list after the slots from `start` on have been left. -/
def closeCells (stack : List Value) (start : ℕ) (uvs : List UpvalueId) (cells : Cells) : Cells :=
  fun uv => if uv ∈ uvs then closeCell stack start (cells uv) else cells uv

theorem closeCells_cons_of_eq {stack : List Value} {start : ℕ} {uv : UpvalueId} {cells : Cells}
    (h : closeCell stack start (cells uv) = cells uv) (uvs : List UpvalueId) :
    closeCells stack start (uv :: uvs) cells = closeCells stack start uvs cells := by
  funext uv'
  by_cases hmem : uv' ∈ uvs
  · simp only [closeCells, List.mem_cons, hmem, or_true, if_true]
  · by_cases heq : uv' = uv
    · subst heq
      simp only [closeCells, List.mem_cons, true_or, if_true, hmem, if_false, h]
    · simp only [closeCells, List.mem_cons, heq, hmem, or_false, if_false]

theorem closeCells_cons_update {stack : List Value} {start : ℕ} {uv : UpvalueId} {cells : Cells}
    {v : Value} (h : closeCell stack start (cells uv) = UpvalueState.closed v)
    (uvs : List UpvalueId) :
    closeCells stack start uvs (Function.update cells uv (UpvalueState.closed v)) =
      closeCells stack start (uv :: uvs) cells := by
  funext uv'
  by_cases heq : uv' = uv
  · subst heq
    have hclosed : closeCell stack start (UpvalueState.closed v) = UpvalueState.closed v := rfl
    simp only [closeCells, List.mem_cons, true_or, if_true, Function.update_self, h, hclosed,
      ite_self]
  · simp only [closeCells, List.mem_cons, heq, false_or, Function.update_of_ne heq]

/-- Closing succeeds exactly when every cell to close is on the stack, and then each of them holds
the value of its slot. -/
theorem closeList_spec (stack : List Value) (start : ℕ) (uvs : List UpvalueId) (cells : Cells) :
    (Closable stack start uvs cells →
      ∃ kept, closeList stack start uvs cells = some (kept, closeCells stack start uvs cells)) ∧
    (¬ Closable stack start uvs cells → closeList stack start uvs cells = none) := by
  induction uvs generalizing cells with
  | nil =>
      refine ⟨fun _ => ⟨[], ?_⟩, fun h => absurd ?_ h⟩
      · have hnil : closeCells stack start [] cells = cells := by
          funext uv
          simp only [closeCells, List.not_mem_nil, if_false]
        rw [hnil, closeList]
      · intro uv huv
        exact absurd huv List.not_mem_nil
  | cons uv uvs ih =>
      -- a cell that stays as it is: the list decides
      have hkeep : closeCell stack start (cells uv) = cells uv →
          closeList stack start (uv :: uvs) cells =
            (closeList stack start uvs cells).map (fun r => (uv :: r.1, r.2)) →
          (∀ t index, cells uv = UpvalueState.openAt t index → start ≤ index →
            index < stack.length) →
          (Closable stack start (uv :: uvs) cells → ∃ kept, closeList stack start (uv :: uvs) cells
            = some (kept, closeCells stack start (uv :: uvs) cells)) ∧
          (¬ Closable stack start (uv :: uvs) cells →
            closeList stack start (uv :: uvs) cells = none) := by
        intro hcell hlist huv
        have hiff : Closable stack start (uv :: uvs) cells ↔ Closable stack start uvs cells := by
          constructor
          · intro h uv' huv'
            exact h uv' (List.mem_cons_of_mem _ huv')
          · intro h uv' huv'
            rcases List.mem_cons.1 huv' with rfl | huv'
            · exact huv
            · exact h uv' huv'
        rw [hiff, hlist, closeCells_cons_of_eq hcell]
        constructor
        · intro h
          obtain ⟨kept, hkept⟩ := (ih cells).1 h
          exact ⟨uv :: kept, by rw [hkept]; rfl⟩
        · intro h
          rw [(ih cells).2 h]
          rfl
      cases huv : cells uv with
      | closed v =>
          refine hkeep ?_ ?_ ?_
          · rw [huv]
            rfl
          · simp only [closeList, huv]
          · intro t index h
            exact absurd (huv.symm.trans h) (by simp)
      | openAt t index =>
          by_cases hstart : start ≤ index
          · by_cases hlt : index < stack.length
            · have hcell : closeCell stack start (cells uv) =
                  UpvalueState.closed stack[index] := by
                rw [huv, closeCell, if_pos hstart, List.getD_eq_getElem?_getD,
                  List.getElem?_eq_getElem hlt, Option.getD_some]
              have hlist : closeList stack start (uv :: uvs) cells =
                  closeList stack start uvs
                    (Function.update cells uv (UpvalueState.closed stack[index])) := by
                simp only [closeList, huv, if_pos hstart, List.getElem?_eq_getElem hlt,
                  Option.bind_some]
              have hiff : Closable stack start (uv :: uvs) cells ↔ Closable stack start uvs
                  (Function.update cells uv (UpvalueState.closed stack[index])) := by
                constructor
                · intro h uv' huv' t' index' hopen
                  by_cases heq : uv' = uv
                  · subst heq
                    rw [Function.update_self] at hopen
                    exact absurd hopen (by simp)
                  · rw [Function.update_of_ne heq] at hopen
                    exact h uv' (List.mem_cons_of_mem _ huv') t' index' hopen
                · intro h uv' huv' t' index' hopen
                  by_cases heq : uv' = uv
                  · subst heq
                    rw [huv] at hopen
                    cases hopen
                    exact fun _ => hlt
                  · rcases List.mem_cons.1 huv' with rfl | hmem
                    · exact absurd rfl heq
                    · exact h uv' hmem t' index' (by rwa [Function.update_of_ne heq])
              rw [hiff, hlist, ← closeCells_cons_update hcell]
              exact ih _
            · refine ⟨fun h => absurd (h uv (List.mem_cons_self ..) t index huv hstart) hlt, ?_⟩
              intro _
              have hnone : stack[index]? = none := List.getElem?_eq_none (Nat.le_of_not_lt hlt)
              simp only [closeList, huv, if_pos hstart, hnone, Option.bind_none]
          · refine hkeep ?_ ?_ ?_
            · rw [huv, closeCell, if_neg hstart]
            · simp only [closeList, huv, if_neg hstart]
            · intro t' index' hopen hle
              rw [huv] at hopen
              cases hopen
              exact absurd hle hstart

/-- Closing the upvalues of a thread leaves everything but the list of open upvalues. -/
theorem closeUpvalues_spec (ts : ThreadState) (cells : Cells) (start : ℕ) :
    (Closable ts.stack start ts.openUpvalues cells → ∃ kept, closeUpvalues ts cells start =
      some ({ ts with openUpvalues := kept }, closeCells ts.stack start ts.openUpvalues cells)) ∧
    (¬ Closable ts.stack start ts.openUpvalues cells → closeUpvalues ts cells start = none) := by
  constructor
  · intro h
    obtain ⟨kept, hkept⟩ := (closeList_spec ts.stack start ts.openUpvalues cells).1 h
    exact ⟨kept, by rw [closeUpvalues, hkept]; rfl⟩
  · intro h
    rw [closeUpvalues, (closeList_spec ts.stack start ts.openUpvalues cells).2 h]
    rfl

/-- A cell that is left is closed with the value of its slot, and the others are kept. -/
theorem closeList_cells {stack : List Value} {start : ℕ} {uvs : List UpvalueId} {cells : Cells}
    {r : List UpvalueId × Cells} (h : closeList stack start uvs cells = some r) :
    Closable stack start uvs cells ∧ r.2 = closeCells stack start uvs cells := by
  by_cases hclosable : Closable stack start uvs cells
  · obtain ⟨kept, hkept⟩ := (closeList_spec stack start uvs cells).1 hclosable
    obtain rfl := Option.some.inj (hkept.symm.trans h)
    exact ⟨hclosable, rfl⟩
  · exact absurd (((closeList_spec stack start uvs cells).2 hclosable).symm.trans h) (by simp)

/-- A cell that is still open has been kept. -/
theorem closeList_kept {stack : List Value} {start : ℕ} {uvs : List UpvalueId} {cells : Cells}
    {r : List UpvalueId × Cells} (h : closeList stack start uvs cells = some r) {uv : UpvalueId}
    {t : ThreadId} {index : ℕ} (hopen : r.2 uv = UpvalueState.openAt t index) :
    uv ∈ r.1 ↔ uv ∈ uvs := by
  induction uvs generalizing cells r with
  | nil =>
      obtain rfl := Option.some.inj h
      exact Iff.rfl
  | cons uv₀ uvs ih =>
      have hkeep : (closeList stack start uvs cells).map (fun r => (uv₀ :: r.1, r.2)) =
          some r → (uv ∈ r.1 ↔ uv ∈ uv₀ :: uvs) := by
        intro h
        obtain ⟨r', hr', rfl⟩ := Option.map_eq_some_iff.1 h
        rw [List.mem_cons, List.mem_cons, ih hr' hopen]
      rw [closeList] at h
      split at h
      · split at h
        · obtain ⟨v, -, h⟩ := Option.bind_eq_some_iff.1 h
          -- the cell that was closed stays closed
          have hne : uv ≠ uv₀ := by
            rintro rfl
            have hclosed : r.2 uv = UpvalueState.closed v := by
              rw [(closeList_cells h).2, closeCells, Function.update_self]
              exact ite_self _
            exact absurd (hopen.symm.trans hclosed) (by simp)
          rw [ih h hopen, List.mem_cons, or_iff_right hne]
        · exact hkeep h
      · exact hkeep h

end Tcvm
