/-
# The stack top of a thread

A producer of a variable number of values writes `top`, and its consumer reads it.  Nothing else
does: on threads that differ in `top` only, an operation has results that differ in `top` only,
unless it consumes a variable number of values.

## Main definitions

* `SameButTop` — two threads that differ in `top` at most;
* `Driver.Alike`, `DriveOutcome.Alike` — the same for all threads, and for an iteration;
* `Instr.Variable` — the instructions that read `top`.

## Main results

* `opCall_alike`, `opTailcall_alike`, `opReturn_alike`, `invokeMetamethod_alike` — instructions;
* `scheduleThreadResume_alike`, `pumpSequence_alike`, `unwindError_alike` — the arms of the loop;
* **`iterate_alike`** — an iteration.
-/

import Tcvm.Executor
import Mathlib.Data.Rel

namespace Tcvm

open StackWindow

/-! ### Threads that differ in `top` -/

def ThreadState.withTop (ts : ThreadState) (n : ℕ) : ThreadState := { ts with top := n }

/-- Two threads that differ in `top` at most. -/
def SameButTop (ts ts' : ThreadState) : Prop := ∃ n, ts' = ts.withTop n

theorem SameButTop.refl (ts : ThreadState) : SameButTop ts ts := ⟨ts.top, rfl⟩

/-- Two results of an operation on a thread. -/
def SameResult (r r' : Option ThreadState) : Prop := Option.Rel SameButTop r r'

/-- Two results of a handler. -/
def SameHandler (r r' : VmResult) : Prop :=
  Option.Rel (fun x y => y.1 = x.1 ∧ SameButTop x.2.1 y.2.1 ∧ y.2.2 = x.2.2) r r'

section Options

variable {α β γ δ : Type} {R : α → β → Prop} {S : γ → δ → Prop}

theorem rel_bind {r : Option α} {r' : Option β} {k : α → Option γ} {k' : β → Option δ}
    (h : Option.Rel R r r') (hk : ∀ a b, R a b → Option.Rel S (k a) (k' b)) :
    Option.Rel S (r.bind k) (r'.bind k') := by
  cases h with
  | some hab => exact hk _ _ hab
  | none => exact Option.Rel.none

theorem rel_map {r : Option α} {r' : Option β} {k : α → γ} {k' : β → δ}
    (h : Option.Rel R r r') (hk : ∀ a b, R a b → S (k a) (k' b)) :
    Option.Rel S (r.map k) (r'.map k') := by
  cases h with
  | some hab => exact Option.Rel.some (hk _ _ hab)
  | none => exact Option.Rel.none

/-- What is computed before does not depend on `top`. -/
theorem rel_bind_self {r : Option α} {k : α → Option γ} {k' : α → Option δ}
    (hk : ∀ a, Option.Rel S (k a) (k' a)) : Option.Rel S (r.bind k) (r.bind k') := by
  cases r with
  | none => exact Option.Rel.none
  | some a => exact hk a

theorem rel_map_self {r : Option α} {k : α → γ} {k' : α → δ} (hk : ∀ a, S (k a) (k' a)) :
    Option.Rel S (r.map k) (r.map k') := by
  cases r with
  | none => exact Option.Rel.none
  | some a => exact Option.Rel.some (hk a)

end Options

section Fields

variable (ts : ThreadState) (n : ℕ)

theorem topLua_withTop : (ts.withTop n).topLua = ts.topLua := rfl

theorem savePc_withTop (pc : ℕ) : (ts.withTop n).savePc pc = (ts.savePc pc).withTop n := by
  unfold ThreadState.savePc
  rw [topLua_withTop]
  split
  · rfl
  · rfl

theorem restoreWindow_withTop : (ts.withTop n).restoreWindow = ts.restoreWindow.withTop n := by
  unfold ThreadState.restoreWindow
  rw [topLua_withTop]
  split
  · rfl
  · rfl

theorem finishIfEmpty_withTop (funcIdx : ℕ) :
    finishIfEmpty (ts.withTop n) funcIdx = (finishIfEmpty ts funcIdx).withTop n := by
  unfold finishIfEmpty
  have hframes : (ts.withTop n).frames = ts.frames := rfl
  rw [hframes]
  split
  · rfl
  · rfl

end Fields

section Operations

variable {ts ts' : ThreadState}

theorem SameButTop.setStack (h : SameButTop ts ts') (s : List Value) :
    SameButTop (ts.setStack s) (ts'.setStack s) := by
  obtain ⟨n, rfl⟩ := h
  exact ⟨n, rfl⟩

theorem SameButTop.push (h : SameButTop ts ts') (fr : Frame) :
    SameButTop (ts.push fr) (ts'.push fr) := by
  obtain ⟨n, rfl⟩ := h
  exact ⟨n, rfl⟩

theorem SameButTop.savePc (h : SameButTop ts ts') (pc : ℕ) :
    SameButTop (ts.savePc pc) (ts'.savePc pc) := by
  obtain ⟨n, rfl⟩ := h
  exact ⟨n, savePc_withTop ts n pc⟩

theorem SameButTop.restoreWindow (h : SameButTop ts ts') :
    SameButTop ts.restoreWindow ts'.restoreWindow := by
  obtain ⟨n, rfl⟩ := h
  exact ⟨n, restoreWindow_withTop ts n⟩

theorem SameButTop.finishIfEmpty (h : SameButTop ts ts') (funcIdx : ℕ) :
    SameButTop (finishIfEmpty ts funcIdx) (finishIfEmpty ts' funcIdx) := by
  obtain ⟨n, rfl⟩ := h
  exact ⟨n, finishIfEmpty_withTop ts n funcIdx⟩

/-! ### Handlers -/

theorem pushCall_alike (h : SameButTop ts ts') (closure : LuaClosure) (base nargs returns : ℕ)
    (cont : Option Continuation) :
    SameResult (pushCall ts closure base nargs returns cont)
      (pushCall ts' closure base nargs returns cont) := by
  obtain ⟨n, rfl⟩ := h
  exact rel_map_self fun s => ⟨n, rfl⟩

theorem invokeNative_alike (h : SameButTop ts ts') (argsBase argc : ℕ) (f : NativeFn) :
    SameButTop (invokeNative ts argsBase argc f).1 (invokeNative ts' argsBase argc f).1 ∧
      (invokeNative ts' argsBase argc f).2 = (invokeNative ts argsBase argc f).2 := by
  obtain ⟨n, rfl⟩ := h
  exact ⟨⟨n, rfl⟩, rfl⟩

/-- The number of arguments is read from `top` if it is variable. -/
theorem argCount_alike (argsBase : ℕ) {nargs : ℕ}
    (htop : nargs = 0 → ts.top = ts'.top) :
    argCount ts' argsBase nargs = argCount ts argsBase nargs := by
  unfold argCount
  by_cases hnargs : nargs = 0
  · rw [if_pos hnargs, if_pos hnargs, htop hnargs]
  · rw [if_neg hnargs, if_neg hnargs]

theorem opCallReturn_alike (h : SameButTop ts ts') (funcIdx returns : ℕ) :
    SameResult (opCallReturn ts funcIdx returns) (opCallReturn ts' funcIdx returns) := by
  obtain ⟨n, rfl⟩ := h
  unfold opCallReturn
  rw [restoreWindow_withTop]
  simp only
  split
  · exact rel_map_self fun s => ⟨_, rfl⟩
  · exact rel_map_self fun s => ⟨n, rfl⟩

theorem leaveFrame_alike (h : SameButTop ts ts') (cells : Cells) (base : ℕ) :
    Option.Rel (fun x y => SameButTop x.1 y.1 ∧ y.2 = x.2) (leaveFrame ts cells base)
      (leaveFrame ts' cells base) := by
  obtain ⟨n, rfl⟩ := h
  unfold leaveFrame closeUpvalues
  rw [Option.map_map, Option.map_map]
  exact rel_map_self fun r => ⟨⟨n, rfl⟩, rfl⟩

theorem deliverReturn_alike (h : SameButTop ts ts') (f : LuaFrame) (valuesBase nret : ℕ) :
    Option.Rel (fun x y => y.1 = x.1 ∧ SameButTop x.2 y.2) (deliverReturn ts f valuesBase nret)
      (deliverReturn ts' f valuesBase nret) := by
  obtain ⟨n, rfl⟩ := h
  have hframes : (ts.withTop n).frames = ts.frames := rfl
  unfold deliverReturn
  simp only [hframes]
  split
  · exact rel_map_self fun s => ⟨rfl, n, rfl⟩
  · split
    · exact rel_map_self fun s => ⟨rfl, _, rfl⟩
    · exact rel_map_self fun s => ⟨rfl, n, rfl⟩
  · exact rel_map_self fun s => ⟨rfl, _, rfl⟩

theorem contResume_alike (h : SameButTop ts ts') (cells : Cells) :
    SameHandler (contResume ts cells) (contResume ts' cells) := by
  have htopLua : ts'.topLua = ts.topLua := by
    obtain ⟨n, rfl⟩ := h
    rfl
  unfold contResume
  rw [htopLua]
  refine rel_bind_self fun f => rel_bind_self fun cont =>
    rel_bind (leaveFrame_alike h cells f.base) ?_
  rintro ⟨u, cells'⟩ ⟨u', _⟩ ⟨⟨n, hu⟩, rfl⟩
  have hu : u' = u.withTop n := hu
  subst hu
  exact rel_bind_self fun caller => rel_map_self fun p => ⟨rfl, ⟨n, rfl⟩, rfl⟩

theorem frameReturn_alike (h : SameButTop ts ts') (cells : Cells) (valuesBase nret : ℕ) :
    SameHandler ((frameReturn ts cells valuesBase nret).bind afterReturn)
      ((frameReturn ts' cells valuesBase nret).bind afterReturn) := by
  have htopLua : ts'.topLua = ts.topLua := by
    obtain ⟨n, rfl⟩ := h
    rfl
  have hreturn : Option.Rel (fun x y => y.1 = x.1 ∧ SameButTop x.2.1 y.2.1 ∧ y.2.2 = x.2.2)
      (frameReturn ts cells valuesBase nret) (frameReturn ts' cells valuesBase nret) := by
    unfold frameReturn
    rw [htopLua]
    refine rel_bind_self fun f => ?_
    cases f.continuation with
    | some cont =>
        obtain ⟨n, rfl⟩ := h
        exact Option.Rel.some ⟨rfl, ⟨n, rfl⟩, rfl⟩
    | none =>
        refine rel_bind (leaveFrame_alike h cells f.base) ?_
        rintro ⟨u, cells'⟩ ⟨u', cells''⟩ ⟨hsame, rfl⟩
        exact rel_map (deliverReturn_alike hsame f valuesBase nret)
          fun x y hxy => ⟨hxy.1, hxy.2, rfl⟩
  refine rel_bind hreturn ?_
  rintro ⟨r, u, cells'⟩ ⟨r', u', cells''⟩ ⟨hr, hsame, hcells⟩
  have hr : r = r' := hr.symm
  have hcells : cells' = cells'' := hcells.symm
  subst hr hcells
  cases r with
  | continuation => exact contResume_alike hsame _
  | topLevel => exact Option.Rel.some ⟨rfl, hsame, rfl⟩
  | caller newBase newPc => exact Option.Rel.some ⟨rfl, hsame, rfl⟩
  | toNonLua => exact Option.Rel.some ⟨rfl, hsame, rfl⟩

theorem opReturn_alike (h : SameButTop ts ts') (cells : Cells) (values : ℕ) {count : ℕ}
    (htop : count = 0 → ts.top = ts'.top) :
    SameHandler (opReturn ts cells values count) (opReturn ts' cells values count) := by
  have htopLua : ts'.topLua = ts.topLua := by
    obtain ⟨n, rfl⟩ := h
    rfl
  unfold opReturn
  rw [htopLua]
  refine rel_bind_self fun f => ?_
  simp only [argCount_alike _ htop]
  exact frameReturn_alike h cells _ _

theorem opCall_alike (h : SameButTop ts ts') (cells : Cells) (ip func : ℕ) {nargs : ℕ}
    (returns : ℕ) (target : CallTarget) (htop : nargs = 0 → ts.top = ts'.top) :
    SameHandler (opCall ts cells ip func nargs returns target)
      (opCall ts' cells ip func nargs returns target) := by
  have htopLua : ts'.topLua = ts.topLua := by
    obtain ⟨n, rfl⟩ := h
    rfl
  unfold opCall
  rw [htopLua]
  simp only [argCount_alike _ htop]
  cases target with
  | lua closure =>
      exact rel_map (pushCall_alike (h.savePc ip) closure _ _ returns none)
        fun x y hxy => ⟨rfl, hxy, rfl⟩
  | native f =>
      simp only
      obtain ⟨hsame, hout⟩ := invokeNative_alike h
        ((ts.topLua.map LuaFrame.base).getD 0 + func + 1)
        (argCount ts ((ts.topLua.map LuaFrame.base).getD 0 + func + 1) nargs) f
      rw [hout]
      split
      · exact Option.Rel.some ⟨rfl, (hsame.savePc ip).push _, rfl⟩
      · exact rel_map (opCallReturn_alike hsame _ returns) fun x y hxy => ⟨rfl, hxy, rfl⟩
      · obtain ⟨n, hn⟩ := hsame.savePc ip
        rw [hn]
        exact Option.Rel.some ⟨rfl, ⟨n, rfl⟩, rfl⟩

theorem opTailcall_alike (h : SameButTop ts ts') (cells : Cells) (func : ℕ) {nargs : ℕ}
    (target : CallTarget) (htop : nargs = 0 → ts.top = ts'.top) :
    SameHandler (opTailcall ts cells func nargs target)
      (opTailcall ts' cells func nargs target) := by
  have htopLua : ts'.topLua = ts.topLua := by
    obtain ⟨n, rfl⟩ := h
    rfl
  unfold opTailcall
  rw [htopLua]
  refine rel_bind_self fun f => ?_
  simp only [argCount_alike _ htop]
  cases target with
  | lua closure =>
      obtain ⟨n, rfl⟩ := h
      unfold tailcallLua closeUpvalues
      simp only [Option.bind_map]
      exact rel_bind_self fun r => rel_bind_self fun s => rel_map_self fun s' =>
        ⟨rfl, ⟨n, rfl⟩, rfl⟩
  | native g =>
      simp only
      obtain ⟨hsame, hout⟩ := invokeNative_alike h (f.base + func + 1)
        (argCount ts (f.base + func + 1) nargs) g
      have hstack : (invokeNative ts' (f.base + func + 1)
          (argCount ts (f.base + func + 1) nargs) g).1.stack =
          (invokeNative ts (f.base + func + 1)
            (argCount ts (f.base + func + 1) nargs) g).1.stack := by
        obtain ⟨n, hn⟩ := hsame
        rw [hn]
        rfl
      rw [hout]
      split
      · exact rel_map (leaveFrame_alike hsame cells f.base)
          fun x y hxy => ⟨rfl, hxy.1.push _, hxy.2⟩
      · rw [hstack]
        exact frameReturn_alike hsame cells _ _
      · refine rel_map (leaveFrame_alike hsame cells f.base) ?_
        rintro ⟨u, cells'⟩ ⟨u', cells''⟩ ⟨⟨n, hn⟩, hcells⟩
        have hn : u' = u.withTop n := hn
        subst hn
        exact ⟨rfl, ⟨n, rfl⟩, hcells⟩

theorem invokeMetamethod_alike (h : SameButTop ts ts') (cells : Cells) (ip : ℕ) (metaFn : Value)
    (args : List Value) (cont : Continuation) (target : CallTarget) (crossing : Value) :
    SameHandler (invokeMetamethod ts cells ip metaFn args cont target crossing)
      (invokeMetamethod ts' cells ip metaFn args cont target crossing) := by
  have hsave := h.savePc ip
  have htopLua : (ts'.savePc ip).topLua = (ts.savePc ip).topLua := by
    obtain ⟨n, hn⟩ := hsave
    rw [hn]
    rfl
  have hstack : ts'.stack = ts.stack := by
    obtain ⟨n, rfl⟩ := h
    rfl
  unfold invokeMetamethod
  rw [htopLua, hstack]
  refine rel_bind_self fun caller => ?_
  have hstaged := hsave.setStack (overwrite (grow ts.stack (caller.windowEnd + 1 + args.length)
    Value.nil) caller.windowEnd (metaFn :: args))
  cases target with
  | lua closure =>
      exact rel_map (pushCall_alike hstaged closure _ _ 0 (some cont))
        fun x y hxy => ⟨rfl, hxy, rfl⟩
  | native f =>
      simp only [nativeMetaCall]
      obtain ⟨hsame, hout⟩ := invokeNative_alike hstaged (caller.windowEnd + 1) args.length f
      rw [hout]
      obtain ⟨n, hn⟩ := hsame
      rw [hn]
      split
      · exact Option.Rel.some ⟨rfl, ⟨n, rfl⟩, rfl⟩
      · exact rel_map_self fun p => ⟨rfl, ⟨n, rfl⟩, rfl⟩
      · exact Option.Rel.some ⟨rfl, ⟨n, rfl⟩, rfl⟩
      · exact Option.Rel.some ⟨rfl, ⟨n, rfl⟩, rfl⟩

theorem varargPrep_alike (h : SameButTop ts ts') (f : LuaFrame) :
    SameButTop (varargPrep ts f) (varargPrep ts' f) := by
  obtain ⟨n, rfl⟩ := h
  unfold varargPrep
  split
  · exact ⟨n, rfl⟩
  · exact ⟨n, rfl⟩

/-! ### Landings -/

theorem applyNativeContinuation_alike (h : SameButTop ts ts') (bottom : ℕ) (cont : Continuation) :
    SameResult (applyNativeContinuation ts bottom cont)
      (applyNativeContinuation ts' bottom cont) := by
  obtain ⟨n, rfl⟩ := h
  unfold applyNativeContinuation
  refine rel_bind_self fun result => rel_bind_self fun caller => ?_
  cases cont.payload with
  | storeResult dst => exact rel_map_self fun s => (SameButTop.setStack ⟨n, rfl⟩ s).restoreWindow
  | ignoreResult => exact Option.Rel.some (SameButTop.restoreWindow ⟨n, rfl⟩)
  | condJump offset inverted =>
      simp only
      split
      · exact Option.Rel.some (SameButTop.restoreWindow ⟨n, rfl⟩)
      · exact Option.Rel.some (SameButTop.restoreWindow ⟨n, rfl⟩)
  | tforCall reg count =>
      exact rel_map_self fun s => (SameButTop.setStack ⟨n, rfl⟩ s).restoreWindow

theorem landCallResults_alike (h : SameButTop ts ts') (cs : CallSite) :
    SameResult (landCallResults ts cs) (landCallResults ts' cs) := by
  unfold landCallResults
  cases cs.cont with
  | some cont => exact applyNativeContinuation_alike h cs.bottom cont
  | none =>
      obtain ⟨n, rfl⟩ := h
      refine rel_map_self fun s => SameButTop.finishIfEmpty ?_ cs.funcIdx
      split
      · exact ⟨_, rfl⟩
      · exact (SameButTop.setStack ⟨n, rfl⟩ s).restoreWindow

theorem landUnlessSequence_alike (h : SameButTop ts ts') (cs : CallSite) :
    SameResult (landUnlessSequence ts cs) (landUnlessSequence ts' cs) := by
  have hframes : ts'.frames = ts.frames := by
    obtain ⟨n, rfl⟩ := h
    rfl
  unfold landUnlessSequence
  rw [hframes]
  split
  · exact Option.Rel.some h
  · exact landCallResults_alike h cs

theorem landResumed_alike (h : SameButTop ts ts') (cs : CallSite) :
    SameResult (landResumed ts cs) (landResumed ts' cs) := by
  refine rel_map (landUnlessSequence_alike h cs) ?_
  rintro u _ ⟨n, rfl⟩
  exact ⟨n, rfl⟩

theorem landPropagated_alike (h : SameButTop ts ts') (cs : CallSite) :
    SameResult (landPropagated ts cs) (landPropagated ts' cs) := by
  refine rel_map (landUnlessSequence_alike h cs) ?_
  rintro u _ ⟨n, rfl⟩
  have hstatus : (u.withTop n).status = u.status := rfl
  rw [hstatus]
  split
  · exact ⟨n, rfl⟩
  · exact ⟨n, rfl⟩

/-! ### Calls of the executor -/

theorem scheduleCallAt_alike (h : SameButTop ts ts') (slot : ℕ) (target : CallTarget)
    (returns : ℕ) :
    SameResult (scheduleCallAt ts slot target returns)
      (scheduleCallAt ts' slot target returns) := by
  have hstack : ts'.stack = ts.stack := by
    obtain ⟨n, rfl⟩ := h
    rfl
  unfold scheduleCallAt
  rw [hstack]
  cases target with
  | lua closure => exact pushCall_alike h closure _ _ returns none
  | native f =>
      simp only
      obtain ⟨hsame, hout⟩ := invokeNative_alike h (slot + 1) (ts.stack.length - (slot + 1)) f
      rw [hout]
      obtain ⟨n, hn⟩ := hsame
      rw [hn]
      split
      · exact Option.Rel.some ⟨n, rfl⟩
      · exact rel_map_self fun s => ⟨n, rfl⟩
      · exact Option.Rel.some ⟨n, rfl⟩

theorem callAt_alike (h : SameButTop ts ts') (slot : ℕ) (f : FunctionId) (target : CallTarget)
    (returns : ℕ) :
    SameResult (callAt ts slot f target returns) (callAt ts' slot f target returns) := by
  have hinsert : SameResult (insertFunction ts slot f) (insertFunction ts' slot f) := by
    obtain ⟨n, rfl⟩ := h
    have hstack : (ts.withTop n).stack = ts.stack := rfl
    unfold insertFunction
    rw [hstack]
    split
    · exact Option.Rel.some ⟨n, rfl⟩
    · exact Option.Rel.none
  exact rel_bind hinsert fun x y hxy => scheduleCallAt_alike hxy slot target returns

theorem compactArgs_alike (h : SameButTop ts ts') (cs : CallSite) (f : FunctionId) :
    SameResult (compactArgs ts cs f) (compactArgs ts' cs f) := by
  obtain ⟨n, rfl⟩ := h
  exact rel_bind_self fun s => rel_map_self fun s' => ⟨n, rfl⟩

theorem pushThen_alike (h : SameButTop ts ts') (andThen : Option Sequence) (cs : CallSite) :
    SameButTop (pushThen ts andThen cs) (pushThen ts' andThen cs) := by
  cases andThen with
  | none => exact h
  | some seq => exact h.push _

/-! ### Switching threads, and unwinding -/

theorem resumeWith_alike (h : SameButTop ts ts') (args : List Value) :
    Option.Rel SameResult (ts.resumeWith args) (ts'.resumeWith args) := by
  obtain ⟨n, rfl⟩ := h
  have hstatus : (ts.withTop n).status = ts.status := rfl
  have hframes : (ts.withTop n).frames = ts.frames := rfl
  unfold ThreadState.resumeWith
  rw [hstatus, hframes]
  split
  · split
    · exact Option.Rel.some (Option.Rel.some ⟨n, rfl⟩)
    · exact rel_map_self fun y => landResumed_alike ⟨n, rfl⟩ y
  · exact Option.Rel.none

/-- How two unwindings end. -/
def Unwound.Alike : Unwound → Unwound → Prop
  | caught ts cells, caught ts' cells' => SameButTop ts ts' ∧ cells' = cells
  | uncaught ts cells, uncaught ts' cells' => SameButTop ts ts' ∧ cells' = cells
  | unreachable, unreachable => True
  | panic, panic => True
  | _, _ => False

theorem unwindFrames_alike (h : SameButTop ts ts') (err : Value) (frames : List Frame)
    (cells : Cells) :
    (unwindFrames err frames ts cells).Alike (unwindFrames err frames ts' cells) := by
  induction frames generalizing ts ts' cells with
  | nil =>
      obtain ⟨n, rfl⟩ := h
      exact ⟨⟨n, rfl⟩, rfl⟩
  | cons fr rest ih =>
      cases fr with
      | lua lf =>
          obtain ⟨n, rfl⟩ := h
          have hclose : closeUpvalues (ts.withTop n) cells lf.base =
              (closeUpvalues ts cells lf.base).map fun r => (r.1.withTop n, r.2) := by
            unfold closeUpvalues
            rw [Option.map_map]
            rfl
          simp only [unwindFrames, hclose]
          cases closeUpvalues ts cells lf.base with
          | none => trivial
          | some r => exact ih (by exact ⟨n, rfl⟩) r.2
      | sequence seq cs e =>
          obtain ⟨n, rfl⟩ := h
          exact ⟨⟨n, rfl⟩, rfl⟩
      | waitThread wt => exact ih h cells
      | start f => trivial
      | error e => trivial

end Operations

/-! ### All threads -/

/-- Two executors, with threads that differ in `top` at most. -/
structure Driver.Alike (d d' : Driver) : Prop where
  threads : ∀ t, SameButTop (d.threads t) (d'.threads t)
  cells : d'.cells = d.cells
  freshThread : d'.freshThread = d.freshThread
  freshUpvalue : d'.freshUpvalue = d.freshUpvalue
  threadStack : d'.threadStack = d.threadStack
  mode : d'.mode = d.mode

/-- Two iterations that end alike. -/
def DriveOutcome.Alike : DriveOutcome → DriveOutcome → Prop
  | next d, next d' => d.Alike d'
  | finish r d, finish r' d' => r' = r ∧ d.Alike d'
  | error e d, error e' d' => e' = e ∧ d.Alike d'
  | unreachable, unreachable => True
  | panic, panic => True
  | _, _ => False

/-- The instructions that consume a variable number of values. -/
def Instr.Variable : Instr → Prop
  | setlist _ count _ => count = 0
  | call _ _ nargs _ _ => nargs = 0
  | tailcall _ nargs _ => nargs = 0
  | ret _ count => count = 0
  | _ => False

section Drivers

variable {d d' : Driver} {ts ts' : ThreadState}

theorem Driver.Alike.setThread (h : d.Alike d') (t : ThreadId) (hts : SameButTop ts ts') :
    (d.setThread t ts).Alike (d'.setThread t ts') := by
  refine ⟨fun t' => ?_, h.cells, h.freshThread, h.freshUpvalue, h.threadStack, h.mode⟩
  by_cases heq : t' = t
  · rw [heq, d.setThread_self, d'.setThread_self]
    exact hts
  · rw [d.setThread_of_ne heq, d'.setThread_of_ne heq]
    exact h.threads t'

theorem Driver.Alike.store (h : d.Alike d') (t : ThreadId) (hts : SameButTop ts ts')
    (cells : Cells) : (d.store t ts cells).Alike (d'.store t ts' cells) :=
  { h.setThread t hts with cells := rfl }

theorem Driver.Alike.withStack (h : d.Alike d') (threadStack : List ThreadId) :
    Driver.Alike { d with threadStack := threadStack } { d' with threadStack := threadStack } :=
  { h with threadStack := rfl }

theorem continueWith_alike (h : d.Alike d') (t : ThreadId) {r r' : Option ThreadState}
    (hr : SameResult r r') : (d.continueWith t r).Alike (d'.continueWith t r') := by
  cases hr with
  | some hts => exact h.setThread t hts
  | none => trivial

/-- What a callback does to other threads. -/
theorem applied_alike (h : d.Alike d') (c : Callee) (top : ThreadId) :
    (c.applied top d).Alike (c.applied top d') := by
  have heffect : ∀ (e : ThreadEffect) (d d' : Driver), d.Alike d' →
      (e.apply top d).Alike (e.apply top d') := by
    intro e d d' h
    cases e with
    | create f =>
        simp only [ThreadEffect.apply]
        rw [h.freshThread]
        exact { h.setThread _ (SameButTop.refl _) with freshThread := rfl }
    | close co =>
        simp only [ThreadEffect.apply]
        split
        · exact h
        · refine h.setThread co ?_
          obtain ⟨n, hn⟩ := h.threads co
          rw [hn]
          have hstatus : ((d.threads co).withTop n).status = (d.threads co).status := rfl
          unfold ThreadState.close
          rw [hstatus]
          split
          · exact ⟨n, rfl⟩
          · exact ⟨n, rfl⟩
  unfold Callee.applied
  cases c.target with
  | lua closure => exact h
  | native f =>
      unfold applyEffects
      simp only
      generalize c.effects = effects
      induction effects generalizing d d' with
      | nil => exact h
      | cons e effects ih => exact ih (heffect e d d' h)

theorem scheduleThreadResume_alike (h : d.Alike d') (resumer target : ThreadId)
    (argsBottom : ℕ) (wt : CallSite) :
    (scheduleThreadResume d resumer target argsBottom wt).Alike
      (scheduleThreadResume d' resumer target argsBottom wt) := by
  obtain ⟨n, hn⟩ := h.threads resumer
  have hstack : ((d.threads resumer).withTop n).stack = (d.threads resumer).stack := rfl
  unfold scheduleThreadResume
  simp only [hn, hstack]
  split
  · have hwait : (d.setThread resumer ((d.threads resumer).waiting argsBottom wt)).Alike
        (d'.setThread resumer (((d.threads resumer).withTop n).waiting argsBottom wt)) :=
      h.setThread resumer ⟨n, rfl⟩
    have hresume := resumeWith_alike (hwait.threads target)
      ((d.threads resumer).stack.drop argsBottom)
    generalize ((d.setThread resumer ((d.threads resumer).waiting argsBottom wt)).threads
        target).resumeWith ((d.threads resumer).stack.drop argsBottom) = r,
      ((d'.setThread resumer (((d.threads resumer).withTop n).waiting argsBottom wt)).threads
        target).resumeWith ((d.threads resumer).stack.drop argsBottom) = r' at hresume ⊢
    cases hresume with
    | none => exact ⟨rfl, hwait⟩
    | some hresult =>
        cases hresult with
        | none => trivial
        | some hts =>
            have hnext := hwait.setThread target hts
            exact { hnext with threadStack := congrArg (target :: ·) h.threadStack }
  · trivial

/-! ### The arms of the loop -/

theorem applyPendingAction_alike (h : d.Alike d') (top : ThreadId) (p : PendingAction)
    (callee : Callee) :
    (applyPendingAction d top p callee).Alike (applyPendingAction d' top p callee) := by
  have htop := h.threads top
  unfold applyPendingAction
  cases p.action with
  | ret => trivial
  | sequence seq => exact h.setThread top (htop.push _)
  | call f andThen =>
      exact continueWith_alike (applied_alike h callee top) top
        (callAt_alike (pushThen_alike htop andThen p.callSite) _ _ _ _)
  | yield andThen =>
      refine h.setThread top ?_
      obtain ⟨n, hn⟩ := pushThen_alike htop andThen p.callSite
      rw [hn]
      exact ⟨n, rfl⟩
  | resume target andThen =>
      exact scheduleThreadResume_alike (h.setThread top (pushThen_alike htop andThen p.callSite))
        top target _ _

theorem propagateInnerToResumer_alike (h : d.Alike d') (inner : ThreadId)
    (below : List ThreadId) (bottom : ℕ) (innerYielded : Bool) :
    (propagateInnerToResumer d inner below bottom innerYielded).Alike
      (propagateInnerToResumer d' inner below bottom innerYielded) := by
  obtain ⟨n, hn⟩ := h.threads inner
  have hstack : (d'.threads inner).stack = (d.threads inner).stack := by
    rw [hn]
    rfl
  have hdrained : Driver.Alike
      (if innerYielded then d else d.setThread inner ((d.threads inner).setStack []))
      (if innerYielded then d' else d'.setThread inner ((d'.threads inner).setStack [])) := by
    cases innerYielded with
    | true => exact h
    | false => exact h.setThread inner ((h.threads inner).setStack [])
  unfold propagateInnerToResumer
  simp only [hstack]
  split
  · cases below with
    | nil => trivial
    | cons resumer below' =>
        have hpopped := hdrained.withStack (resumer :: below')
        generalize (if innerYielded then d else d.setThread inner ((d.threads inner).setStack [])) =
            e,
          (if innerYielded then d' else d'.setThread inner ((d'.threads inner).setStack [])) =
            e' at hpopped ⊢
        obtain ⟨m, hm⟩ := hpopped.threads resumer
        have hm : e'.threads resumer = (e.threads resumer).withTop m := hm
        have hframes : (e'.threads resumer).frames = (e.threads resumer).frames := by
          rw [hm]
          rfl
        simp only [hframes]
        split
        · refine continueWith_alike hpopped resumer (landPropagated_alike ?_ _)
          rw [hm]
          exact ⟨m, rfl⟩
        · trivial
  · trivial

theorem unwindError_alike (h : d.Alike d') (top : ThreadId) (below : List ThreadId) (err : Value)
    (frames : List Frame) :
    (unwindError d top below err frames).Alike (unwindError d' top below err frames) := by
  have hunwind := unwindFrames_alike (h.threads top) err frames d.cells
  unfold unwindError
  rw [h.cells]
  generalize unwindFrames err frames (d.threads top) d.cells = u,
    unwindFrames err frames (d'.threads top) d.cells = u' at hunwind ⊢
  cases u with
  | caught ts cells =>
      cases u' with
      | caught ts' cells' =>
          obtain ⟨hsame, rfl⟩ := hunwind
          exact h.store top hsame _
      | _ => exact absurd hunwind id
  | unreachable =>
      cases u' with
      | unreachable => trivial
      | _ => exact absurd hunwind id
  | panic =>
      cases u' with
      | panic => trivial
      | _ => exact absurd hunwind id
  | uncaught ts cells =>
      cases u' with
      | uncaught ts' cells' =>
          obtain ⟨hsame, rfl⟩ := hunwind
          have hleft := h.store top hsame cells'
          simp only
          cases below with
          | nil => exact ⟨rfl, hleft⟩
          | cons resumer below' =>
              obtain ⟨n, hn⟩ := hleft.threads resumer
              simp only [hn]
              have hframes : (((d.store top ts cells').threads resumer).withTop n).frames =
                  ((d.store top ts cells').threads resumer).frames := rfl
              rw [hframes]
              split
              · exact (hleft.setThread resumer ⟨n, rfl⟩).withStack _
              · trivial
      | _ => exact absurd hunwind id

theorem pumpSequence_alike (h : d.Alike d') (top : ThreadId) (hts : SameButTop ts ts')
    (seq : Sequence) (cs : CallSite) (pendingError : Option Value) (choice : PollOutcome)
    (callee : Callee) :
    (pumpSequence d top ts seq cs pendingError choice callee).Alike
      (pumpSequence d' top ts' seq cs pendingError choice callee) := by
  have hstack : ts'.stack = ts.stack := by
    obtain ⟨n, rfl⟩ := hts
    rfl
  have happlied := applied_alike h callee top
  unfold pumpSequence
  rw [hstack]
  simp only
  split
  · split
    · exact h.setThread top ((hts.setStack _).push _)
    · next poll window seq' hout =>
        have hpolled := hts.setStack (ts.stack.take cs.bottom ++
          (pollSequence seq pendingError (ts.stack.drop cs.bottom) choice).window)
        have hagain := hpolled.push (Frame.sequence seq' cs none)
        cases poll with
        | pending => exact ⟨rfl, h.setThread top hagain⟩
        | ret => exact continueWith_alike h top (landCallResults_alike hpolled cs)
        | call f bottom =>
            exact continueWith_alike happlied top (callAt_alike hagain _ _ _ _)
        | yield bottom =>
            refine h.setThread top ?_
            obtain ⟨n, hn⟩ := hagain
            rw [hn]
            exact ⟨n, rfl⟩
        | resume target bottom =>
            exact scheduleThreadResume_alike (h.setThread top hagain) top target _ _
        | tailCall f =>
            exact continueWith_alike happlied top (rel_bind (compactArgs_alike hpolled cs f)
              fun x y hxy => scheduleCallAt_alike hxy _ _ _)
        | tailYield =>
            refine h.setThread top ?_
            obtain ⟨n, hn⟩ := hpolled
            rw [hn]
            exact ⟨n, rfl⟩
        | tailResume target =>
            exact scheduleThreadResume_alike (h.setThread top hpolled) top target _ _
  · trivial

theorem afterHandler_alike (h : d.Alike d') (top : ThreadId) {r r' : VmResult}
    (hr : SameHandler r r') : (d.afterHandler top r).Alike (d'.afterHandler top r') := by
  cases hr with
  | none => trivial
  | @some x y hxy =>
      obtain ⟨flow, ts, cells⟩ := x
      obtain ⟨flow', ts', cells'⟩ := y
      obtain ⟨rfl, hsame, rfl⟩ := hxy
      cases flow' with
      | dispatch pc => exact h.store top (hsame.savePc pc) cells'
      | exit => exact h.store top hsame cells'
      | raise => exact ⟨rfl, h.store top hsame cells'⟩

theorem readUpvalue_alike (h : d.Alike d') (uv : UpvalueId) :
    readUpvalue d' uv = readUpvalue d uv := by
  unfold readUpvalue
  rw [h.cells]
  split
  · rfl
  · next t index hopen =>
      obtain ⟨n, hn⟩ := h.threads t
      rw [hn]
      rfl

theorem writeUpvalue_alike (h : d.Alike d') (uv : UpvalueId) (v : Value) :
    Option.Rel Driver.Alike (writeUpvalue d uv v) (writeUpvalue d' uv v) := by
  unfold writeUpvalue
  rw [h.cells]
  split
  · exact Option.Rel.some { h with cells := rfl }
  · next t index hopen =>
      have ht := h.threads t
      obtain ⟨n, hn⟩ := ht
      rw [hn]
      exact rel_map_self fun s => h.setThread t ⟨n, rfl⟩

theorem captureSlots_alike (h : d.Alike d') (top : ThreadId) (slots : List ℕ) :
    (slots.foldl (captureSlot top) d).Alike (slots.foldl (captureSlot top) d') := by
  induction slots generalizing d d' with
  | nil => exact h
  | cons slot slots ih =>
      refine ih ?_
      obtain ⟨n, hn⟩ := h.threads top
      have hopen : ((d.threads top).withTop n).openUpvalues = (d.threads top).openUpvalues := rfl
      unfold captureSlot
      rw [hn, h.cells, h.freshUpvalue]
      simp only [hopen]
      split
      · exact h
      · exact { h.store top ⟨n, rfl⟩ _ with freshUpvalue := rfl }

theorem opSetlist_alike (h : SameButTop ts ts') (f : LuaFrame) (table : ℕ) {count : ℕ}
    (htop : count = 0 → ts.top = ts'.top) :
    SameResult (opSetlist ts f table count) (opSetlist ts' f table count) := by
  obtain ⟨n, rfl⟩ := h
  have hstack : (ts.withTop n).stack = ts.stack := rfl
  have hstop : (if count = 0 then (ts.withTop n).top else f.base + table + 1 + count) =
      if count = 0 then ts.top else f.base + table + 1 + count :=
    ite_congr rfl (fun hcount => (htop hcount).symm) fun _ => rfl
  have hsame : SameButTop
    (if count = 0 then ts.setStack (grow ts.stack f.windowEnd Value.nil) else ts)
      (if count = 0 then (ts.withTop n).setStack (grow ts.stack f.windowEnd Value.nil)
        else ts.withTop n) := by
    split
    · exact ⟨n, rfl⟩
    · exact ⟨n, rfl⟩
  simp only [opSetlist, hstack, hstop]
  generalize (if count = 0 then ts.top else f.base + table + 1 + count) = stop
  split
  · exact Option.Rel.some hsame
  · exact Option.Rel.none

/-- **An instruction** that reads `top` finds the same there. -/
theorem execInstr_alike (h : d.Alike d') (top : ThreadId) (f : LuaFrame) (instr : Instr)
    (htop : instr.Variable → (d.threads top).top = (d'.threads top).top) :
    (execInstr d top f instr).Alike (execInstr d' top f instr) := by
  have hts := h.threads top
  have hgo : ∀ (e e' : Driver) (ts ts' : ThreadState) (pc : ℕ), e.Alike e' → SameButTop ts ts' →
      (e.goOn top ts pc).Alike (e'.goOn top ts' pc) :=
    fun e e' ts ts' pc he hsame => he.setThread top (hsame.savePc pc)
  cases instr with
  | registers size writes top' pc =>
      refine hgo d d' _ _ pc h ?_
      obtain ⟨n, hn⟩ := hts
      rw [hn]
      exact ⟨_, rfl⟩
  | getUpvalue dst uv pc =>
      simp only [execInstr, readUpvalue_alike h]
      split
      · refine hgo d d' _ _ pc h ?_
        obtain ⟨n, hn⟩ := hts
        rw [hn]
        exact ⟨n, rfl⟩
      · trivial
  | setUpvalue uv v pc =>
      have hwrite := writeUpvalue_alike h uv v
      simp only [execInstr]
      generalize writeUpvalue d uv v = r, writeUpvalue d' uv v = r' at hwrite ⊢
      cases hwrite with
      | none => trivial
      | some halike => exact hgo _ _ _ _ pc halike (halike.threads top)
  | closure dst g captures pc =>
      have hcapture := captureSlots_alike h top (captures.map (f.base + ·))
      refine hgo _ _ _ _ pc hcapture ?_
      obtain ⟨n, hn⟩ := hcapture.threads top
      rw [hn]
      exact ⟨n, rfl⟩
  | varargPrep pc => exact hgo d d' _ _ pc h (varargPrep_alike hts f)
  | setlist table count pc =>
      have hset := opSetlist_alike hts f table htop
      simp only [execInstr]
      generalize opSetlist (d.threads top) f table count = r,
        opSetlist (d'.threads top) f table count = r' at hset ⊢
      cases hset with
      | none => trivial
      | some hsame => exact hgo d d' _ _ pc h hsame
  | close start pc =>
      obtain ⟨n, hn⟩ := hts
      have hclose : closeUpvalues ((d.threads top).withTop n) d.cells (f.base + start) =
          (closeUpvalues (d.threads top) d.cells (f.base + start)).map
            fun r => (r.1.withTop n, r.2) := by
        unfold closeUpvalues
        rw [Option.map_map]
        rfl
      simp only [execInstr, hn, h.cells, hclose]
      cases closeUpvalues (d.threads top) d.cells (f.base + start) with
      | none => trivial
      | some r => exact h.store top (SameButTop.savePc ⟨n, rfl⟩ pc) _
  | tbc val pc =>
      refine hgo d d' _ _ pc h ?_
      obtain ⟨n, hn⟩ := hts
      rw [hn]
      exact ⟨n, rfl⟩
  | raise => exact ⟨rfl, h⟩
  | call ip func nargs returns callee =>
      simp only [execInstr, h.cells]
      exact afterHandler_alike (applied_alike h callee top) top
        (opCall_alike hts d.cells ip func returns callee.target htop)
  | tailcall func nargs callee =>
      simp only [execInstr, h.cells]
      exact afterHandler_alike (applied_alike h callee top) top
        (opTailcall_alike hts d.cells func callee.target htop)
  | ret values count =>
      simp only [execInstr, h.cells]
      exact afterHandler_alike h top (opReturn_alike hts d.cells values htop)
  | metamethod ip metaFn args payload callee crossing =>
      simp only [execInstr, h.cells]
      exact afterHandler_alike (applied_alike h callee top) top
        (invokeMetamethod_alike hts d.cells ip metaFn args _ callee.target crossing)

theorem startFrame_alike (h : d.Alike d') (top : ThreadId) (f : FunctionId) (rest : List Frame)
    (callee : Callee) :
    (startFrame d top f rest callee).Alike (startFrame d' top f rest callee) := by
  have hcall : SameResult (callAt { d.threads top with frames := rest } 0 f callee.target 0)
      (callAt { d'.threads top with frames := rest } 0 f callee.target 0) := by
    obtain ⟨n, hn⟩ := h.threads top
    rw [hn]
    exact callAt_alike ⟨n, rfl⟩ 0 f callee.target 0
  refine continueWith_alike (applied_alike h callee top) top (rel_map hcall ?_)
  rintro u _ ⟨n, rfl⟩
  have hframes : (u.withTop n).frames = u.frames := rfl
  have hpending : (u.withTop n).pendingAction = u.pendingAction := rfl
  rw [hframes, hpending]
  split
  · exact ⟨n, rfl⟩
  · exact ⟨n, rfl⟩

/-! ### An iteration -/

/-- Where a choice reads `top`, it is the same in both executors. -/
def TopAgrees (d d' : Driver) (c : Choice) : Prop :=
  ∀ top below lf rest, d.threadStack = top :: below →
    (d.threads top).frames = Frame.lua lf :: rest →
    c.instr.Variable → (d.threads top).top = (d'.threads top).top

theorem drive_alike (h : d.Alike d') {top : ThreadId} {below : List ThreadId}
    (hstack : d.threadStack = top :: below) (c : Choice) (htop : TopAgrees d d' c) :
    (drive d top below c).Alike (drive d' top below c) := by
  have hts := h.threads top
  obtain ⟨n, hn⟩ := h.threads top
  have hpending : (d'.threads top).pendingAction = (d.threads top).pendingAction := by
    rw [hn]
    rfl
  have hframes : (d'.threads top).frames = (d.threads top).frames := by
    rw [hn]
    rfl
  unfold drive
  simp only [hpending]
  cases (d.threads top).pendingAction with
  | some p =>
      refine applyPendingAction_alike (h.setThread top ?_) top p c.callee
      rw [hn]
      exact ⟨n, rfl⟩
  | none =>
      unfold pumpFrame
      simp only [hframes]
      cases hfr : (d.threads top).frames with
      | nil => trivial
      | cons fr rest =>
          cases fr with
          | lua lf => exact execInstr_alike h top lf c.instr (htop top below lf rest hstack hfr)
          | sequence seq cs e =>
              refine pumpSequence_alike h top ?_ seq cs e c.poll c.callee
              rw [hn]
              exact ⟨n, rfl⟩
          | start f => exact startFrame_alike h top f rest c.callee
          | waitThread wt => trivial
          | error e => exact unwindError_alike h top below e rest

/-- **An iteration** of executors that are alike ends alike, unless it reads `top` where it
differs. -/
theorem iterate_alike (h : d.Alike d') (c : Choice) (htop : TopAgrees d d' c) :
    (iterate d c).Alike (iterate d' c) := by
  unfold iterate
  rw [h.threadStack]
  cases hstack : d.threadStack with
  | nil => trivial
  | cons top below =>
      obtain ⟨n, hn⟩ := h.threads top
      have hstatus : (d'.threads top).status = (d.threads top).status := by
        rw [hn]
        rfl
      have hyield : (d'.threads top).yieldBottom = (d.threads top).yieldBottom := by
        rw [hn]
        rfl
      have hvalues : (d'.threads top).stack = (d.threads top).stack := by
        rw [hn]
        rfl
      cases below with
      | nil =>
          simp only [hstatus, hyield, hvalues]
          cases (d.threads top).status with
          | result bottom => exact ⟨rfl, { h with threadStack := rfl, mode := rfl }⟩
          | stopped => exact ⟨rfl, h⟩
          | suspended =>
              simp only
              split
              · split
                · exact ⟨rfl, { h with threadStack := rfl, mode := rfl }⟩
                · trivial
              · exact drive_alike h hstack c htop
          | normal => exact drive_alike h hstack c htop
      | cons resumer below' =>
          simp only [hstatus, hyield]
          cases (d.threads top).status with
          | result bottom => exact propagateInnerToResumer_alike h top _ bottom false
          | suspended => exact propagateInnerToResumer_alike h top _ _ true
          | stopped => exact ⟨rfl, h⟩
          | normal => exact drive_alike h hstack c htop

end Drivers

end Tcvm
