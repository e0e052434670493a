/-
# What no operation on a thread touches

A thread keeps its handle for ever, and its yield site until it yields or is resumed.  Calls,
returns, landings and unwinding leave both as they are.

## Main definitions

* `SameSite` — the yield site and the handle are the same;
* `VmKeeps` — a handler keeps them.

## Main results

* `opCall_keeps`, `opTailcall_keeps`, `opReturn_keeps`, `invokeMetamethod_keeps` — instructions;
* `callAt_keeps`, `landCallResults_keeps`, `unwindFrames_keeps` — the executor.
-/

import Tcvm.Executor

namespace Tcvm

open StackWindow

/-- The yield site and the handle of a thread are the same. -/
structure SameSite (ts ts' : ThreadState) : Prop where
  yieldBottom : ts'.yieldBottom = ts.yieldBottom
  threadHandle : ts'.threadHandle = ts.threadHandle

namespace SameSite

theorem refl (ts : ThreadState) : SameSite ts ts := ⟨rfl, rfl⟩

theorem trans {ts ts' ts'' : ThreadState} (h : SameSite ts ts') (h' : SameSite ts' ts'') :
    SameSite ts ts'' :=
  ⟨h'.yieldBottom.trans h.yieldBottom, h'.threadHandle.trans h.threadHandle⟩

end SameSite

theorem setStack_keeps (ts : ThreadState) (s : List Value) :
    SameSite ts (ts.setStack s) := ⟨rfl, rfl⟩

theorem savePc_keeps (ts : ThreadState) (pc : ℕ) : SameSite ts (ts.savePc pc) := by
  unfold ThreadState.savePc
  split
  · exact ⟨rfl, rfl⟩
  · exact SameSite.refl ts

theorem restoreWindow_keeps (ts : ThreadState) : SameSite ts ts.restoreWindow := by
  unfold ThreadState.restoreWindow
  split
  · exact setStack_keeps ts _
  · exact SameSite.refl ts

/-! ### Handlers -/

/-- A handler keeps the yield site and the handle. -/
def VmKeeps (ts : ThreadState) (r : VmResult) : Prop :=
  ∀ flow ts' cells, r = some (flow, ts', cells) → SameSite ts ts'

theorem vmKeeps_some {ts ts' : ThreadState} {flow : Flow} {cells : Cells} (h : SameSite ts ts') :
    VmKeeps ts (some (flow, ts', cells)) := by
  intro flow' ts'' cells' heq
  cases heq
  exact h

theorem vmKeeps_bind {ts : ThreadState} {α : Type} {r : Option α} {k : α → VmResult}
    (h : ∀ a, r = some a → VmKeeps ts (k a)) : VmKeeps ts (r.bind k) := by
  intro flow ts' cells heq
  obtain ⟨a, ha, hk⟩ := Option.bind_eq_some_iff.1 heq
  exact h a ha flow ts' cells hk

theorem vmKeeps_map {ts : ThreadState} {α : Type} {r : Option α}
    {k : α → Flow × ThreadState × Cells}
    (h : ∀ a, r = some a → SameSite ts (k a).2.1) : VmKeeps ts (r.map k) := by
  intro flow ts' cells heq
  obtain ⟨a, ha, hk⟩ := Option.map_eq_some_iff.1 heq
  have hkeeps := h a ha
  rwa [hk] at hkeeps

theorem VmKeeps.of_keeps {ts ts' : ThreadState} {r : VmResult} (h : SameSite ts ts')
    (hr : VmKeeps ts' r) : VmKeeps ts r :=
  fun flow ts'' cells heq => h.trans (hr flow ts'' cells heq)

theorem pushCall_keeps {ts ts' : ThreadState} {closure : LuaClosure} {base nargs returns : ℕ}
    {cont : Option Continuation} (h : pushCall ts closure base nargs returns cont = some ts') :
    SameSite ts ts' := by
  obtain ⟨s, -, rfl⟩ := Option.map_eq_some_iff.1 h
  exact ⟨rfl, rfl⟩

theorem leaveFrame_keeps {ts : ThreadState} {cells : Cells} {base : ℕ} {r : ThreadState × Cells}
    (h : leaveFrame ts cells base = some r) : SameSite ts r.1 := by
  obtain ⟨u, hu, rfl⟩ := Option.map_eq_some_iff.1 h
  obtain ⟨v, -, rfl⟩ := Option.map_eq_some_iff.1 hu
  exact ⟨rfl, rfl⟩

theorem opCallReturn_keeps {ts ts' : ThreadState} {funcIdx returns : ℕ}
    (h : opCallReturn ts funcIdx returns = some ts') : SameSite ts ts' := by
  simp only [opCallReturn] at h
  split at h
  · obtain ⟨s, -, rfl⟩ := Option.map_eq_some_iff.1 h
    exact ⟨rfl, rfl⟩
  · obtain ⟨s, -, rfl⟩ := Option.map_eq_some_iff.1 h
    exact ⟨rfl, rfl⟩

theorem opCall_keeps (ts : ThreadState) (cells : Cells) (ip func nargs returns : ℕ)
    (target : CallTarget) : VmKeeps ts (opCall ts cells ip func nargs returns target) := by
  unfold opCall
  cases target with
  | lua closure =>
      exact vmKeeps_map fun ts' hcall => (savePc_keeps ts ip).trans (pushCall_keeps hcall)
  | native g =>
      have hnative : ∀ b n, SameSite ts (invokeNative ts b n g).1 := fun b n => setStack_keeps ts _
      simp only
      split
      · exact vmKeeps_some (((hnative _ _).trans (savePc_keeps _ ip)).trans ⟨rfl, rfl⟩)
      · exact vmKeeps_map fun ts' hret => (hnative _ _).trans (opCallReturn_keeps hret)
      · exact vmKeeps_some (((hnative _ _).trans (savePc_keeps _ ip)).trans ⟨rfl, rfl⟩)

theorem deliverReturn_keeps {ts : ThreadState} {f : LuaFrame} {valuesBase nret : ℕ}
    {d : FrameReturn × ThreadState} (h : deliverReturn ts f valuesBase nret = some d) :
    SameSite ts d.2 := by
  simp only [deliverReturn] at h
  split at h
  · obtain ⟨s, -, rfl⟩ := Option.map_eq_some_iff.1 h
    exact ⟨rfl, rfl⟩
  · split at h
    · obtain ⟨s, -, rfl⟩ := Option.map_eq_some_iff.1 h
      exact ⟨rfl, rfl⟩
    · obtain ⟨s, -, rfl⟩ := Option.map_eq_some_iff.1 h
      exact ⟨rfl, rfl⟩
  · obtain ⟨s, -, rfl⟩ := Option.map_eq_some_iff.1 h
    exact ⟨rfl, rfl⟩

theorem contResume_keeps (ts : ThreadState) (cells : Cells) : VmKeeps ts (contResume ts cells) :=
  vmKeeps_bind fun _ _ => vmKeeps_bind fun _ _ => vmKeeps_bind fun _ hleave =>
    vmKeeps_bind fun _ _ => vmKeeps_map fun _ _ => (leaveFrame_keeps hleave).trans ⟨rfl, rfl⟩

theorem frameReturn_keeps (ts : ThreadState) (cells : Cells) (valuesBase nret : ℕ) :
    VmKeeps ts ((frameReturn ts cells valuesBase nret).bind afterReturn) := by
  refine vmKeeps_bind fun r hreturn => ?_
  obtain ⟨f, -, hreturn⟩ := Option.bind_eq_some_iff.1 hreturn
  cases hcont : f.continuation with
  | some cont =>
      simp only [hcont, Option.some.injEq] at hreturn
      subst hreturn
      show VmKeeps ts (contResume (ts.setTopLua _) cells)
      refine VmKeeps.of_keeps ?_ (contResume_keeps _ _)
      exact ⟨rfl, rfl⟩
  | none =>
      simp only [hcont] at hreturn
      obtain ⟨l, hleave, hreturn⟩ := Option.bind_eq_some_iff.1 hreturn
      obtain ⟨d, hdeliver, rfl⟩ := Option.map_eq_some_iff.1 hreturn
      have hkeeps := (leaveFrame_keeps hleave).trans (deliverReturn_keeps hdeliver)
      unfold afterReturn
      split
      · exact VmKeeps.of_keeps hkeeps (contResume_keeps _ _)
      · exact vmKeeps_some hkeeps
      · exact vmKeeps_some hkeeps
      · exact vmKeeps_some hkeeps

theorem opReturn_keeps (ts : ThreadState) (cells : Cells) (values count : ℕ) :
    VmKeeps ts (opReturn ts cells values count) :=
  vmKeeps_bind fun _ _ => frameReturn_keeps ts cells _ _

theorem opTailcall_keeps (ts : ThreadState) (cells : Cells) (func nargs : ℕ)
    (target : CallTarget) : VmKeeps ts (opTailcall ts cells func nargs target) := by
  refine vmKeeps_bind fun f _ => ?_
  cases target with
  | lua closure =>
      refine vmKeeps_bind fun r hclose => vmKeeps_bind fun s _ => vmKeeps_map fun s'' _ => ?_
      obtain ⟨v, -, rfl⟩ := Option.map_eq_some_iff.1 hclose
      exact ⟨rfl, rfl⟩
  | native g =>
      have hnative : ∀ b n, SameSite ts (invokeNative ts b n g).1 := fun b n => setStack_keeps ts _
      simp only
      split
      · exact vmKeeps_map fun l hleave =>
          ((hnative _ _).trans (leaveFrame_keeps hleave)).trans ⟨rfl, rfl⟩
      · exact VmKeeps.of_keeps (hnative _ _) (frameReturn_keeps _ cells _ _)
      · exact vmKeeps_map fun l hleave =>
          ((hnative _ _).trans (leaveFrame_keeps hleave)).trans ⟨rfl, rfl⟩

theorem invokeMetamethod_keeps (ts : ThreadState) (cells : Cells) (ip : ℕ) (metaFn : Value)
    (args : List Value) (cont : Continuation) (target : CallTarget) (crossing : Value) :
    VmKeeps ts (invokeMetamethod ts cells ip metaFn args cont target crossing) := by
  refine vmKeeps_bind fun caller _ => ?_
  have hsave : ∀ s, SameSite ts ((ts.savePc ip).setStack s) := fun s =>
    (savePc_keeps ts ip).trans (setStack_keeps _ s)
  cases target with
  | lua closure => exact vmKeeps_map fun ts' hcall => (hsave _).trans (pushCall_keeps hcall)
  | native g =>
      simp only [nativeMetaCall]
      split
      · exact vmKeeps_some ((savePc_keeps ts ip).trans ⟨rfl, rfl⟩)
      · exact vmKeeps_map fun p _ => (savePc_keeps ts ip).trans ⟨rfl, rfl⟩
      · exact vmKeeps_some ((savePc_keeps ts ip).trans ⟨rfl, rfl⟩)
      · exact vmKeeps_some ((savePc_keeps ts ip).trans ⟨rfl, rfl⟩)

/-! ### The executor -/

theorem finishIfEmpty_keeps (ts : ThreadState) (funcIdx : ℕ) :
    SameSite ts (finishIfEmpty ts funcIdx) := by
  unfold finishIfEmpty
  split
  · exact ⟨rfl, rfl⟩
  · exact SameSite.refl ts

theorem applyNativeContinuation_keeps {ts ts' : ThreadState} {bottom : ℕ} {cont : Continuation}
    (h : applyNativeContinuation ts bottom cont = some ts') : SameSite ts ts' := by
  obtain ⟨r, -, h⟩ := Option.bind_eq_some_iff.1 h
  obtain ⟨caller, -, h⟩ := Option.bind_eq_some_iff.1 h
  have hstack : ∀ s, SameSite ts (ts.setStack s).restoreWindow := fun s =>
    (setStack_keeps ts s).trans (restoreWindow_keeps _)
  cases hp : cont.payload with
  | storeResult dst =>
      simp only [hp] at h
      obtain ⟨s, -, rfl⟩ := Option.map_eq_some_iff.1 h
      exact hstack s
  | ignoreResult =>
      simp only [hp, Option.some.injEq] at h
      subst h
      exact restoreWindow_keeps ts
  | condJump offset inverted =>
      simp only [hp] at h
      split at h
      · cases h
        refine SameSite.trans ?_ (restoreWindow_keeps _)
        exact ⟨rfl, rfl⟩
      · cases h
        exact restoreWindow_keeps ts
  | tforCall reg count =>
      simp only [hp] at h
      obtain ⟨s, -, rfl⟩ := Option.map_eq_some_iff.1 h
      exact hstack s

theorem landCallResults_keeps {ts ts' : ThreadState} {cs : CallSite}
    (h : landCallResults ts cs = some ts') : SameSite ts ts' := by
  cases hcont : cs.cont with
  | some cont =>
      simp only [landCallResults, hcont] at h
      exact applyNativeContinuation_keeps h
  | none =>
      simp only [landCallResults, hcont] at h
      obtain ⟨s, -, rfl⟩ := Option.map_eq_some_iff.1 h
      refine SameSite.trans ?_ (finishIfEmpty_keeps _ _)
      split
      · exact ⟨rfl, rfl⟩
      · exact (setStack_keeps ts s).trans (restoreWindow_keeps _)

theorem landUnlessSequence_keeps {ts ts' : ThreadState} {cs : CallSite}
    (h : landUnlessSequence ts cs = some ts') : SameSite ts ts' := by
  unfold landUnlessSequence at h
  split at h
  · cases h
    exact SameSite.refl ts
  · exact landCallResults_keeps h

theorem landResumed_keeps {ts ts' : ThreadState} {cs : CallSite}
    (h : landResumed ts cs = some ts') : SameSite ts ts' := by
  obtain ⟨u, hu, rfl⟩ := Option.map_eq_some_iff.1 h
  exact (landUnlessSequence_keeps hu).trans ⟨rfl, rfl⟩

theorem landPropagated_keeps {ts ts' : ThreadState} {cs : CallSite}
    (h : landPropagated ts cs = some ts') : SameSite ts ts' := by
  obtain ⟨u, hu, rfl⟩ := Option.map_eq_some_iff.1 h
  refine (landUnlessSequence_keeps hu).trans ?_
  split
  · exact SameSite.refl u
  · exact ⟨rfl, rfl⟩

theorem scheduleCallAt_keeps {ts ts' : ThreadState} {slot returns : ℕ} {target : CallTarget}
    (h : scheduleCallAt ts slot target returns = some ts') : SameSite ts ts' := by
  unfold scheduleCallAt at h
  cases target with
  | lua closure => exact pushCall_keeps h
  | native g =>
      simp only at h
      split at h
      · cases h
        exact ⟨rfl, rfl⟩
      · obtain ⟨s, -, rfl⟩ := Option.map_eq_some_iff.1 h
        exact ⟨rfl, rfl⟩
      · cases h
        exact ⟨rfl, rfl⟩

theorem callAt_keeps {ts ts' : ThreadState} {slot returns : ℕ} {f : FunctionId}
    {target : CallTarget} (h : callAt ts slot f target returns = some ts') : SameSite ts ts' := by
  obtain ⟨u, hu, hcall⟩ := Option.bind_eq_some_iff.1 h
  unfold insertFunction at hu
  split at hu
  · cases hu
    refine SameSite.trans ?_ (scheduleCallAt_keeps hcall)
    exact ⟨rfl, rfl⟩
  · exact absurd hu (by simp)

theorem compactArgs_keeps {ts ts' : ThreadState} {cs : CallSite} {f : FunctionId}
    (h : compactArgs ts cs f = some ts') : SameSite ts ts' := by
  obtain ⟨s, -, h⟩ := Option.bind_eq_some_iff.1 h
  obtain ⟨s', -, rfl⟩ := Option.map_eq_some_iff.1 h
  exact ⟨rfl, rfl⟩

theorem pushThen_keeps (ts : ThreadState) (andThen : Option Sequence) (cs : CallSite) :
    SameSite ts (pushThen ts andThen cs) := by
  cases andThen with
  | none => exact SameSite.refl ts
  | some seq => exact ⟨rfl, rfl⟩

theorem varargPrep_keeps (ts : ThreadState) (f : LuaFrame) : SameSite ts (varargPrep ts f) := by
  unfold varargPrep
  split
  · exact ⟨rfl, rfl⟩
  · exact SameSite.refl ts

theorem unwindFrames_keeps (err : Value) {frames : List Frame} {ts ts' : ThreadState}
    {cells cells' : Cells}
    (h : unwindFrames err frames ts cells = Unwound.caught ts' cells' ∨
      unwindFrames err frames ts cells = Unwound.uncaught ts' cells') : SameSite ts ts' := by
  induction frames generalizing ts cells with
  | nil =>
      rcases h with h | h
      · exact absurd h (by simp [unwindFrames])
      · cases h
        exact ⟨rfl, rfl⟩
  | cons fr rest ih =>
      cases fr with
      | lua lf =>
          simp only [unwindFrames] at h
          split at h
          · next r hclose =>
              obtain ⟨v, -, rfl⟩ := Option.map_eq_some_iff.1 hclose
              refine SameSite.trans ?_ (ih h)
              exact ⟨rfl, rfl⟩
          · exact absurd h (by simp)
      | sequence seq cs e =>
          rcases h with h | h
          · cases h
            exact ⟨rfl, rfl⟩
          · exact absurd h (by simp [unwindFrames])
      | waitThread wt =>
          simp only [unwindFrames] at h
          exact ih h
      | start f => exact absurd h (by simp [unwindFrames])
      | error e => exact absurd h (by simp [unwindFrames])

end Tcvm
