/-
# What operations leave of a stack

An operation on a thread keeps the list of open upvalues and the slots below a position, or closes
the upvalues it drops, each with the value of its slot.

## Main definitions

* `Cuts` — the list of open upvalues is kept, and the slots below a position stay;
* `OpenIn` — the upvalues of a list are open below a position only;
* `Moves` — an operation closes the upvalues that it drops, and leaves the others on the stack.

## Main results

* `closeList_moves`, `leaveFrame_moves` — closing;
* `landCallResults_cuts`, `callAt_cuts` — landings and calls of the executor;
* **`opCall_moves`**, `opReturn_moves`, `opTailcall_moves`, `invokeMetamethod_moves` —
  instructions;
* `unwindFrames_moves` — unwinding.
-/

import Tcvm.ThreadFields

namespace Tcvm

open StackWindow

/-! ### Slots that stay -/

/-- The list of open upvalues is kept, and the slots below `k` stay on the stack. -/
structure Cuts (k : ℕ) (ts ts' : ThreadState) : Prop where
  upvalues : ts'.openUpvalues = ts.openUpvalues
  length : min k ts.stack.length ≤ ts'.stack.length

namespace Cuts

variable {k k' : ℕ} {ts ts' ts'' : ThreadState}

theorem refl (k : ℕ) (ts : ThreadState) : Cuts k ts ts := ⟨rfl, Nat.min_le_right _ _⟩

theorem trans (h : Cuts k ts ts') (h' : Cuts k ts' ts'') : Cuts k ts ts'' := by
  have hlen := h.length
  have hlen' := h'.length
  exact ⟨h'.upvalues.trans h.upvalues, by omega⟩

theorem mono (h : Cuts k ts ts') (hle : k' ≤ k) : Cuts k' ts ts' := by
  have hlen := h.length
  exact ⟨h.upvalues, by omega⟩

/-- Nothing is cut off. -/
theorem of_length_le (hupvalues : ts'.openUpvalues = ts.openUpvalues)
    (hlen : ts.stack.length ≤ ts'.stack.length) : Cuts k ts ts' :=
  ⟨hupvalues, by omega⟩

end Cuts

section Operations

variable {ts ts' : ThreadState}

theorem savePc_cuts (k : ℕ) (ts : ThreadState) (pc : ℕ) : Cuts k ts (ts.savePc pc) := by
  unfold ThreadState.savePc
  split
  · exact Cuts.of_length_le rfl (Nat.le_refl _)
  · exact Cuts.refl k ts

theorem restoreWindow_cuts (k : ℕ) (ts : ThreadState) : Cuts k ts ts.restoreWindow := by
  unfold ThreadState.restoreWindow
  split
  · next lf _ =>
      refine Cuts.of_length_le rfl ?_
      rw [ThreadState.stack_setStack, length_grow]
      exact Nat.le_max_left _ _
  · exact Cuts.refl k ts

/-- The first slots of a stack. -/
theorem take_cuts {k n : ℕ} {s : List Value} (hlen : s.length = ts.stack.length) (hkn : k ≤ n)
    (hupvalues : ts'.openUpvalues = ts.openUpvalues) (hstack : ts'.stack = s.take n) :
    Cuts k ts ts' := by
  refine ⟨hupvalues, ?_⟩
  rw [hstack, List.length_take, hlen]
  omega

/-- The first slots of a stack, with values behind them. -/
theorem take_append_cuts {k n : ℕ} {vs : List Value} (hkn : k ≤ n)
    (hupvalues : ts'.openUpvalues = ts.openUpvalues)
    (hstack : ts'.stack = ts.stack.take n ++ vs) : Cuts k ts ts' := by
  refine ⟨hupvalues, ?_⟩
  rw [hstack, List.length_append, List.length_take]
  omega

theorem invokeNative_cuts (ts : ThreadState) (argsBase argc : ℕ) (f : NativeFn) :
    Cuts argsBase ts (invokeNative ts argsBase argc f).1 := by
  refine ⟨rfl, ?_⟩
  simp only [invokeNative, ThreadState.stack_setStack, List.length_append, List.length_take,
    length_resize]
  omega

/-- A callback does not see the slots below its arguments. -/
theorem invokeNative_getElem? (ts : ThreadState) (argsBase argc : ℕ) (f : NativeFn) {i : ℕ}
    (hi : i < argsBase) (hlt : i < ts.stack.length) :
    (invokeNative ts argsBase argc f).1.stack[i]? = ts.stack[i]? := by
  have hresize : i < (resize ts.stack (argsBase + argc) Value.nil).length := by
    rw [length_resize]
    omega
  have htake : i < ((resize ts.stack (argsBase + argc) Value.nil).take argsBase).length := by
    rw [List.length_take]
    omega
  simp only [invokeNative, ThreadState.stack_setStack]
  rw [List.getElem?_append_left htake, List.getElem?_take_of_lt hi, resize,
    List.getElem?_append_left (by rw [List.length_take]; omega),
    List.getElem?_take_of_lt (by omega)]

theorem pushCall_cuts {closure : LuaClosure} {base nargs returns : ℕ}
    {cont : Option Continuation} (h : pushCall ts closure base nargs returns cont = some ts')
    (k : ℕ) : Cuts k ts ts' := by
  obtain ⟨s, hpad, rfl⟩ := Option.map_eq_some_iff.1 h
  refine Cuts.of_length_le rfl ?_
  show ts.stack.length ≤ s.length
  rw [length_fill? hpad, length_grow]
  exact Nat.le_max_left _ _

theorem opCallReturn_cuts {funcIdx returns : ℕ} (h : opCallReturn ts funcIdx returns = some ts') :
    Cuts funcIdx ts ts' := by
  simp only [opCallReturn] at h
  split at h
  · obtain ⟨s, hland, rfl⟩ := Option.map_eq_some_iff.1 h
    exact take_cuts (length_landValues hland) (Nat.le_add_right _ _) rfl rfl
  · obtain ⟨s, hland, rfl⟩ := Option.map_eq_some_iff.1 h
    refine Cuts.of_length_le rfl ?_
    have hgrow := (restoreWindow_cuts ts.stack.length ts).length
    rw [ThreadState.stack_setStack, length_landValues hland]
    omega

/-- Only a thread that is not called by bytecode is cut when a frame returns. -/
theorem deliverReturn_cuts {f : LuaFrame} {valuesBase nret : ℕ} {d : FrameReturn × ThreadState}
    (h : deliverReturn ts f valuesBase nret = some d) : Cuts f.funcSlot ts d.2 := by
  simp only [deliverReturn] at h
  split at h
  · obtain ⟨s, hcopy, rfl⟩ := Option.map_eq_some_iff.1 h
    exact take_cuts (length_copy? hcopy) (Nat.le_add_right _ _) rfl rfl
  · split at h
    · obtain ⟨s, hcopy, rfl⟩ := Option.map_eq_some_iff.1 h
      exact Cuts.of_length_le rfl (Nat.le_of_eq (length_copy? hcopy).symm)
    · obtain ⟨s, hland, rfl⟩ := Option.map_eq_some_iff.1 h
      exact Cuts.of_length_le rfl (Nat.le_of_eq (length_landValues hland).symm)
  · obtain ⟨s, hcopy, rfl⟩ := Option.map_eq_some_iff.1 h
    exact take_cuts (length_copy? hcopy) (Nat.le_add_right _ _) rfl rfl

theorem length_applyContPayload {s : List Value} {base ip resultsBase nret : ℕ}
    {payload : ContinuationPayload} {p : List Value × ℕ}
    (h : applyContPayload s base ip payload resultsBase nret = some p) :
    p.1.length = s.length := by
  unfold applyContPayload at h
  cases payload with
  | storeResult dst =>
      obtain ⟨r, -, h⟩ := Option.bind_eq_some_iff.1 h
      obtain ⟨s', hset, rfl⟩ := Option.map_eq_some_iff.1 h
      exact length_set? hset
  | ignoreResult =>
      cases h
      rfl
  | condJump offset inverted =>
      obtain ⟨r, -, rfl⟩ := Option.map_eq_some_iff.1 h
      rfl
  | tforCall reg count =>
      simp only at h
      split at h
      · obtain ⟨s', hland, rfl⟩ := Option.map_eq_some_iff.1 h
        exact length_landValues hland
      · exact absurd h (by simp)

theorem varargPrep_cuts (k : ℕ) (ts : ThreadState) (f : LuaFrame) :
    Cuts k ts (varargPrep ts f) := by
  unfold varargPrep
  split
  · refine Cuts.of_length_le rfl ?_
    simp only [ThreadState.setTopLua, ThreadState.stack_setStack, length_grow, overwrite,
      List.length_append, List.length_take, List.length_drop]
    omega
  · exact Cuts.refl k ts

/-! ### Landings and calls of the executor -/

/-- A landing cuts the stack at the function, unless a continuation takes the values. -/
def CallSite.floor (cs : CallSite) : ℕ :=
  if cs.cont = none then min cs.funcIdx cs.bottom else cs.bottom

theorem finishIfEmpty_cuts (k : ℕ) (ts : ThreadState) (funcIdx : ℕ) :
    Cuts k ts (finishIfEmpty ts funcIdx) := by
  unfold finishIfEmpty
  split
  · exact Cuts.of_length_le rfl (Nat.le_refl _)
  · exact Cuts.refl k ts

theorem applyNativeContinuation_cuts {bottom : ℕ} {cont : Continuation}
    (h : applyNativeContinuation ts bottom cont = some ts') (k : ℕ) : Cuts k ts ts' := by
  have hset : ∀ s : List Value, s.length = ts.stack.length →
      Cuts k ts (ts.setStack s).restoreWindow := by
    intro s hs
    have hfirst : Cuts k ts (ts.setStack s) := Cuts.of_length_le rfl (Nat.le_of_eq hs.symm)
    exact hfirst.trans (restoreWindow_cuts k _)
  obtain ⟨result, -, h⟩ := Option.bind_eq_some_iff.1 h
  obtain ⟨caller, -, h⟩ := Option.bind_eq_some_iff.1 h
  cases hpayload : cont.payload with
  | storeResult dst =>
      simp only [hpayload] at h
      obtain ⟨s, hset', rfl⟩ := Option.map_eq_some_iff.1 h
      exact hset s (length_set? hset')
  | ignoreResult =>
      simp only [hpayload, Option.some.injEq] at h
      rw [← h]
      exact restoreWindow_cuts k ts
  | condJump offset inverted =>
      simp only [hpayload] at h
      split at h
      · rw [← Option.some.inj h]
        have hfirst : Cuts k ts (ts.setTopLua { caller with pc := offsetPc caller.pc offset }) :=
          Cuts.of_length_le rfl (Nat.le_refl _)
        exact hfirst.trans (restoreWindow_cuts k _)
      · rw [← Option.some.inj h]
        exact restoreWindow_cuts k ts
  | tforCall reg count =>
      simp only [hpayload] at h
      obtain ⟨s, hland, rfl⟩ := Option.map_eq_some_iff.1 h
      exact hset s (length_landValues hland)

theorem landCallResults_cuts {cs : CallSite} (h : landCallResults ts cs = some ts') :
    Cuts cs.floor ts ts' := by
  unfold landCallResults at h
  cases hcont : cs.cont with
  | some cont =>
      simp only [hcont] at h
      exact applyNativeContinuation_cuts h _
  | none =>
      have hfloor : cs.floor ≤ cs.funcIdx := by
        unfold CallSite.floor
        rw [if_pos hcont]
        exact Nat.min_le_left _ _
      simp only [hcont] at h
      obtain ⟨s, hland, rfl⟩ := Option.map_eq_some_iff.1 h
      have hlen := length_landValues hland
      refine Cuts.trans ?_ (finishIfEmpty_cuts _ _ cs.funcIdx)
      split
      · exact take_cuts hlen (Nat.le_trans hfloor (Nat.le_add_right _ _)) rfl rfl
      · have hfirst : Cuts cs.floor ts (ts.setStack s) :=
          Cuts.of_length_le rfl (Nat.le_of_eq hlen.symm)
        exact hfirst.trans (restoreWindow_cuts _ _)

theorem landUnlessSequence_cuts {cs : CallSite} (h : landUnlessSequence ts cs = some ts') :
    Cuts cs.floor ts ts' := by
  unfold landUnlessSequence at h
  split at h
  · rw [← Option.some.inj h]
    exact Cuts.refl _ ts
  · exact landCallResults_cuts h

theorem landResumed_cuts {cs : CallSite} (h : landResumed ts cs = some ts') :
    Cuts cs.floor ts ts' := by
  obtain ⟨u, hland, rfl⟩ := Option.map_eq_some_iff.1 h
  exact (landUnlessSequence_cuts hland).trans (Cuts.of_length_le rfl (Nat.le_refl _))

theorem landPropagated_cuts {cs : CallSite} (h : landPropagated ts cs = some ts') :
    Cuts cs.floor ts ts' := by
  obtain ⟨u, hland, rfl⟩ := Option.map_eq_some_iff.1 h
  refine (landUnlessSequence_cuts hland).trans ?_
  split
  · exact Cuts.refl _ u
  · exact Cuts.of_length_le rfl (Nat.le_refl _)

theorem CallSite.floor_le (cs : CallSite) : cs.floor ≤ cs.bottom := by
  unfold CallSite.floor
  split
  · exact Nat.min_le_right _ _
  · exact Nat.le_refl _

theorem scheduleCallAt_cuts {slot returns : ℕ} {target : CallTarget}
    (h : scheduleCallAt ts slot target returns = some ts') : Cuts slot ts ts' := by
  unfold scheduleCallAt at h
  cases target with
  | lua closure => exact pushCall_cuts h slot
  | native f =>
      have hnative := (invokeNative_cuts ts (slot + 1) (ts.stack.length - (slot + 1)) f).mono
        (Nat.le_succ slot)
      simp only at h
      split at h
      · rw [← Option.some.inj h]
        exact hnative.trans (Cuts.of_length_le rfl (Nat.le_refl _))
      · obtain ⟨s, hcopy, rfl⟩ := Option.map_eq_some_iff.1 h
        exact hnative.trans (take_cuts (length_copy? hcopy) (Nat.le_add_right _ _) rfl rfl)
      · rw [← Option.some.inj h]
        exact hnative.trans (Cuts.of_length_le rfl (Nat.le_refl _))

theorem callAt_cuts {slot returns : ℕ} {f : FunctionId} {target : CallTarget}
    (h : callAt ts slot f target returns = some ts') : Cuts slot ts ts' := by
  obtain ⟨u, hinsert, hcall⟩ := Option.bind_eq_some_iff.1 h
  refine Cuts.trans ?_ (scheduleCallAt_cuts hcall)
  unfold insertFunction at hinsert
  split at hinsert
  · rw [← Option.some.inj hinsert]
    exact take_append_cuts (Nat.le_refl _) rfl rfl
  · exact absurd hinsert (by simp)

theorem compactArgs_cuts {cs : CallSite} {f : FunctionId} (h : compactArgs ts cs f = some ts') :
    Cuts cs.funcIdx ts ts' := by
  unfold compactArgs at h
  obtain ⟨s, hmoved, h⟩ := Option.bind_eq_some_iff.1 h
  obtain ⟨s', hset, rfl⟩ := Option.map_eq_some_iff.1 h
  refine ⟨rfl, ?_⟩
  rw [ThreadState.stack_setStack, length_set? hset]
  split at hmoved
  · obtain ⟨u, hcopy, rfl⟩ := Option.map_eq_some_iff.1 hmoved
    rw [List.length_take, length_copy? hcopy]
    omega
  · rw [← Option.some.inj hmoved]
    omega

theorem pushThen_cuts (k : ℕ) (ts : ThreadState) (andThen : Option Sequence) (cs : CallSite) :
    Cuts k ts (pushThen ts andThen cs) := by
  cases andThen with
  | none => exact Cuts.refl k ts
  | some seq => exact Cuts.of_length_le rfl (Nat.le_refl _)

end Operations

/-! ### Closing -/

/-- A list of upvalues closes some of them, each with the value of its slot. -/
def Released (stack : List Value) (uvs : List UpvalueId) (cells cells' : Cells) : Prop :=
  ∀ uv, cells' uv = cells uv ∨ uv ∈ uvs ∧ ∃ t i v, cells uv = UpvalueState.openAt t i ∧
    stack[i]? = some v ∧ cells' uv = UpvalueState.closed v

theorem Released.refl (stack : List Value) (uvs : List UpvalueId) (cells : Cells) :
    Released stack uvs cells cells := fun _ => Or.inl rfl

/-- The upvalues of a list are open below `k` only. -/
def OpenIn (uvs : List UpvalueId) (cells : Cells) (k : ℕ) : Prop :=
  ∀ uv ∈ uvs, ∀ t i, cells uv = UpvalueState.openAt t i → i < k

/-- **Closing a list** keeps exactly the upvalues that are open below. -/
theorem closeList_moves {stack : List Value} {start : ℕ} {uvs kept : List UpvalueId}
    {cells cells' : Cells} (h : closeList stack start uvs cells = some (kept, cells')) :
    Released stack uvs cells cells' ∧ (∀ uv ∈ kept, uv ∈ uvs) ∧
      ∀ uv ∈ uvs, ∀ t i, cells' uv = UpvalueState.openAt t i → uv ∈ kept ∧ i < start := by
  induction uvs generalizing kept cells with
  | nil =>
      cases h
      exact ⟨Released.refl _ _ _, fun uv huv => huv, fun uv huv => absurd huv List.not_mem_nil⟩
  | cons uv uvs ih =>
      -- an upvalue that is kept
      have hkeep : ∀ kept', closeList stack start uvs cells = some (kept', cells') →
          kept = uv :: kept' → (∀ t i, cells uv = UpvalueState.openAt t i → i < start) →
          Released stack (uv :: uvs) cells cells' ∧ (∀ u ∈ kept, u ∈ uv :: uvs) ∧
            ∀ u ∈ uv :: uvs, ∀ t i, cells' u = UpvalueState.openAt t i →
              u ∈ kept ∧ i < start := by
        intro kept' hrest hkept hbelow
        obtain ⟨hreleased, hsub, hopen⟩ := ih hrest
        subst hkept
        refine ⟨fun u => ?_, fun u hu => ?_, fun u hu t i hui => ?_⟩
        · rcases hreleased u with heq | ⟨hmem, hclosed⟩
          · exact Or.inl heq
          · exact Or.inr ⟨List.mem_cons_of_mem _ hmem, hclosed⟩
        · rcases List.mem_cons.1 hu with rfl | hu
          · exact List.mem_cons_self ..
          · exact List.mem_cons_of_mem _ (hsub u hu)
        · rcases List.mem_cons.1 hu with rfl | hmem
          · rcases hreleased u with heq | ⟨-, _, _, _, -, -, hclosed⟩
            · exact ⟨List.mem_cons_self .., hbelow t i (heq.symm.trans hui)⟩
            · exact absurd (hclosed.symm.trans hui) (by simp)
          · obtain ⟨hin, hlt⟩ := hopen u hmem t i hui
            exact ⟨List.mem_cons_of_mem _ hin, hlt⟩
      cases huv : cells uv with
      | closed v =>
          simp only [closeList, huv] at h
          obtain ⟨r, hrest, heq⟩ := Option.map_eq_some_iff.1 h
          cases heq
          refine hkeep r.1 hrest rfl fun t i hopen => ?_
          exact absurd (huv.symm.trans hopen) (by simp)
      | openAt t index =>
          simp only [closeList, huv] at h
          split at h
          · obtain ⟨v, hv, hrest⟩ := Option.bind_eq_some_iff.1 h
            obtain ⟨hreleased, hsub, hopen⟩ := ih hrest
            have hself : Function.update cells uv (UpvalueState.closed v) uv =
                UpvalueState.closed v := Function.update_self ..
            -- the upvalue is closed, and stays so
            have hclosed : cells' uv = UpvalueState.closed v := by
              rcases hreleased uv with heq | ⟨-, t', i, w, hopen', -, -⟩
              · rw [heq, hself]
              · exact absurd (hself.symm.trans hopen') (by simp)
            refine ⟨fun u => ?_, fun u hu => List.mem_cons_of_mem _ (hsub u hu),
              fun u hu t' i hui => ?_⟩
            · by_cases heq : u = uv
              · subst heq
                exact Or.inr ⟨List.mem_cons_self .., t, index, v, huv, hv, hclosed⟩
              · rcases hreleased u with hsame | ⟨hmem, t', i, w, hopen', hw, hcl⟩
                · rw [Function.update_of_ne heq] at hsame
                  exact Or.inl hsame
                · rw [Function.update_of_ne heq] at hopen'
                  exact Or.inr ⟨List.mem_cons_of_mem _ hmem, t', i, w, hopen', hw, hcl⟩
            · rcases List.mem_cons.1 hu with rfl | hmem
              · exact absurd (hclosed.symm.trans hui) (by simp)
              · exact hopen u hmem t' i hui
          · next hstart =>
              obtain ⟨r, hrest, heq⟩ := Option.map_eq_some_iff.1 h
              cases heq
              refine hkeep r.1 hrest rfl fun t' i hopen => ?_
              obtain ⟨-, rfl⟩ := UpvalueState.openAt.inj (huv.symm.trans hopen)
              omega

/-- An operation on a thread closes the upvalues it drops, and leaves the slots of the others on
the stack. -/
structure Moves (ts : ThreadState) (cells : Cells) (ts' : ThreadState) (cells' : Cells) :
    Prop where
  released : Released ts.stack ts.openUpvalues cells cells'
  sub : ∀ uv ∈ ts'.openUpvalues, uv ∈ ts.openUpvalues
  listed : ∀ uv ∈ ts.openUpvalues, ∀ t i, cells' uv = UpvalueState.openAt t i →
    uv ∈ ts'.openUpvalues
  bounded : ∀ uv ∈ ts.openUpvalues, ∀ t i, cells' uv = UpvalueState.openAt t i →
    i < ts.stack.length → i < ts'.stack.length

section Moving

variable {ts ts' ts'' : ThreadState} {cells cells' : Cells}

theorem Moves.of_cuts {k : ℕ} (h : Cuts k ts ts') (hopen : OpenIn ts.openUpvalues cells k) :
    Moves ts cells ts' cells := by
  refine ⟨Released.refl _ _ _, ?_, ?_, ?_⟩
  · rw [h.upvalues]
    exact fun uv huv => huv
  · rw [h.upvalues]
    exact fun uv huv _ _ _ => huv
  · intro uv huv t i hi hlt
    have hk := hopen uv huv t i hi
    have hlen := h.length
    omega

/-- Nothing is cut off. -/
theorem Moves.of_grows (h : ∀ k, Cuts k ts ts') : Moves ts cells ts' cells := by
  refine ⟨Released.refl _ _ _, ?_, ?_, ?_⟩
  · rw [(h 0).upvalues]
    exact fun uv huv => huv
  · rw [(h 0).upvalues]
    exact fun uv huv _ _ _ => huv
  · intro uv huv t i hi hlt
    have hlen := (h ts.stack.length).length
    omega

/-- The stack is cut after upvalues have been closed. -/
theorem Moves.trans_cuts {k : ℕ} (h : Moves ts cells ts' cells') (hcut : Cuts k ts' ts'')
    (hopen : OpenIn ts.openUpvalues cells' k) : Moves ts cells ts'' cells' := by
  refine ⟨h.released, ?_, ?_, ?_⟩
  · rw [hcut.upvalues]
    exact h.sub
  · rw [hcut.upvalues]
    exact h.listed
  · intro uv huv t i hi hlt
    have hk := hopen uv huv t i hi
    have hlt' := h.bounded uv huv t i hi hlt
    have hlen := hcut.length
    omega

theorem Moves.trans_grows (h : Moves ts cells ts' cells') (hgrow : ∀ k, Cuts k ts' ts'') :
    Moves ts cells ts'' cells' := by
  refine ⟨h.released, ?_, ?_, ?_⟩
  · rw [(hgrow 0).upvalues]
    exact h.sub
  · rw [(hgrow 0).upvalues]
    exact h.listed
  · intro uv huv t i hi hlt
    have hlt' := h.bounded uv huv t i hi hlt
    have hlen := (hgrow ts'.stack.length).length
    omega

/-- What is open after an operation was open before. -/
theorem Moves.open_before (h : Moves ts cells ts' cells') {uv : UpvalueId} {t : ThreadId} {i : ℕ}
    (hi : cells' uv = UpvalueState.openAt t i) : cells uv = UpvalueState.openAt t i := by
  rcases h.released uv with heq | ⟨-, _, _, _, -, -, hclosed⟩
  · rw [← heq]
    exact hi
  · exact absurd (hclosed.symm.trans hi) (by simp)

/-- Two operations, where the first one leaves the values of the slots that stay open. -/
theorem Moves.trans {cells'' : Cells} (h : Moves ts cells ts' cells')
    (h' : Moves ts' cells' ts'' cells'')
    (hsame : ∀ uv ∈ ts.openUpvalues, ∀ t i, cells' uv = UpvalueState.openAt t i →
      ts'.stack[i]? = ts.stack[i]?) : Moves ts cells ts'' cells'' := by
  refine ⟨fun uv => ?_, fun uv huv => h.sub uv (h'.sub uv huv), fun uv huv t i hi => ?_,
    fun uv huv t i hi hlt => ?_⟩
  · rcases h'.released uv with heq | ⟨huv, t, i, v, hi, hv, hclosed⟩
    · rcases h.released uv with heq' | ⟨huv, t, i, v, hi, hv, hclosed⟩
      · exact Or.inl (heq.trans heq')
      · exact Or.inr ⟨huv, t, i, v, hi, hv, heq.trans hclosed⟩
    · have hmem := h.sub uv huv
      rw [hsame uv hmem t i hi] at hv
      exact Or.inr ⟨hmem, t, i, v, h.open_before hi, hv, hclosed⟩
  · have hmid := h'.open_before hi
    exact h'.listed uv (h.listed uv huv t i hmid) t i hi
  · have hmid := h'.open_before hi
    exact h'.bounded uv (h.listed uv huv t i hmid) t i hi (h.bounded uv huv t i hmid hlt)

/-- A callback leaves its window behind the slots that stay. -/
theorem moves_native {argsBase : ℕ} (argc : ℕ) (f : NativeFn)
    (hbound : OpenIn ts.openUpvalues cells ts.stack.length)
    (hopen : OpenIn ts.openUpvalues cells argsBase)
    (h : Moves (invokeNative ts argsBase argc f).1 cells ts' cells') :
    Moves ts cells ts' cells' :=
  (Moves.of_cuts (invokeNative_cuts ts argsBase argc f) hopen).trans h fun uv huv t i hi =>
    invokeNative_getElem? ts argsBase argc f (hopen uv huv t i hi) (hbound uv huv t i hi)

/-! ### Handlers -/

/-- A handler closes the upvalues it drops. -/
def VmMoves (ts : ThreadState) (cells : Cells) (r : VmResult) : Prop :=
  ∀ flow ts' cells', r = some (flow, ts', cells') → Moves ts cells ts' cells'

theorem vmMoves_some {flow : Flow} (h : Moves ts cells ts' cells') :
    VmMoves ts cells (some (flow, ts', cells')) := by
  intro flow' ts'' cells'' heq
  cases heq
  exact h

theorem vmMoves_bind {α : Type} {r : Option α} {k : α → VmResult}
    (h : ∀ a, r = some a → VmMoves ts cells (k a)) : VmMoves ts cells (r.bind k) := by
  intro flow ts' cells' heq
  obtain ⟨a, ha, hk⟩ := Option.bind_eq_some_iff.1 heq
  exact h a ha flow ts' cells' hk

theorem vmMoves_map {α : Type} {r : Option α} {k : α → Flow × ThreadState × Cells}
    (h : ∀ a, r = some a → Moves ts cells (k a).2.1 (k a).2.2) : VmMoves ts cells (r.map k) := by
  intro flow ts' cells' heq
  obtain ⟨a, ha, hk⟩ := Option.map_eq_some_iff.1 heq
  have hmoves := h a ha
  rwa [hk] at hmoves

/-- **Leaving a frame** closes what it captured. -/
theorem leaveFrame_moves {base : ℕ} {r : ThreadState × Cells}
    (h : leaveFrame ts cells base = some r) :
    Moves ts cells r.1 r.2 ∧ OpenIn ts.openUpvalues r.2 base ∧ r.1.stack = ts.stack := by
  obtain ⟨u, hclose, rfl⟩ := Option.map_eq_some_iff.1 h
  obtain ⟨v, hlist, rfl⟩ := Option.map_eq_some_iff.1 hclose
  obtain ⟨hreleased, hsub, hopen⟩ := closeList_moves hlist
  exact ⟨⟨hreleased, hsub, fun uv huv t i hi => (hopen uv huv t i hi).1, fun _ _ _ _ _ hlt => hlt⟩,
    fun uv huv t i hi => (hopen uv huv t i hi).2, rfl⟩

theorem closeUpvalues_moves {start : ℕ} {r : ThreadState × Cells}
    (h : closeUpvalues ts cells start = some r) :
    Moves ts cells r.1 r.2 ∧ OpenIn ts.openUpvalues r.2 start ∧ r.1.stack = ts.stack := by
  obtain ⟨v, hlist, rfl⟩ := Option.map_eq_some_iff.1 h
  obtain ⟨hreleased, hsub, hopen⟩ := closeList_moves hlist
  exact ⟨⟨hreleased, hsub, fun uv huv t i hi => (hopen uv huv t i hi).1, fun _ _ _ _ _ hlt => hlt⟩,
    fun uv huv t i hi => (hopen uv huv t i hi).2, rfl⟩

theorem contResume_moves (ts : ThreadState) (cells : Cells) :
    VmMoves ts cells (contResume ts cells) := by
  refine vmMoves_bind fun f _ => vmMoves_bind fun cont _ => vmMoves_bind fun r hleave =>
    vmMoves_bind fun caller _ => vmMoves_map fun p hpayload => ?_
  obtain ⟨hmoves, -, -⟩ := leaveFrame_moves hleave
  exact hmoves.trans_grows fun k =>
    Cuts.of_length_le rfl (Nat.le_of_eq (length_applyContPayload hpayload).symm)

/-- A frame that is called by something else than bytecode has captured none of the slots between
its function and its registers. -/
def ReturnGuard (ts : ThreadState) (cells : Cells) (f : LuaFrame) : Prop :=
  match ts.frames.tail with
  | Frame.lua _ :: _ => True
  | _ => f.continuation = none → ∀ uv ∈ ts.openUpvalues, ∀ t i,
      cells uv = UpvalueState.openAt t i → i < f.funcSlot ∨ f.base ≤ i

theorem deliverReturn_ne_continuation {f : LuaFrame} {valuesBase nret : ℕ}
    {d : FrameReturn × ThreadState} (h : deliverReturn ts f valuesBase nret = some d) :
    d.1 ≠ FrameReturn.continuation := by
  simp only [deliverReturn] at h
  split at h
  · obtain ⟨s, -, rfl⟩ := Option.map_eq_some_iff.1 h
    simp
  · split at h
    · obtain ⟨s, -, rfl⟩ := Option.map_eq_some_iff.1 h
      simp
    · obtain ⟨s, -, rfl⟩ := Option.map_eq_some_iff.1 h
      simp
  · obtain ⟨s, -, rfl⟩ := Option.map_eq_some_iff.1 h
    simp

theorem frameReturn_moves (cells : Cells) (valuesBase nret : ℕ)
    (hguard : ∀ f, ts.topLua = some f → ReturnGuard ts cells f) :
    VmMoves ts cells ((frameReturn ts cells valuesBase nret).bind afterReturn) := by
  refine vmMoves_bind fun r hreturn => ?_
  obtain ⟨f, htop, hreturn⟩ := Option.bind_eq_some_iff.1 hreturn
  cases hcont : f.continuation with
  | some cont =>
      simp only [hcont, Option.some.injEq] at hreturn
      subst hreturn
      intro flow ts' cells' heq
      obtain ⟨hreleased, hsub, hlisted, hbounded⟩ := contResume_moves _ cells flow ts' cells' heq
      exact ⟨hreleased, hsub, hlisted, hbounded⟩
  | none =>
      simp only [hcont] at hreturn
      obtain ⟨l, hleave, hreturn⟩ := Option.bind_eq_some_iff.1 hreturn
      obtain ⟨d, hdeliver, rfl⟩ := Option.map_eq_some_iff.1 hreturn
      obtain ⟨hmoves, hopen, -⟩ := leaveFrame_moves hleave
      have hframes : l.1.frames = ts.frames.tail := by
        obtain ⟨u, hclose, rfl⟩ := Option.map_eq_some_iff.1 hleave
        obtain ⟨v, -, rfl⟩ := Option.map_eq_some_iff.1 hclose
        rfl
      have hlanded : Moves ts cells d.2 l.2 := by
        have hguard := hguard f htop
        unfold ReturnGuard at hguard
        split at hguard
        · next caller rest htail =>
            refine hmoves.trans_grows fun k => ?_
            rw [htail] at hframes
            simp only [deliverReturn, hframes] at hdeliver
            split at hdeliver
            · obtain ⟨s, hcopy, rfl⟩ := Option.map_eq_some_iff.1 hdeliver
              exact Cuts.of_length_le rfl (Nat.le_of_eq (length_copy? hcopy).symm)
            · obtain ⟨s, hland, rfl⟩ := Option.map_eq_some_iff.1 hdeliver
              exact Cuts.of_length_le rfl (Nat.le_of_eq (length_landValues hland).symm)
        · refine hmoves.trans_cuts (deliverReturn_cuts hdeliver) fun uv huv t i hi => ?_
          rcases hguard hcont uv huv t i (hmoves.open_before hi) with hlt | hle
          · exact hlt
          · have hbelow := hopen uv huv t i hi
            omega
      unfold afterReturn
      split
      · next heq =>
          exact absurd heq (deliverReturn_ne_continuation hdeliver)
      · exact vmMoves_some hlanded
      · exact vmMoves_some hlanded
      · exact vmMoves_some hlanded

theorem opReturn_moves (cells : Cells) (values count : ℕ)
    (hguard : ∀ f, ts.topLua = some f → ReturnGuard ts cells f) :
    VmMoves ts cells (opReturn ts cells values count) :=
  vmMoves_bind fun _ _ => frameReturn_moves cells _ _ hguard

/-- **A call** of a native callback cuts the stack at the function. -/
theorem opCall_moves (cells : Cells) (ip func nargs returns : ℕ) (target : CallTarget)
    (hguard : ∀ f, target = CallTarget.native f →
      OpenIn ts.openUpvalues cells ((ts.topLua.map LuaFrame.base).getD 0 + func)) :
    VmMoves ts cells (opCall ts cells ip func nargs returns target) := by
  unfold opCall
  cases target with
  | lua closure =>
      exact vmMoves_map fun ts' hcall => Moves.of_grows
        fun k => (savePc_cuts k ts ip).trans (pushCall_cuts hcall k)
  | native f =>
      have hopen := hguard f rfl
      simp only
      generalize (ts.topLua.map LuaFrame.base).getD 0 + func = funcIdx at hopen ⊢
      have hnative := (invokeNative_cuts ts (funcIdx + 1) (argCount ts (funcIdx + 1) nargs) f).mono
        (Nat.le_succ funcIdx)
      split
      · exact vmMoves_some (Moves.of_cuts ((hnative.trans (savePc_cuts _ _ ip)).trans
          (Cuts.of_length_le rfl (Nat.le_refl _))) hopen)
      · exact vmMoves_map fun ts' hreturn =>
          Moves.of_cuts (hnative.trans (opCallReturn_cuts hreturn)) hopen
      · exact vmMoves_some (Moves.of_cuts ((hnative.trans (savePc_cuts _ _ ip)).trans
          (Cuts.of_length_le rfl (Nat.le_refl _))) hopen)

theorem tailcallLua_moves (ts : ThreadState) (cells : Cells) (f : LuaFrame) (funcIdx nargs : ℕ)
    (closure : LuaClosure) : VmMoves ts cells (tailcallLua ts cells f funcIdx nargs closure) := by
  refine vmMoves_bind fun r hclose => vmMoves_bind fun s hcopy => vmMoves_map fun s' hpad => ?_
  obtain ⟨hmoves, -, -⟩ := closeUpvalues_moves hclose
  refine hmoves.trans_grows fun k => Cuts.of_length_le rfl ?_
  show r.1.stack.length ≤ s'.length
  rw [length_fill? hpad, length_grow, length_copy? hcopy]
  exact Nat.le_max_left _ _

/-- **A tail call** closes what the frame captured, except for what a native callback has cut off
before. -/
theorem opTailcall_moves (cells : Cells) (func nargs : ℕ) (target : CallTarget)
    (hbound : OpenIn ts.openUpvalues cells ts.stack.length)
    (hguard : ∀ f g, ts.topLua = some f → target = CallTarget.native g →
      OpenIn ts.openUpvalues cells (f.base + func + 1) ∧ ReturnGuard ts cells f) :
    VmMoves ts cells (opTailcall ts cells func nargs target) := by
  refine vmMoves_bind fun f htop => ?_
  cases target with
  | lua closure => exact tailcallLua_moves ts cells f _ _ closure
  | native g =>
      obtain ⟨hopen, hreturn⟩ := hguard f g htop rfl
      simp only
      split
      · refine vmMoves_map fun l hleave =>
          moves_native (argCount ts (f.base + func + 1) nargs) g hbound hopen ?_
        exact (leaveFrame_moves hleave).1.trans_grows fun k =>
          Cuts.of_length_le rfl (Nat.le_refl _)
      · intro flow ts' cells' heq
        refine moves_native (argCount ts (f.base + func + 1) nargs) g hbound hopen
          (frameReturn_moves cells _ _ ?_ flow ts' cells' heq)
        intro f' hf'
        obtain rfl := Option.some.inj (htop.symm.trans hf')
        exact hreturn
      · refine vmMoves_map fun l hleave =>
          moves_native (argCount ts (f.base + func + 1) nargs) g hbound hopen ?_
        exact (leaveFrame_moves hleave).1.trans_grows fun k =>
          Cuts.of_length_le rfl (Nat.le_refl _)

/-- **A metamethod** that is native cuts the stack at its arguments, behind the window. -/
theorem invokeMetamethod_moves (cells : Cells) (ip : ℕ) (metaFn : Value) (args : List Value)
    (cont : Continuation) (target : CallTarget) (crossing : Value)
    (hguard : ∀ f caller, target = CallTarget.native f → ts.topLua = some caller →
      OpenIn ts.openUpvalues cells (caller.windowEnd + 1)) :
    VmMoves ts cells (invokeMetamethod ts cells ip metaFn args cont target crossing) := by
  refine vmMoves_bind fun caller htop => ?_
  have hstaged : ∀ k, Cuts k ts ((ts.savePc ip).setStack (overwrite (grow ts.stack
      (caller.windowEnd + 1 + args.length) Value.nil) caller.windowEnd (metaFn :: args))) := by
    intro k
    refine (savePc_cuts k ts ip).trans (Cuts.of_length_le rfl ?_)
    have hsave : (ts.savePc ip).stack = ts.stack := by
      unfold ThreadState.savePc
      split
      · rfl
      · rfl
    rw [hsave, ThreadState.stack_setStack, overwrite]
    simp only [List.length_append, List.length_take, List.length_drop, length_grow,
      List.length_cons]
    omega
  cases target with
  | lua closure =>
      exact vmMoves_map fun ts' hcall =>
        Moves.of_grows fun k => (hstaged k).trans (pushCall_cuts hcall k)
  | native f =>
      -- saving the program counter leaves the window where it is
      have hwindow : ∃ lf, ts.topLua = some lf ∧ lf.windowEnd = caller.windowEnd := by
        unfold ThreadState.savePc at htop
        split at htop
        · next lf hlf =>
            cases htop
            exact ⟨lf, hlf, rfl⟩
        · next hnone => exact absurd (hnone.symm.trans htop) (by simp)
      obtain ⟨lf, hlf, hend⟩ := hwindow
      have hopen := hguard f lf rfl hlf
      rw [hend] at hopen
      have hnative := (hstaged (caller.windowEnd + 1)).trans
        (invokeNative_cuts _ (caller.windowEnd + 1) args.length f)
      simp only [nativeMetaCall]
      split
      · exact vmMoves_some (Moves.of_cuts
          (hnative.trans (Cuts.of_length_le rfl (Nat.le_refl _))) hopen)
      · exact vmMoves_map fun p hpayload => Moves.of_cuts (hnative.trans
          (Cuts.of_length_le rfl (Nat.le_of_eq (length_applyContPayload hpayload).symm))) hopen
      · exact vmMoves_some (Moves.of_cuts
          (hnative.trans (Cuts.of_length_le rfl (Nat.le_refl _))) hopen)
      · exact vmMoves_some (Moves.of_cuts
          (hnative.trans (Cuts.of_length_le rfl (Nat.le_refl _))) hopen)

/-! ### Unwinding -/

/-- How the unwinding of a thread ends. -/
def Unwound.Moves (ts : ThreadState) (cells : Cells) : Unwound → Prop
  | caught ts' cells' => Tcvm.Moves ts cells ts' cells'
  | uncaught ts' cells' => Tcvm.Moves ts cells ts' cells'
  | unreachable => True
  | panic => True

theorem unwindFrames_moves (err : Value) (frames : List Frame) (ts : ThreadState)
    (cells : Cells) : (unwindFrames err frames ts cells).Moves ts cells := by
  have hframes : ∀ (ts : ThreadState) (frames : List Frame) (cells : Cells),
      Moves ts cells { ts with frames := frames } cells := fun ts frames cells =>
    Moves.of_grows fun k => Cuts.of_length_le rfl (Nat.le_refl _)
  induction frames generalizing ts cells with
  | nil => exact hframes ts [] cells
  | cons fr rest ih =>
      cases fr with
      | lua lf =>
          unfold unwindFrames
          cases hclose : closeUpvalues ts cells lf.base with
          | none => trivial
          | some r =>
              obtain ⟨hmoves, hopen, hstack⟩ := closeUpvalues_moves hclose
              have hcut : Cuts lf.base r.1
                  ((closeTbcVars r.1 lf.base).setStack (r.1.stack.take lf.base)) :=
                take_cuts rfl (Nat.le_refl _) rfl rfl
              have hfirst := hmoves.trans_cuts hcut hopen
              -- what is still open is below the base
              have hsame : ∀ uv ∈ ts.openUpvalues, ∀ t i, r.2 uv = UpvalueState.openAt t i →
                  ((closeTbcVars r.1 lf.base).setStack (r.1.stack.take lf.base)).stack[i]? =
                    ts.stack[i]? := by
                intro uv huv t i hi
                rw [ThreadState.stack_setStack, List.getElem?_take_of_lt (hopen uv huv t i hi),
                  hstack]
              have hrest := ih ((closeTbcVars r.1 lf.base).setStack (r.1.stack.take lf.base)) r.2
              simp only
              cases hunwind : unwindFrames err rest
                  ((closeTbcVars r.1 lf.base).setStack (r.1.stack.take lf.base)) r.2 with
              | caught ts' cells' =>
                  rw [hunwind] at hrest
                  exact hfirst.trans hrest hsame
              | uncaught ts' cells' =>
                  rw [hunwind] at hrest
                  exact hfirst.trans hrest hsame
              | unreachable => trivial
              | panic => trivial
      | sequence seq cs e => exact hframes ts _ cells
      | waitThread wt => exact ih ts cells
      | start f => trivial
      | error e => trivial

/-- The bases of the frames that an error unwinds. -/
def unwoundBases : List Frame → List ℕ
  | Frame.lua lf :: rest => lf.base :: unwoundBases rest
  | Frame.waitThread _ :: rest => unwoundBases rest
  | _ => []

/-- What is open in the end. -/
def Unwound.Closes (uvs : List UpvalueId) (k : ℕ) : Unwound → Prop
  | caught _ cells => OpenIn uvs cells k
  | uncaught _ cells => OpenIn uvs cells k
  | unreachable => True
  | panic => True

/-- **Unwinding** closes what every frame it leaves had captured. -/
theorem unwindFrames_closes (err : Value) (frames : List Frame) (ts : ThreadState)
    (cells : Cells) {k : ℕ} (hk : k ∈ unwoundBases frames) :
    (unwindFrames err frames ts cells).Closes ts.openUpvalues k := by
  induction frames generalizing ts cells with
  | nil => exact absurd hk List.not_mem_nil
  | cons fr rest ih =>
      cases fr with
      | lua lf =>
          unfold unwindFrames
          cases hclose : closeUpvalues ts cells lf.base with
          | none => trivial
          | some r =>
              obtain ⟨hmoves, hopen, -⟩ := closeUpvalues_moves hclose
              have hmoved := unwindFrames_moves err rest
                ((closeTbcVars r.1 lf.base).setStack (r.1.stack.take lf.base)) r.2
              have hrest := fun hin =>
                ih ((closeTbcVars r.1 lf.base).setStack (r.1.stack.take lf.base)) r.2 hin
              simp only
              generalize unwindFrames err rest
                ((closeTbcVars r.1 lf.base).setStack (r.1.stack.take lf.base)) r.2 = out
                at hmoved hrest ⊢
              -- an upvalue that is open in the end was open after the first frame
              have hclosed : ∀ ts' cells', Moves
                  ((closeTbcVars r.1 lf.base).setStack (r.1.stack.take lf.base)) r.2 ts' cells' →
                  (k ∈ unwoundBases rest → OpenIn r.1.openUpvalues cells' k) →
                  OpenIn ts.openUpvalues cells' k := by
                intro ts' cells' hm hin uv huv t i hi
                have hmid := hm.open_before hi
                rcases List.mem_cons.1 hk with rfl | hk
                · exact hopen uv huv t i hmid
                · exact hin hk uv (hmoves.listed uv huv t i hmid) t i hi
              cases out with
              | caught ts' cells' => exact hclosed ts' cells' hmoved hrest
              | uncaught ts' cells' => exact hclosed ts' cells' hmoved hrest
              | unreachable => trivial
              | panic => trivial
      | sequence seq cs e => exact absurd hk List.not_mem_nil
      | waitThread wt => exact ih ts cells hk
      | start f => exact absurd hk List.not_mem_nil
      | error e => exact absurd hk List.not_mem_nil

/-! ### What a frame leaves open -/

/-- A handler leaves no upvalue open at `k` or above. -/
def VmCloses (uvs : List UpvalueId) (k : ℕ) (r : VmResult) : Prop :=
  ∀ flow ts' cells', r = some (flow, ts', cells') → OpenIn uvs cells' k

theorem vmCloses_bind {α : Type} {uvs : List UpvalueId} {n : ℕ} {r : Option α} {k : α → VmResult}
    (h : ∀ a, r = some a → VmCloses uvs n (k a)) : VmCloses uvs n (r.bind k) := by
  intro flow ts' cells' heq
  obtain ⟨a, ha, hk⟩ := Option.bind_eq_some_iff.1 heq
  exact h a ha flow ts' cells' hk

theorem vmCloses_map {α : Type} {uvs : List UpvalueId} {n : ℕ} {r : Option α}
    {k : α → Flow × ThreadState × Cells} (h : ∀ a, r = some a → OpenIn uvs (k a).2.2 n) :
    VmCloses uvs n (r.map k) := by
  intro flow ts' cells' heq
  obtain ⟨a, ha, hk⟩ := Option.map_eq_some_iff.1 heq
  have hopen := h a ha
  rwa [hk] at hopen

theorem vmCloses_some {uvs : List UpvalueId} {n : ℕ} {flow : Flow} (h : OpenIn uvs cells' n) :
    VmCloses uvs n (some (flow, ts', cells')) := by
  intro flow' ts'' cells'' heq
  cases heq
  exact h

theorem contResume_closes (cells : Cells) {f : LuaFrame} (htop : ts.topLua = some f) :
    VmCloses ts.openUpvalues f.base (contResume ts cells) := by
  refine vmCloses_bind fun g hg => vmCloses_bind fun cont _ => vmCloses_bind fun l hleave =>
    vmCloses_bind fun caller _ => vmCloses_map fun p _ => ?_
  obtain rfl := Option.some.inj (htop.symm.trans hg)
  exact (leaveFrame_moves hleave).2.1

theorem frameReturn_closes (cells : Cells) (valuesBase nret : ℕ) {f : LuaFrame}
    (htop : ts.topLua = some f) :
    VmCloses ts.openUpvalues f.base ((frameReturn ts cells valuesBase nret).bind afterReturn) := by
  refine vmCloses_bind fun r hreturn => ?_
  unfold frameReturn at hreturn
  rw [htop, Option.bind_some] at hreturn
  cases hcont : f.continuation with
  | some cont =>
      simp only [hcont, Option.some.injEq] at hreturn
      subst hreturn
      have hclose : ∀ g, (ts.setTopLua g).topLua = some g := fun g => rfl
      exact fun flow ts' cells' heq =>
        contResume_closes cells (hclose { f with continuation := some _ }) flow ts' cells' heq
  | none =>
      simp only [hcont] at hreturn
      obtain ⟨l, hleave, hreturn⟩ := Option.bind_eq_some_iff.1 hreturn
      obtain ⟨d, hdeliver, rfl⟩ := Option.map_eq_some_iff.1 hreturn
      obtain ⟨-, hopen, -⟩ := leaveFrame_moves hleave
      unfold afterReturn
      split
      · next heq => exact absurd heq (deliverReturn_ne_continuation hdeliver)
      · exact vmCloses_some hopen
      · exact vmCloses_some hopen
      · exact vmCloses_some hopen

theorem opReturn_closes (cells : Cells) (values count : ℕ) {f : LuaFrame}
    (htop : ts.topLua = some f) :
    VmCloses ts.openUpvalues f.base (opReturn ts cells values count) := by
  refine vmCloses_bind fun g hg => ?_
  exact frameReturn_closes cells _ _ htop

/-- Where the slots that a tail call leaves begin. -/
def tailcallBase (f : LuaFrame) : CallTarget → ℕ
  | CallTarget.lua _ => f.funcSlot + 1
  | CallTarget.native _ => f.base

theorem opTailcall_closes (cells : Cells) (func nargs : ℕ) (target : CallTarget) {f : LuaFrame}
    (htop : ts.topLua = some f) :
    VmCloses ts.openUpvalues (tailcallBase f target) (opTailcall ts cells func nargs target) := by
  refine vmCloses_bind fun g hg => ?_
  obtain rfl := Option.some.inj (htop.symm.trans hg)
  cases target with
  | lua closure =>
      refine vmCloses_bind fun r hclose => vmCloses_bind fun s _ => vmCloses_map fun s' _ => ?_
      exact (closeUpvalues_moves hclose).2.1
  | native g =>
      simp only
      split
      · exact vmCloses_map fun l hleave => (leaveFrame_moves hleave).2.1
      · exact frameReturn_closes cells _ _ htop
      · exact vmCloses_map fun l hleave => (leaveFrame_moves hleave).2.1

end Moving

end Tcvm
