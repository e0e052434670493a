/-
# Open upvalues

A captured variable that is open lives in a slot of a thread's stack.  Over all threads: each of
them is in the list of its thread, no two share a slot, and its slot is on the stack; what an
iteration takes off a stack has been closed with the value it had.

## Main definitions

* `Driver.Linked` — the invariant on upvalues, lists and stacks;
* `Driver.Follows` — what an iteration does to upvalues that are open;
* `OpenBelow` — the upvalues of a thread are open below a slot only;
* `UpvalueGuard` — the choices of an iteration that cut no captured slot off.

## Main results

* `Driver.Linked.move` — an operation on one thread;
* `applied_steady`, `scheduleThreadResume_steady`, `pumpSequence_steady`, `propagate_steady`,
  `execInstr_advances` — the arms of the loop;
* **`iterate_advances`** — an iteration;
* **`Driver.Linked.shared`** — reads and writes of a captured variable agree.
-/

import Tcvm.StackCuts

namespace Tcvm

open StackWindow

/-! ### The invariant -/

/-- The upvalues of a thread are open below `k` only. -/
def OpenBelow (cells : Cells) (t : ThreadId) (k : ℕ) : Prop :=
  ∀ uv i, cells uv = UpvalueState.openAt t i → i < k

namespace Driver

/-- An upvalue that is open is in the list of its thread, alone on its slot, and its slot is on the
stack. -/
structure Linked (d : Driver) : Prop where
  listed : ∀ uv t i, d.cells uv = UpvalueState.openAt t i → uv ∈ (d.threads t).openUpvalues
  unique : ∀ uv uv' t i, d.cells uv = UpvalueState.openAt t i →
    d.cells uv' = UpvalueState.openAt t i → uv = uv'
  bounded : ∀ uv t i, d.cells uv = UpvalueState.openAt t i → i < (d.threads t).stack.length
  own : ∀ t, ∀ uv ∈ (d.threads t).openUpvalues, ∀ t' i,
    d.cells uv = UpvalueState.openAt t' i → t' = t
  handle : ∀ t, (d.threads t).threadHandle = t
  fresh : ∀ t, ∀ uv ∈ (d.threads t).openUpvalues, uv < d.freshUpvalue
  uncreated : ∀ t, d.freshThread ≤ t → d.threads t = ThreadState.new t

/-- What a step does to upvalues: those that were open are open at the same slot, or closed with
the value it had; the driven thread may capture slots. -/
structure Follows (d d' : Driver) : Prop where
  kept : ∀ uv t i, d.cells uv = UpvalueState.openAt t i →
    d'.cells uv = UpvalueState.openAt t i ∨
      ∃ v, (d.threads t).stack[i]? = some v ∧ d'.cells uv = UpvalueState.closed v
  opened : ∀ uv t i, d'.cells uv = UpvalueState.openAt t i →
    d.cells uv = UpvalueState.openAt t i ∨ d.threadStack.head? = some t
  threads : d.freshThread ≤ d'.freshThread

theorem Follows.of_cells {d d' : Driver} (h : d'.cells = d.cells)
    (hfresh : d.freshThread ≤ d'.freshThread) : d.Follows d' := by
  refine ⟨fun uv t i hi => Or.inl ?_, fun uv t i hi => Or.inl ?_, hfresh⟩
  · rw [h]
    exact hi
  · rw [← h]
    exact hi

/-- The active threads have been created. -/
def Created (d : Driver) : Prop := ∀ t ∈ d.threadStack, t < d.freshThread

namespace Linked

variable {d : Driver}

theorem openIn (h : d.Linked) {t : ThreadId} {k : ℕ} (hopen : OpenBelow d.cells t k) :
    OpenIn (d.threads t).openUpvalues d.cells k := by
  intro uv huv t' i hi
  have ht := h.own t uv huv t' i hi
  subst ht
  exact hopen uv i hi

theorem openIn_length (h : d.Linked) (t : ThreadId) :
    OpenIn (d.threads t).openUpvalues d.cells (d.threads t).stack.length := by
  intro uv huv t' i hi
  have ht := h.own t uv huv t' i hi
  subst ht
  exact h.bounded uv t' i hi

/-- An operation on one thread is followed, whatever else happens. -/
theorem follows (h : d.Linked) {t : ThreadId} {ts : ThreadState} {cells : Cells}
    (hmoves : Moves (d.threads t) d.cells ts cells) {d' : Driver} (hcells : d'.cells = cells)
    (hfresh : d.freshThread ≤ d'.freshThread) : d.Follows d' := by
  refine ⟨fun uv t' i hi => ?_, fun uv t' i hi => ?_, hfresh⟩
  · rw [hcells]
    rcases hmoves.released uv with heq | ⟨huv, t'', i', v, hi', hv, hclosed⟩
    · rw [heq]
      exact Or.inl hi
    · obtain ⟨rfl, rfl⟩ := UpvalueState.openAt.inj (hi'.symm.trans hi)
      have hmine := h.own t uv huv t'' i' hi'
      subst hmine
      exact Or.inr ⟨v, hv, hclosed⟩
  · rw [hcells] at hi
    exact Or.inl (hmoves.open_before hi)

/-- **An operation on one thread** that closes the upvalues it drops. -/
theorem move (h : d.Linked) {t : ThreadId} (ht : t < d.freshThread) {ts : ThreadState}
    {cells : Cells} (hmoves : Moves (d.threads t) d.cells ts cells)
    (hhandle : ts.threadHandle = (d.threads t).threadHandle) : (d.store t ts cells).Linked := by
  have hself : (d.store t ts cells).threads t = ts := d.setThread_self t ts
  have hother : ∀ t', t' ≠ t → (d.store t ts cells).threads t' = d.threads t' :=
    fun t' ht' => d.setThread_of_ne ht' ts
  have hwas : ∀ uv t' i, cells uv = UpvalueState.openAt t' i →
      d.cells uv = UpvalueState.openAt t' i := fun uv t' i hi => hmoves.open_before hi
  refine ⟨fun uv t' i hi => ?_, fun uv uv' t' i hi hi' => ?_, fun uv t' i hi => ?_,
    fun t' uv huv t'' i hi => ?_, fun t' => ?_, fun t' uv huv => ?_, fun t' ht' => ?_⟩
  · have hmem := h.listed uv t' i (hwas uv t' i hi)
    by_cases heq : t' = t
    · subst heq
      rw [hself]
      exact hmoves.listed uv hmem t' i hi
    · rw [hother t' heq]
      exact hmem
  · exact h.unique uv uv' t' i (hwas uv t' i hi) (hwas uv' t' i hi')
  · have hbound := h.bounded uv t' i (hwas uv t' i hi)
    by_cases heq : t' = t
    · subst heq
      rw [hself]
      exact hmoves.bounded uv (h.listed uv t' i (hwas uv t' i hi)) t' i hi hbound
    · rw [hother t' heq]
      exact hbound
  · by_cases heq : t' = t
    · subst heq
      rw [hself] at huv
      exact h.own t' uv (hmoves.sub uv huv) t'' i (hwas uv t'' i hi)
    · rw [hother t' heq] at huv
      exact h.own t' uv huv t'' i (hwas uv t'' i hi)
  · by_cases heq : t' = t
    · subst heq
      rw [hself, hhandle]
      exact h.handle t'
    · rw [hother t' heq]
      exact h.handle t'
  · by_cases heq : t' = t
    · subst heq
      rw [hself] at huv
      exact h.fresh t' uv (hmoves.sub uv huv)
    · rw [hother t' heq] at huv
      exact h.fresh t' uv huv
  · have hne : t' ≠ t := by
      rintro rfl
      exact absurd ht (Nat.not_lt.2 ht')
    rw [hother t' hne]
    exact h.uncreated t' ht'

/-- An operation that closes nothing. -/
theorem setThread (h : d.Linked) {t : ThreadId} (ht : t < d.freshThread) {ts : ThreadState}
    (hmoves : Moves (d.threads t) d.cells ts d.cells)
    (hhandle : ts.threadHandle = (d.threads t).threadHandle) : (d.setThread t ts).Linked :=
  h.move ht hmoves hhandle

/-- A thread without open upvalues may change at will. -/
theorem clear (h : d.Linked) {t : ThreadId} (ht : t < d.freshThread)
    (hopen : OpenBelow d.cells t 0) {ts : ThreadState} (hupvalues : ts.openUpvalues = [])
    (hhandle : ts.threadHandle = (d.threads t).threadHandle) : (d.setThread t ts).Linked := by
  refine h.setThread ht ⟨Released.refl _ _ _, ?_, ?_, ?_⟩ hhandle
  · rw [hupvalues]
    exact fun uv huv => absurd huv List.not_mem_nil
  · intro uv huv t' i hi
    have ht' := h.own t uv huv t' i hi
    subst ht'
    exact absurd (hopen uv i hi) (Nat.not_lt_zero i)
  · intro uv huv t' i hi
    have ht' := h.own t uv huv t' i hi
    subst ht'
    exact absurd (hopen uv i hi) (Nat.not_lt_zero i)

/-- The active threads and the mode do not matter. -/
theorem withStack (h : d.Linked) (threadStack : List ThreadId) (mode : ExecutorMode) :
    Linked { d with threadStack := threadStack, mode := mode } :=
  ⟨h.listed, h.unique, h.bounded, h.own, h.handle, h.fresh, h.uncreated⟩

/-- Nothing is open on a thread that has not been created. -/
theorem openBelow_uncreated (h : d.Linked) {t : ThreadId} (ht : d.freshThread ≤ t) (k : ℕ) :
    OpenBelow d.cells t k := by
  intro uv i hi
  have hmem := h.listed uv t i hi
  rw [h.uncreated t ht] at hmem
  exact absurd hmem List.not_mem_nil

/-- **Reads and writes** of a captured variable agree, and do not touch another one. -/
theorem shared (h : d.Linked) (uv : UpvalueId) (v : Value) :
    ∃ d', writeUpvalue d uv v = some d' ∧ readUpvalue d' uv = some v ∧
      ∀ uv', uv' ≠ uv → readUpvalue d' uv' = readUpvalue d uv' := by
  cases huv : d.cells uv with
  | closed w =>
      refine ⟨{ d with cells := Function.update d.cells uv (UpvalueState.closed v) }, ?_, ?_,
        fun uv' hne => ?_⟩
      · simp only [writeUpvalue, huv]
      · simp only [readUpvalue, Function.update_self]
      · simp only [readUpvalue, Function.update_of_ne hne]
  | openAt t i =>
      have hlt := h.bounded uv t i huv
      refine ⟨d.setThread t ((d.threads t).setStack ((d.threads t).stack.set i v)), ?_, ?_,
        fun uv' hne => ?_⟩
      · simp only [writeUpvalue, huv, set?, if_pos hlt, Option.map_some]
      · have hcells : (d.setThread t ((d.threads t).setStack
            ((d.threads t).stack.set i v))).cells uv = UpvalueState.openAt t i := huv
        simp only [readUpvalue, hcells, Driver.setThread_self, ThreadState.stack_setStack,
          List.getElem?_set_self hlt]
      · have hcells : (d.setThread t ((d.threads t).setStack
            ((d.threads t).stack.set i v))).cells uv' = d.cells uv' := rfl
        simp only [readUpvalue, hcells]
        cases huv' : d.cells uv' with
        | closed w => rfl
        | openAt t' i' =>
            by_cases ht : t' = t
            · subst ht
              have hi : i ≠ i' := by
                rintro rfl
                exact hne (h.unique uv' uv t' i huv' huv)
              simp only [Driver.setThread_self, ThreadState.stack_setStack,
                List.getElem?_set_ne hi]
            · simp only [d.setThread_of_ne ht]

end Linked

end Driver

/-- What holds of the executor at the end of an iteration. -/
def DriveOutcome.All (P : Driver → Prop) : DriveOutcome → Prop
  | next d => P d
  | finish _ d => P d
  | error _ d => P d
  | unreachable => True
  | panic => True

theorem DriveOutcome.All.mono {P Q : Driver → Prop} {out : DriveOutcome} (h : out.All P)
    (hPQ : ∀ d, P d → Q d) : out.All Q := by
  cases out with
  | next d => exact hPQ d h
  | finish r d => exact hPQ d h
  | error e d => exact hPQ d h
  | unreachable => trivial
  | panic => trivial

/-- A step keeps the invariant, and follows the upvalues. -/
structure Driver.Advances (d d' : Driver) : Prop where
  linked : d'.Linked
  follows : d.Follows d'
  created : d'.Created

/-- A step that leaves all captured variables as they are. -/
structure Driver.Steady (d d' : Driver) : Prop where
  linked : d'.Linked
  cells : d'.cells = d.cells
  threads : d.freshThread ≤ d'.freshThread
  created : d'.Created

theorem Driver.Steady.advances {d d' : Driver} (h : d.Steady d') : d.Advances d' :=
  ⟨h.linked, Driver.Follows.of_cells h.cells h.threads, h.created⟩

theorem Driver.Advances.trans_steady {d d' d'' : Driver} (h : d.Advances d')
    (h' : d'.Steady d'') : d.Advances d'' := by
  refine ⟨h'.linked, ⟨fun uv t i hi => ?_, fun uv t i hi => ?_,
    Nat.le_trans h.follows.threads h'.threads⟩, h'.created⟩
  · rw [h'.cells]
    exact h.follows.kept uv t i hi
  · rw [h'.cells] at hi
    exact h.follows.opened uv t i hi

theorem Driver.Steady.trans {d d' d'' : Driver} (h : d.Steady d') (h' : d'.Steady d'') :
    d.Steady d'' :=
  ⟨h'.linked, h'.cells.trans h.cells, Nat.le_trans h.threads h'.threads, h'.created⟩

/-! ### Callbacks -/

/-- A callback closes no coroutine that is off the chain and has an open upvalue. -/
def EffectsGuard (d : Driver) (top : ThreadId) (c : Callee) : Prop :=
  match c.target with
  | CallTarget.lua _ => True
  | CallTarget.native _ => ∀ co, ThreadEffect.close co ∈ c.effects → co ≠ top →
      (d.threads co).status ≠ ThreadStatus.normal → OpenBelow d.cells co 0

/-- What callbacks do to other threads leaves the captured variables. -/
structure Affected (top : ThreadId) (d d' : Driver) : Prop where
  linked : d'.Linked
  cells : d'.cells = d.cells
  fresh : d.freshThread ≤ d'.freshThread
  top : d'.threads top = d.threads top
  stack : d'.threadStack = d.threadStack
  quiet : ∀ co, co < d.freshThread → (d'.threads co).status ≠ ThreadStatus.normal →
    (d.threads co).status ≠ ThreadStatus.normal

theorem Affected.trans {top : ThreadId} {d d' d'' : Driver} (h : Affected top d d')
    (h' : Affected top d' d'') : Affected top d d'' :=
  ⟨h'.linked, h'.cells.trans h.cells, Nat.le_trans h.fresh h'.fresh, h'.top.trans h.top,
    h'.stack.trans h.stack, fun co hlt hstatus =>
      h.quiet co hlt (h'.quiet co (Nat.lt_of_lt_of_le hlt h.fresh) hstatus)⟩

section Callbacks

variable {d : Driver} {top : ThreadId}

theorem create_affected (h : d.Linked) (htop : top < d.freshThread) (f : FunctionId) :
    Affected top d (ThreadEffect.apply top d (ThreadEffect.create f)) := by
  have hself := d.setThread_self d.freshThread (ThreadState.created d.freshThread f)
  have hother : ∀ t, t ≠ d.freshThread →
      (d.setThread d.freshThread (ThreadState.created d.freshThread f)).threads t = d.threads t :=
    fun t ht => d.setThread_of_ne ht _
  have hne : ∀ uv t i, d.cells uv = UpvalueState.openAt t i → t ≠ d.freshThread := by
    rintro uv t i hi rfl
    exact absurd (h.openBelow_uncreated (Nat.le_refl _) 0 uv i hi) (Nat.not_lt_zero i)
  refine
    { linked := ⟨fun uv t i hi => ?_, h.unique, fun uv t i hi => ?_, fun t uv huv t' i hi => ?_,
        fun t => ?_, fun t uv huv => ?_, fun t ht => ?_⟩
      cells := rfl
      fresh := Nat.le_succ _
      top := hother top (Nat.ne_of_lt htop)
      stack := rfl
      quiet := fun co hlt hstatus => ?_ }
  · show uv ∈ ((d.setThread _ _).threads t).openUpvalues
    rw [hother t (hne uv t i hi)]
    exact h.listed uv t i hi
  · show i < ((d.setThread _ _).threads t).stack.length
    rw [hother t (hne uv t i hi)]
    exact h.bounded uv t i hi
  · replace huv : uv ∈ ((d.setThread _ _).threads t).openUpvalues := huv
    by_cases heq : t = d.freshThread
    · subst heq
      rw [hself] at huv
      exact absurd huv List.not_mem_nil
    · rw [hother t heq] at huv
      exact h.own t uv huv t' i hi
  · show ((d.setThread _ _).threads t).threadHandle = t
    by_cases heq : t = d.freshThread
    · subst heq
      rw [hself]
      rfl
    · rw [hother t heq]
      exact h.handle t
  · replace huv : uv ∈ ((d.setThread _ _).threads t).openUpvalues := huv
    by_cases heq : t = d.freshThread
    · subst heq
      rw [hself] at huv
      exact absurd huv List.not_mem_nil
    · rw [hother t heq] at huv
      exact h.fresh t uv huv
  · show (d.setThread _ _).threads t = ThreadState.new t
    have hlt : d.freshThread < t := ht
    rw [hother t (Nat.ne_of_gt hlt)]
    exact h.uncreated t (Nat.le_of_lt hlt)
  · replace hstatus : ((d.setThread _ _).threads co).status ≠ ThreadStatus.normal := hstatus
    rwa [hother co (Nat.ne_of_lt hlt)] at hstatus

theorem close_affected (h : d.Linked) {co : ThreadId} (hne : co ≠ top)
    (hopen : (d.threads co).status ≠ ThreadStatus.normal → OpenBelow d.cells co 0) :
    Affected top d (d.setThread co (d.threads co).close) := by
  have hquiet : ∀ t, ((d.setThread co (d.threads co).close).threads t).status ≠
      ThreadStatus.normal → (d.threads t).status ≠ ThreadStatus.normal := by
    intro t hstatus hnormal
    by_cases heq : t = co
    · subst heq
      rw [d.setThread_self] at hstatus
      unfold ThreadState.close at hstatus
      rw [hnormal] at hstatus
      exact hstatus hnormal
    · rw [d.setThread_of_ne heq] at hstatus
      exact hstatus hnormal
  refine ⟨?_, rfl, Nat.le_refl _, d.setThread_of_ne (Ne.symm hne) _, rfl, fun t _ => hquiet t⟩
  by_cases hlt : co < d.freshThread
  · by_cases hnormal : (d.threads co).status = ThreadStatus.normal
    · have hsame : (d.threads co).close = d.threads co := by
        unfold ThreadState.close
        rw [hnormal]
      rw [hsame]
      exact h.setThread hlt (Moves.of_grows fun k => Cuts.refl k _) rfl
    · have hclosed : (d.threads co).close.openUpvalues = [] ∧
          (d.threads co).close.threadHandle = (d.threads co).threadHandle := by
        unfold ThreadState.close
        split
        · next heq => exact absurd heq hnormal
        · exact ⟨rfl, rfl⟩
      exact h.clear hlt (hopen hnormal) hclosed.1 hclosed.2
  · -- a thread that has not been created stays as it is
    have hnew := h.uncreated co (Nat.le_of_not_lt hlt)
    have hsame : d.setThread co (d.threads co).close = d := by
      have hclose : (d.threads co).close = d.threads co := by
        rw [hnew]
        rfl
      rw [hclose]
      unfold Driver.setThread
      rw [Function.update_eq_self]
    rw [hsame]
    exact h

/-- **Creating and closing coroutines**. -/
theorem applyEffects_affected {effects : List ThreadEffect} (h : d.Linked)
    (htop : top < d.freshThread)
    (hguard : ∀ co, ThreadEffect.close co ∈ effects → co ≠ top →
      (d.threads co).status ≠ ThreadStatus.normal → OpenBelow d.cells co 0) :
    Affected top d (applyEffects top d effects) := by
  induction effects generalizing d with
  | nil => exact ⟨h, rfl, Nat.le_refl _, rfl, rfl, fun _ _ hstatus => hstatus⟩
  | cons e effects ih =>
      have hfirst : Affected top d (e.apply top d) := by
        cases e with
        | create f => exact create_affected h htop f
        | close co =>
            by_cases hco : co = top
            · have heq : ThreadEffect.apply top d (ThreadEffect.close co) = d := if_pos hco
              rw [heq]
              exact ⟨h, rfl, Nat.le_refl _, rfl, rfl, fun _ _ hstatus => hstatus⟩
            · have heq : ThreadEffect.apply top d (ThreadEffect.close co) =
                  d.setThread co (d.threads co).close := if_neg hco
              rw [heq]
              exact close_affected h hco (hguard co (List.mem_cons_self ..) hco)
      refine hfirst.trans (ih hfirst.linked (Nat.lt_of_lt_of_le htop hfirst.fresh)
        fun co hmem hne hstatus => ?_)
      rw [hfirst.cells]
      by_cases hlt : co < d.freshThread
      · exact hguard co (List.mem_cons_of_mem _ hmem) hne (hfirst.quiet co hlt hstatus)
      · exact h.openBelow_uncreated (Nat.le_of_not_lt hlt) 0

theorem applied_affected (h : d.Linked) (htop : top < d.freshThread) (c : Callee)
    (hguard : EffectsGuard d top c) : Affected top d (c.applied top d) := by
  unfold EffectsGuard at hguard
  unfold Callee.applied
  cases htarget : c.target with
  | lua closure => exact ⟨h, rfl, Nat.le_refl _, rfl, rfl, fun _ _ hstatus => hstatus⟩
  | native f =>
      rw [htarget] at hguard
      exact applyEffects_affected h htop hguard

/-! ### The arms of the loop -/

theorem setThread_steady (h : d.Linked) (hcreated : d.Created) {t : ThreadId}
    (ht : t < d.freshThread) {ts : ThreadState} (hmoves : Moves (d.threads t) d.cells ts d.cells)
    (hhandle : ts.threadHandle = (d.threads t).threadHandle) : d.Steady (d.setThread t ts) :=
  ⟨h.setThread ht hmoves hhandle, rfl, Nat.le_refl _, hcreated⟩

theorem Affected.created {d' : Driver} (h : Affected top d d') (hcreated : d.Created) :
    d'.Created := by
  intro t ht
  rw [h.stack] at ht
  exact Nat.lt_of_lt_of_le (hcreated t ht) h.fresh

/-- A thread goes on after a call, which may be native. -/
theorem applied_steady (h : d.Linked) (hcreated : d.Created) (htop : top < d.freshThread)
    {c : Callee} (hguard : EffectsGuard d top c) {r : Option ThreadState}
    (hr : ∀ ts, r = some ts → Moves (d.threads top) d.cells ts d.cells ∧
      SameSite (d.threads top) ts) :
    ((c.applied top d).continueWith top r).All d.Steady := by
  have haffected := applied_affected h htop c hguard
  cases r with
  | none => trivial
  | some ts =>
      obtain ⟨hmoves, hsite⟩ := hr ts rfl
      have htop' := Nat.lt_of_lt_of_le htop haffected.fresh
      refine Driver.Steady.trans ⟨haffected.linked, haffected.cells, haffected.fresh,
        haffected.created hcreated⟩ (setThread_steady haffected.linked
          (haffected.created hcreated) htop' ?_ ?_)
      · rw [haffected.top, haffected.cells]
        exact hmoves
      · rw [haffected.top]
        exact hsite.threadHandle

/-- A coroutine that is resumed has no upvalue open where its arguments go. -/
def ResumeGuard (d : Driver) (target : ThreadId) : Prop :=
  (d.threads target).status = ThreadStatus.suspended →
    match (d.threads target).frames with
    | Frame.start _ :: _ => OpenBelow d.cells target 0
    | _ => ∀ y, (d.threads target).yieldBottom = some y → OpenBelow d.cells target y.floor

/-- A thread that is resumed gets its arguments above the upvalues that are open. -/
theorem resumeWith_moves (h : d.Linked) {target : ThreadId} (hguard : ResumeGuard d target)
    {args : List Value} {ts : ThreadState}
    (hresume : (d.threads target).resumeWith args = some (some ts)) :
    Moves (d.threads target) d.cells ts d.cells ∧
      ts.threadHandle = (d.threads target).threadHandle ∧ target < d.freshThread := by
  unfold ThreadState.resumeWith at hresume
  split at hresume
  · next hstatus =>
      have hcreated : target < d.freshThread := by
        rcases Nat.lt_or_ge target d.freshThread with hlt | hge
        · exact hlt
        · rw [h.uncreated target hge] at hstatus
          exact absurd hstatus (by simp [ThreadState.new])
      have hguard := hguard hstatus
      split at hresume
      · next f rest hframes =>
          simp only [hframes] at hguard
          cases hresume
          exact ⟨Moves.of_cuts ⟨rfl, by omega⟩ (h.openIn hguard), rfl, hcreated⟩
      · next hnot =>
          obtain ⟨y, hy, hland⟩ := Option.map_eq_some_iff.1 hresume
          have hopen : OpenBelow d.cells target y.floor := by
            split at hguard
            · next f rest hframes => exact absurd hframes (hnot f rest)
            · exact hguard y hy
          have hcut : Cuts y.floor (d.threads target) { d.threads target with
              stack := (d.threads target).stack.take y.bottom ++ args, yieldBottom := none } :=
            take_append_cuts y.floor_le rfl rfl
          exact ⟨Moves.of_cuts (hcut.trans (landResumed_cuts hland)) (h.openIn hopen),
            (landResumed_keeps hland).threadHandle, hcreated⟩
  · exact absurd hresume (by simp)

/-- **Switching to a coroutine**. -/
theorem scheduleThreadResume_steady (h : d.Linked) (hcreated : d.Created) {resumer : ThreadId}
    (hresumer : resumer < d.freshThread) {target : ThreadId} {argsBottom : ℕ}
    (hopen : OpenBelow d.cells resumer argsBottom)
    (hguard : target ≠ resumer → ResumeGuard d target) (wt : CallSite) :
    (scheduleThreadResume d resumer target argsBottom wt).All d.Steady := by
  unfold scheduleThreadResume
  simp only
  split
  · have hwait : d.Steady (d.setThread resumer ((d.threads resumer).waiting argsBottom wt)) :=
      setThread_steady h hcreated hresumer (Moves.of_cuts
        (take_cuts rfl (Nat.le_refl argsBottom) rfl rfl) (h.openIn hopen)) rfl
    by_cases heq : target = resumer
    · -- a thread does not resume itself: it waits
      subst heq
      have hself : ((d.setThread target ((d.threads target).waiting argsBottom wt)).threads
          target).resumeWith ((d.threads target).stack.drop argsBottom) = none := by
        rw [d.setThread_self]
        rfl
      rw [hself]
      exact hwait
    · have hsame : (d.setThread resumer ((d.threads resumer).waiting argsBottom wt)).threads
          target = d.threads target := d.setThread_of_ne heq _
      rw [hsame]
      split
      · next ts hresume =>
          obtain ⟨hmoves, hhandle, hlt⟩ := resumeWith_moves h (hguard heq) hresume
          have hnext : (d.setThread resumer
              ((d.threads resumer).waiting argsBottom wt)).Steady
              ((d.setThread resumer ((d.threads resumer).waiting argsBottom wt)).setThread
                target ts) := by
            refine setThread_steady hwait.linked hwait.created hlt ?_ ?_
            · rw [hsame]
              exact hmoves
            · rw [hsame]
              exact hhandle
          refine ⟨hnext.linked.withStack _ _, rfl, Nat.le_refl _, fun t ht => ?_⟩
          rcases List.mem_cons.1 ht with rfl | ht
          · exact hlt
          · exact hcreated t ht
      · trivial
      · exact hwait
  · trivial

/-- An action cuts the stack at its call site. -/
def ActionUpvalueGuard (d : Driver) (top : ThreadId) (p : PendingAction) (callee : Callee) : Prop :=
  match p.action with
  | CallbackAction.call _ _ =>
      OpenBelow d.cells top p.callSite.bottom ∧ EffectsGuard d top callee
  | CallbackAction.resume target _ =>
      OpenBelow d.cells top p.callSite.bottom ∧ ResumeGuard d target
  | _ => True

theorem pushThen_moves (ts : ThreadState) (cells : Cells) (andThen : Option Sequence)
    (cs : CallSite) : Moves ts cells (pushThen ts andThen cs) cells :=
  Moves.of_grows fun k => pushThen_cuts k ts andThen cs

/-- **A pending action.** -/
theorem applyPendingAction_steady (h : d.Linked) (hcreated : d.Created)
    (htop : top < d.freshThread) {p : PendingAction} {callee : Callee}
    (hguard : ActionUpvalueGuard d top p callee) :
    (applyPendingAction d top p callee).All d.Steady := by
  unfold ActionUpvalueGuard at hguard
  unfold applyPendingAction
  cases haction : p.action with
  | ret => trivial
  | sequence seq =>
      exact setThread_steady h hcreated htop
        (Moves.of_grows fun k => Cuts.of_length_le rfl (Nat.le_refl _)) rfl
  | call f andThen =>
      rw [haction] at hguard
      obtain ⟨hopen, heffects⟩ := hguard
      refine applied_steady h hcreated htop heffects fun ts hcall => ⟨?_, ?_⟩
      · exact Moves.of_cuts ((pushThen_cuts _ _ andThen p.callSite).trans (callAt_cuts hcall))
          (h.openIn hopen)
      · exact (pushThen_keeps _ andThen p.callSite).trans (callAt_keeps hcall)
  | yield andThen =>
      refine setThread_steady h hcreated htop ?_ (pushThen_keeps _ andThen p.callSite).threadHandle
      exact (pushThen_moves _ _ andThen p.callSite).trans_grows
        fun k => Cuts.of_length_le rfl (Nat.le_refl _)
  | resume target andThen =>
      rw [haction] at hguard
      obtain ⟨hopen, htarget⟩ := hguard
      have hpush := setThread_steady h hcreated htop (pushThen_moves _ _ andThen p.callSite)
        (pushThen_keeps (d.threads top) andThen p.callSite).threadHandle
      refine (scheduleThreadResume_steady hpush.linked hpush.created htop
        (by exact hopen) (fun hne => ?_) p.callSite).mono fun d' hd' => hpush.trans hd'
      unfold ResumeGuard
      rw [d.setThread_of_ne hne]
      exact htarget

/-- A poll cuts the stack at the window of its sequence. -/
def PollUpvalueGuard (d : Driver) (top : ThreadId) (cs : CallSite) (out : PollOutcome)
    (callee : Callee) : Prop :=
  OpenBelow d.cells top cs.bottom ∧
    match out with
    | PollOutcome.error _ _ => True
    | PollOutcome.ok poll _ _ =>
        match poll with
        | SequencePoll.ret => OpenBelow d.cells top cs.floor
        | SequencePoll.call _ _ => EffectsGuard d top callee
        | SequencePoll.tailCall _ => OpenBelow d.cells top cs.funcIdx ∧ EffectsGuard d top callee
        | SequencePoll.resume target _ => ResumeGuard d target
        | SequencePoll.tailResume target => ResumeGuard d target
        | _ => True

/-- **A sequence** is polled: `ts` is the driven thread without the frame of the sequence. -/
theorem pumpSequence_steady (h : d.Linked) (hcreated : d.Created) (htop : top < d.freshThread)
    {ts : ThreadState} (hpop : Cuts (d.threads top).stack.length (d.threads top) ts)
    (hsite : SameSite (d.threads top) ts) (hstack : ts.stack = (d.threads top).stack)
    {seq : Sequence} {cs : CallSite} {e : Option Value} {choice : PollOutcome} {callee : Callee}
    (hguard : PollUpvalueGuard d top cs
      (pollSequence seq e ((d.threads top).stack.drop cs.bottom) choice) callee) :
    (pumpSequence d top ts seq cs e choice callee).All d.Steady := by
  obtain ⟨hopen, hguard⟩ := hguard
  have hin := h.openIn hopen
  unfold pumpSequence
  rw [hstack]
  simp only
  generalize pollSequence seq e ((d.threads top).stack.drop cs.bottom) choice = out at hguard ⊢
  split
  · -- what the poll leaves in the window of the sequence
    have hpolled : ∀ window, Cuts cs.bottom (d.threads top)
        (ts.setStack ((d.threads top).stack.take cs.bottom ++ window)) := fun window =>
      take_append_cuts (Nat.le_refl _) hpop.upvalues rfl
    have hpush : ∀ window fr, Cuts cs.bottom (d.threads top)
        ((ts.setStack ((d.threads top).stack.take cs.bottom ++ window)).push fr) :=
      fun window fr => (hpolled window).trans (Cuts.of_length_le rfl (Nat.le_refl _))
    have hsame : ∀ s, SameSite (d.threads top) (ts.setStack s) := fun s =>
      hsite.trans (setStack_keeps ts s)
    have hsamePush : ∀ s fr, SameSite (d.threads top) ((ts.setStack s).push fr) := fun s fr =>
      (hsame s).trans ⟨rfl, rfl⟩
    -- the thread waits for a coroutine
    have hresume : ∀ (u : ThreadState) (target : ThreadId) (argsBottom : ℕ),
        Cuts cs.bottom (d.threads top) u → SameSite (d.threads top) u → cs.bottom ≤ argsBottom →
        ResumeGuard d target →
        (scheduleThreadResume (d.setThread top u) top target argsBottom cs).All d.Steady := by
      intro u target argsBottom hcut husite hle htarget
      have hfirst := setThread_steady h hcreated htop (Moves.of_cuts hcut hin) husite.threadHandle
      refine (scheduleThreadResume_steady hfirst.linked hfirst.created htop
        (fun uv i hi => Nat.lt_of_lt_of_le (hopen uv i hi) hle) (fun hne => ?_) cs).mono
          fun d' hd' => hfirst.trans hd'
      unfold ResumeGuard
      rw [d.setThread_of_ne hne]
      exact htarget
    cases out with
    | error err window =>
        exact setThread_steady h hcreated htop (Moves.of_cuts (hpush _ _) hin) hsite.threadHandle
    | ok poll window seq' =>
        cases poll with
        | pending =>
            exact setThread_steady h hcreated htop (Moves.of_cuts (hpush _ _) hin)
              hsite.threadHandle
        | ret =>
            simp only
            cases hland : landCallResults _ cs with
            | none => trivial
            | some ts' =>
                exact setThread_steady h hcreated htop
                  (Moves.of_cuts (((hpolled _).mono cs.floor_le).trans (landCallResults_cuts hland))
                    (h.openIn hguard)) ((hsame _).trans (landCallResults_keeps hland)).threadHandle
        | call f bottom =>
            refine applied_steady h hcreated htop hguard fun ts' hcall => ⟨?_, ?_⟩
            · exact Moves.of_cuts ((hpush _ _).trans
                ((callAt_cuts hcall).mono (Nat.le_add_right _ _))) hin
            · exact (hsamePush _ _).trans (callAt_keeps hcall)
        | tailCall f =>
            obtain ⟨hfunc, heffects⟩ := hguard
            refine applied_steady h hcreated htop heffects fun ts' hcall => ?_
            obtain ⟨u, hcompact, hcall⟩ := Option.bind_eq_some_iff.1 hcall
            refine ⟨?_, ((hsame _).trans (compactArgs_keeps hcompact)).trans
              (scheduleCallAt_keeps hcall)⟩
            have hboth : OpenIn (d.threads top).openUpvalues d.cells
                (min cs.funcIdx cs.bottom) := fun uv huv t i hi =>
              Nat.lt_min.2 ⟨h.openIn hfunc uv huv t i hi, hin uv huv t i hi⟩
            exact Moves.of_cuts ((((hpolled _).mono (Nat.min_le_right _ _)).trans
              ((compactArgs_cuts hcompact).mono (Nat.min_le_left _ _))).trans
                ((scheduleCallAt_cuts hcall).mono (Nat.min_le_left _ _))) hboth
        | yield bottom =>
            exact setThread_steady h hcreated htop (Moves.of_cuts
              ((hpush window (Frame.sequence seq' cs none)).trans
                (Cuts.of_length_le rfl (Nat.le_refl _))) hin) hsite.threadHandle
        | tailYield =>
            exact setThread_steady h hcreated htop (Moves.of_cuts
              ((hpolled _).trans (Cuts.of_length_le rfl (Nat.le_refl _))) hin) hsite.threadHandle
        | resume target bottom =>
            exact hresume _ target _ (hpush _ _) (hsamePush _ _) (Nat.le_add_right _ _) hguard
        | tailResume target =>
            exact hresume _ target _ (hpolled _) (hsame _) (Nat.le_refl _) hguard
  · trivial

/-- **A thread that has finished or yielded** hands its values to the thread below it. -/
theorem propagate_steady (h : d.Linked) (hcreated : d.Created) {inner : ThreadId}
    {below : List ThreadId} (hstack : d.threadStack = inner :: below) {bottom : ℕ}
    {innerYielded : Bool} (hinner : innerYielded = false → OpenBelow d.cells inner 0)
    (hresumer : ∀ resumer below' wt rest, below = resumer :: below' →
      (d.threads resumer).frames = Frame.waitThread wt :: rest →
      OpenBelow d.cells resumer wt.floor) :
    (propagateInnerToResumer d inner below bottom innerYielded).All d.Steady := by
  have hcreated' : ∀ t ∈ below, t < d.freshThread := fun t ht =>
    hcreated t (hstack ▸ List.mem_cons_of_mem _ ht)
  unfold propagateInnerToResumer
  simp only
  split
  · cases below with
    | nil => trivial
    | cons resumer below' =>
        -- the values of the inner thread are taken
        have hdrained : ∃ d', (if innerYielded then d else
            d.setThread inner ((d.threads inner).setStack [])) = d' ∧ d.Steady d' ∧
            (d'.threads resumer).frames = (d.threads resumer).frames ∧
            d'.freshThread = d.freshThread := by
          cases innerYielded with
          | true => exact ⟨d, rfl, ⟨h, rfl, Nat.le_refl _, hcreated⟩, rfl, rfl⟩
          | false =>
              have hlt := hcreated inner (hstack ▸ List.mem_cons_self ..)
              refine ⟨_, rfl, setThread_steady h hcreated hlt ?_ rfl, ?_, rfl⟩
              · exact Moves.of_cuts ⟨rfl, by omega⟩ (h.openIn (hinner rfl))
              · by_cases heq : resumer = inner
                · subst heq
                  rw [if_neg (by simp), d.setThread_self]
                  rfl
                · rw [if_neg (by simp), d.setThread_of_ne heq]
        obtain ⟨d', heq, hsteady, hframes, hfresh⟩ := hdrained
        rw [heq]
        simp only
        split
        · next wt rest hwait =>
            have hopen := hresumer resumer below' wt rest rfl (hframes.symm.trans hwait)
            have hpopped : d.Steady { d' with threadStack := resumer :: below' } :=
              ⟨hsteady.linked.withStack _ _, hsteady.cells, hsteady.threads, fun t ht => by
                show t < d'.freshThread
                rw [hfresh]
                exact hcreated' t ht⟩
            cases hland : landPropagated _ wt with
            | none => trivial
            | some ts' =>
                refine hpopped.trans (setThread_steady hpopped.linked hpopped.created
                  (hpopped.created resumer (List.mem_cons_self ..)) ?_ ?_)
                · refine Moves.of_cuts (Cuts.trans ?_ (landPropagated_cuts hland))
                    (hpopped.linked.openIn ?_)
                  · exact take_append_cuts wt.floor_le rfl rfl
                  · show OpenBelow d'.cells resumer wt.floor
                    rw [hsteady.cells]
                    exact hopen
                · exact (landPropagated_keeps hland).threadHandle
        · trivial
  · trivial

/-- **Unwinding** closes what the frames of the thread had captured. -/
theorem unwindError_advances (h : d.Linked) (hcreated : d.Created) {below : List ThreadId}
    (hstack : d.threadStack = top :: below) (err : Value) (frames : List Frame) :
    (unwindError d top below err frames).All d.Advances := by
  have htop := hcreated top (hstack ▸ List.mem_cons_self ..)
  have hmoves := unwindFrames_moves err frames (d.threads top) d.cells
  have hmove : ∀ ts cells, Moves (d.threads top) d.cells ts cells →
      SameSite (d.threads top) ts → d.Advances (d.store top ts cells) := by
    intro ts cells hmoves hsite
    exact ⟨h.move htop hmoves hsite.threadHandle, h.follows hmoves rfl (Nat.le_refl _), hcreated⟩
  unfold unwindError
  cases hunwind : unwindFrames err frames (d.threads top) d.cells with
  | caught ts cells =>
      rw [hunwind] at hmoves
      exact hmove ts cells hmoves (unwindFrames_keeps err (Or.inl hunwind))
  | unreachable => trivial
  | panic => trivial
  | uncaught ts cells =>
      rw [hunwind] at hmoves
      have hleft := hmove ts cells hmoves (unwindFrames_keeps err (Or.inr hunwind))
      cases below with
      | nil => exact hleft
      | cons resumer below' =>
          simp only
          split
          · -- the resumer goes on with the error
            have hlt : ∀ t ∈ resumer :: below', t < d.freshThread := fun t ht =>
              hcreated t (hstack ▸ List.mem_cons_of_mem _ ht)
            have hset : ∀ fr, (d.store top ts cells).Steady
                ((d.store top ts cells).setThread resumer
                  { (d.store top ts cells).threads resumer with
                  frames := fr, status := ThreadStatus.normal }) := fun fr =>
              setThread_steady hleft.linked hleft.created (hlt resumer (List.mem_cons_self ..))
                (Moves.of_grows fun k => Cuts.of_length_le rfl (Nat.le_refl _)) rfl
            refine hleft.trans_steady ⟨(hset _).linked.withStack _ _, rfl, Nat.le_refl _, ?_⟩
            exact fun t ht => hlt t ht
          · trivial

/-! ### Instructions -/

theorem writeUpvalue_advances (h : d.Linked) (hcreated : d.Created) {uv : UpvalueId} {v : Value}
    {d' : Driver} (hwrite : writeUpvalue d uv v = some d') :
    d.Advances d' ∧ (∀ t, SameSite (d.threads t) (d'.threads t)) ∧
      d'.freshThread = d.freshThread := by
  unfold writeUpvalue at hwrite
  cases huv : d.cells uv with
  | closed w =>
      simp only [huv, Option.some.injEq] at hwrite
      subst hwrite
      -- a variable of its own is open nowhere
      have hopen : ∀ uv' t i, Function.update d.cells uv (UpvalueState.closed v) uv' =
          UpvalueState.openAt t i ↔ d.cells uv' = UpvalueState.openAt t i := by
        intro uv' t i
        by_cases heq : uv' = uv
        · subst heq
          rw [Function.update_self, huv]
          simp
        · rw [Function.update_of_ne heq]
      refine ⟨⟨⟨fun uv' t i hi => h.listed uv' t i ((hopen uv' t i).1 hi),
        fun u u' t i hi hi' => h.unique u u' t i ((hopen u t i).1 hi) ((hopen u' t i).1 hi'),
        fun uv' t i hi => h.bounded uv' t i ((hopen uv' t i).1 hi),
        fun t u hu t' i hi => h.own t u hu t' i ((hopen u t' i).1 hi), h.handle, h.fresh,
        h.uncreated⟩, ⟨fun u t i hi => Or.inl ((hopen u t i).2 hi),
          fun u t i hi => Or.inl ((hopen u t i).1 hi), Nat.le_refl _⟩, hcreated⟩,
        fun t => SameSite.refl _, rfl⟩
  | openAt t i =>
      simp only [huv] at hwrite
      obtain ⟨s, hset, rfl⟩ := Option.map_eq_some_iff.1 hwrite
      have hlt : t < d.freshThread := by
        rcases Nat.lt_or_ge t d.freshThread with hlt | hge
        · exact hlt
        · exact absurd (h.openBelow_uncreated hge 0 uv i huv) (Nat.not_lt_zero i)
      have hcut : ∀ k, Cuts k (d.threads t) ((d.threads t).setStack s) := fun k =>
        Cuts.of_length_le rfl (Nat.le_of_eq (length_set? hset).symm)
      have hsteady := setThread_steady h hcreated hlt (Moves.of_grows hcut) rfl
      refine ⟨hsteady.advances, fun t' => ?_, rfl⟩
      by_cases heq : t' = t
      · subst heq
        rw [d.setThread_self]
        exact setStack_keeps _ s
      · rw [d.setThread_of_ne heq]
        exact SameSite.refl _

/-- Slots of the driven thread are captured. -/
structure Captures (top : ThreadId) (d d' : Driver) : Prop where
  linked : d'.Linked
  kept : ∀ uv t i, d.cells uv = UpvalueState.openAt t i → d'.cells uv = UpvalueState.openAt t i
  opened : ∀ uv t i, d'.cells uv = UpvalueState.openAt t i →
    d.cells uv = UpvalueState.openAt t i ∨ t = top
  fresh : d'.freshThread = d.freshThread
  threadStack : d'.threadStack = d.threadStack
  stack : (d'.threads top).stack = (d.threads top).stack

theorem Captures.trans {d' d'' : Driver} (h : Captures top d d') (h' : Captures top d' d'') :
    Captures top d d'' :=
  ⟨h'.linked, fun uv t i hi => h'.kept uv t i (h.kept uv t i hi), fun uv t i hi =>
    (h'.opened uv t i hi).elim (h.opened uv t i) Or.inr, h'.fresh.trans h.fresh,
    h'.threadStack.trans h.threadStack, h'.stack.trans h.stack⟩

theorem captureSlot_captures (h : d.Linked) (htop : top < d.freshThread) {slot : ℕ}
    (hslot : slot < (d.threads top).stack.length) : Captures top d (captureSlot top d slot) := by
  unfold captureSlot
  simp only
  split
  · exact ⟨h, fun _ _ _ hi => hi, fun _ _ _ hi => Or.inl hi, rfl, rfl, rfl⟩
  · next hfind =>
      -- no upvalue is open at the slot
      have hnone : ∀ uv, d.cells uv ≠ UpvalueState.openAt top slot := by
        intro uv huv
        have hnot := List.find?_eq_none.1 hfind uv (h.listed uv top slot huv)
        simp only [huv] at hnot
        exact hnot (by simp)
      have hfresh : ∀ uv t i, d.cells uv = UpvalueState.openAt t i → uv ≠ d.freshUpvalue :=
        fun uv t i hi => Nat.ne_of_lt (h.fresh t uv (h.listed uv t i hi))
      have hhandle : (d.threads top).threadHandle = top := h.handle top
      generalize hts : { d.threads top with
        openUpvalues := (d.threads top).openUpvalues ++ [d.freshUpvalue] } = ts
      rw [hhandle]
      have hopenUpvalues : ts.openUpvalues = (d.threads top).openUpvalues ++ [d.freshUpvalue] := by
        rw [← hts]
      have hstack : ts.stack = (d.threads top).stack := by rw [← hts]
      have hsite : ts.threadHandle = top := by
        rw [← hts]
        exact hhandle
      have hself : (d.setThread top ts).threads top = ts := d.setThread_self top ts
      have hother : ∀ t, t ≠ top → (d.setThread top ts).threads t = d.threads t :=
        fun t ht => d.setThread_of_ne ht ts
      have hcell : ∀ uv t i, Function.update d.cells d.freshUpvalue
          (UpvalueState.openAt top slot) uv = UpvalueState.openAt t i →
          (uv = d.freshUpvalue ∧ t = top ∧ i = slot) ∨
            (uv ≠ d.freshUpvalue ∧ d.cells uv = UpvalueState.openAt t i) := by
        intro uv t i hi
        by_cases heq : uv = d.freshUpvalue
        · rw [heq, Function.update_self] at hi
          obtain ⟨rfl, rfl⟩ := UpvalueState.openAt.inj hi
          exact Or.inl ⟨heq, rfl, rfl⟩
        · rw [Function.update_of_ne heq] at hi
          exact Or.inr ⟨heq, hi⟩
      refine ⟨⟨fun uv t i hi => ?_, fun uv uv' t i hi hi' => ?_, fun uv t i hi => ?_,
        fun t uv huv t' i hi => ?_, fun t => ?_, fun t uv huv => ?_, fun t ht => ?_⟩,
        fun uv t i hi => ?_, fun uv t i hi => ?_, rfl, rfl, ?_⟩
      · show uv ∈ ((d.setThread top ts).threads t).openUpvalues
        rcases hcell uv t i hi with ⟨rfl, rfl, rfl⟩ | ⟨-, hwas⟩
        · rw [hself, hopenUpvalues]
          exact List.mem_append_right _ (List.mem_singleton.2 rfl)
        · by_cases heq : t = top
          · subst heq
            rw [hself, hopenUpvalues]
            exact List.mem_append_left _ (h.listed uv t i hwas)
          · rw [hother t heq]
            exact h.listed uv t i hwas
      · rcases hcell uv t i hi with ⟨rfl, rfl, rfl⟩ | ⟨-, hwas⟩
        · rcases hcell uv' t i hi' with ⟨rfl, -, -⟩ | ⟨-, hwas'⟩
          · rfl
          · exact absurd hwas' (hnone uv')
        · rcases hcell uv' t i hi' with ⟨rfl, rfl, rfl⟩ | ⟨-, hwas'⟩
          · exact absurd hwas (hnone uv)
          · exact h.unique uv uv' t i hwas hwas'
      · show i < ((d.setThread top ts).threads t).stack.length
        rcases hcell uv t i hi with ⟨rfl, rfl, rfl⟩ | ⟨-, hwas⟩
        · rw [hself, hstack]
          exact hslot
        · by_cases heq : t = top
          · subst heq
            rw [hself, hstack]
            exact h.bounded uv t i hwas
          · rw [hother t heq]
            exact h.bounded uv t i hwas
      · replace huv : uv ∈ ((d.setThread top ts).threads t).openUpvalues := huv
        rcases hcell uv t' i hi with ⟨rfl, rfl, rfl⟩ | ⟨hne, hwas⟩
        · by_cases heq : t = t'
          · exact heq.symm
          · rw [hother t heq] at huv
            exact absurd (h.fresh t _ huv) (Nat.lt_irrefl _)
        · by_cases heq : t = top
          · subst heq
            rw [hself, hopenUpvalues] at huv
            rcases List.mem_append.1 huv with huv | huv
            · exact h.own t uv huv t' i hwas
            · exact absurd (List.mem_singleton.1 huv) hne
          · rw [hother t heq] at huv
            exact h.own t uv huv t' i hwas
      · show ((d.setThread top ts).threads t).threadHandle = t
        by_cases heq : t = top
        · subst heq
          rw [hself]
          exact hsite
        · rw [hother t heq]
          exact h.handle t
      · replace huv : uv ∈ ((d.setThread top ts).threads t).openUpvalues := huv
        show uv < d.freshUpvalue + 1
        by_cases heq : t = top
        · subst heq
          rw [hself, hopenUpvalues] at huv
          rcases List.mem_append.1 huv with huv | huv
          · exact Nat.lt_succ_of_lt (h.fresh t uv huv)
          · rw [List.mem_singleton.1 huv]
            exact Nat.lt_succ_self _
        · rw [hother t heq] at huv
          exact Nat.lt_succ_of_lt (h.fresh t uv huv)
      · show (d.setThread top ts).threads t = ThreadState.new t
        replace ht : d.freshThread ≤ t := ht
        have hne : t ≠ top := by
          rintro rfl
          exact absurd htop (Nat.not_lt.2 ht)
        rw [hother t hne]
        exact h.uncreated t ht
      · show Function.update d.cells d.freshUpvalue (UpvalueState.openAt top slot) uv = _
        rw [Function.update_of_ne (hfresh uv t i hi)]
        exact hi
      · rcases hcell uv t i hi with ⟨-, rfl, -⟩ | ⟨-, hwas⟩
        · exact Or.inr rfl
        · exact Or.inl hwas
      · show ((d.setThread top ts).threads top).stack = (d.threads top).stack
        rw [hself]
        exact hstack

/-- **The slots that a closure captures.** -/
theorem captureSlots_captures (h : d.Linked) (htop : top < d.freshThread) (slots : List ℕ)
    (hslots : ∀ slot ∈ slots, slot < (d.threads top).stack.length) :
    Captures top d (slots.foldl (captureSlot top) d) := by
  induction slots generalizing d with
  | nil => exact ⟨h, fun _ _ _ hi => hi, fun _ _ _ hi => Or.inl hi, rfl, rfl, rfl⟩
  | cons slot slots ih =>
      have hfirst := captureSlot_captures h htop (hslots slot (List.mem_cons_self ..))
      refine hfirst.trans (ih hfirst.linked ?_ fun slot' hmem => ?_)
      · rw [hfirst.fresh]
        exact htop
      · rw [hfirst.stack]
        exact hslots slot' (List.mem_cons_of_mem _ hmem)

/-- What an instruction cuts off the stack is not captured. -/
def InstrUpvalueGuard (d : Driver) (top : ThreadId) (lf : LuaFrame) (instr : Instr) : Prop :=
  match instr with
  | Instr.closure _ _ captures _ => ∀ r ∈ captures, lf.base + r < (d.threads top).stack.length
  | Instr.call _ func _ _ callee =>
      EffectsGuard d top callee ∧
        ∀ f, callee.target = CallTarget.native f → OpenBelow d.cells top (lf.base + func)
  | Instr.tailcall func _ callee =>
      EffectsGuard d top callee ∧ ∀ f, callee.target = CallTarget.native f →
        OpenBelow d.cells top (lf.base + func + 1) ∧ ReturnGuard (d.threads top) d.cells lf
  | Instr.ret _ _ => ReturnGuard (d.threads top) d.cells lf
  | Instr.metamethod _ _ _ _ callee _ =>
      EffectsGuard d top callee ∧
        ∀ f, callee.target = CallTarget.native f → OpenBelow d.cells top (lf.windowEnd + 1)
  | _ => True

/-- **A handler** that moves the driven thread, after what its callback did to other threads. -/
theorem afterHandler_advances (h : d.Linked) (hcreated : d.Created) (htop : top < d.freshThread)
    {d' : Driver} (haffected : Affected top d d') {r : VmResult}
    (hmoves : VmMoves (d.threads top) d.cells r)
    (hkeeps : VmKeeps (d.threads top) r) : (d'.afterHandler top r).All d.Advances := by
  have hmove : ∀ ts cells, Moves (d.threads top) d.cells ts cells →
      SameSite (d.threads top) ts → d.Advances (d'.store top ts cells) := by
    intro ts cells hmoves hsite
    refine ⟨haffected.linked.move (Nat.lt_of_lt_of_le htop haffected.fresh) ?_ ?_,
      h.follows hmoves rfl haffected.fresh, haffected.created hcreated⟩
    · rw [haffected.top, haffected.cells]
      exact hmoves
    · rw [haffected.top]
      exact hsite.threadHandle
  unfold Driver.afterHandler
  rcases r with _ | ⟨flow, ts, cells⟩
  · trivial
  · have hts := hmoves flow ts cells rfl
    have hsite := hkeeps flow ts cells rfl
    cases flow with
    | dispatch pc =>
        exact hmove _ _ (hts.trans_grows fun k => savePc_cuts k ts pc)
          (hsite.trans (savePc_keeps ts pc))
    | exit => exact hmove _ _ hts hsite
    | raise => exact hmove _ _ hts hsite

/-- The thread goes on with a stack that is not shorter. -/
theorem goOn_steady (h : d.Linked) (hcreated : d.Created) (htop : top < d.freshThread)
    {ts : ThreadState} (hcut : ∀ k, Cuts k (d.threads top) ts) (hsite : SameSite (d.threads top) ts)
    (pc : ℕ) : (d.goOn top ts pc).All d.Steady :=
  setThread_steady h hcreated htop
    (Moves.of_grows fun k => (hcut k).trans (savePc_cuts k ts pc))
    (hsite.trans (savePc_keeps ts pc)).threadHandle

theorem length_writes (writes : List (ℕ × Value)) (s : List Value) :
    (writes.foldl (fun s w => s.set w.1 w.2) s).length = s.length := by
  induction writes generalizing s with
  | nil => rfl
  | cons w writes ih =>
      rw [List.foldl_cons, ih, List.length_set]

/-- **A closure** captures slots of the driven thread. -/
theorem execClosure_advances (h : d.Linked) (hcreated : d.Created) {below : List ThreadId}
    (hstack : d.threadStack = top :: below) {lf : LuaFrame} {dst : ℕ} {g : FunctionId}
    {captures : List ℕ} {pc : ℕ}
    (hguard : ∀ r ∈ captures, lf.base + r < (d.threads top).stack.length) :
    (execInstr d top lf (Instr.closure dst g captures pc)).All d.Advances := by
  have htop := hcreated top (hstack ▸ List.mem_cons_self ..)
  have hcaptures := captureSlots_captures h htop (captures.map (lf.base + ·)) (by
    intro slot hslot
    obtain ⟨r, hr, rfl⟩ := List.mem_map.1 hslot
    exact hguard r hr)
  simp only [execInstr]
  generalize (captures.map (lf.base + ·)).foldl (captureSlot top) d = d' at hcaptures ⊢
  have hfirst : d.Advances d' := by
    refine ⟨hcaptures.linked, ⟨fun uv t i hi => Or.inl (hcaptures.kept uv t i hi),
      fun uv t i hi => ?_, Nat.le_of_eq hcaptures.fresh.symm⟩, ?_⟩
    · rcases hcaptures.opened uv t i hi with hwas | rfl
      · exact Or.inl hwas
      · rw [hstack]
        exact Or.inr rfl
    · intro t ht
      rw [hcaptures.threadStack] at ht
      rw [hcaptures.fresh]
      exact hcreated t ht
  refine (goOn_steady hfirst.linked hfirst.created (by rwa [hcaptures.fresh]) (fun k => ?_)
    (setStack_keeps _ _) pc).mono fun d'' hd'' => hfirst.trans_steady hd''
  refine Cuts.of_length_le rfl (Nat.le_of_eq ?_)
  rw [ThreadState.stack_setStack, List.length_set]

/-- **An instruction** of the frame on top. -/
theorem execInstr_advances (h : d.Linked) (hcreated : d.Created) {below : List ThreadId}
    (hstack : d.threadStack = top :: below) {lf : LuaFrame}
    (hlua : (d.threads top).topLua = some lf) {instr : Instr}
    (hguard : InstrUpvalueGuard d top lf instr) :
    (execInstr d top lf instr).All d.Advances := by
  have htop := hcreated top (hstack ▸ List.mem_cons_self ..)
  have hlf : ∀ f, (d.threads top).topLua = some f → f = lf := fun f hf =>
    Option.some.inj (hf.symm.trans hlua)
  have hsteady : ∀ {out : DriveOutcome}, out.All d.Steady → out.All d.Advances :=
    fun hout => hout.mono fun d' hd' => hd'.advances
  cases instr with
  | registers size writes top' pc =>
      apply hsteady
      apply goOn_steady h hcreated htop
      · refine fun k => Cuts.of_length_le rfl ?_
        rw [length_writes, length_grow]
        exact Nat.le_max_left _ _
      · exact ⟨rfl, rfl⟩
  | getUpvalue dst uv pc =>
      simp only [execInstr]
      split
      · apply hsteady
        apply goOn_steady h hcreated htop
        · refine fun k => Cuts.of_length_le rfl (Nat.le_of_eq ?_)
          rw [ThreadState.stack_setStack, List.length_set]
        · exact setStack_keeps _ _
      · trivial
  | setUpvalue uv v pc =>
      simp only [execInstr]
      split
      · next d' hwrite =>
          obtain ⟨hfirst, -, hfresh⟩ := writeUpvalue_advances h hcreated hwrite
          exact (goOn_steady hfirst.linked hfirst.created (by rwa [hfresh])
            (fun k => Cuts.refl k _) (SameSite.refl _) pc).mono
              fun d'' hd'' => hfirst.trans_steady hd''
      · trivial
  | closure dst g captures pc => exact execClosure_advances h hcreated hstack hguard
  | varargPrep pc =>
      exact hsteady (goOn_steady h hcreated htop (fun k => varargPrep_cuts k _ lf)
        (varargPrep_keeps _ lf) pc)
  | setlist table count pc =>
      simp only [execInstr]
      split
      · next ts' hset =>
          obtain ⟨s, rfl, hlen⟩ := opSetlist_spec hset
          have hcuts : ∀ k, Cuts k (d.threads top) ((d.threads top).setStack s) :=
            fun k => Cuts.of_length_le rfl hlen
          exact hsteady (goOn_steady h hcreated htop hcuts (setStack_keeps _ s) pc)
      · trivial
  | close start pc =>
      simp only [execInstr]
      split
      · next r hclose =>
          obtain ⟨hmoves, -, -⟩ := closeUpvalues_moves hclose
          have htbc : ∀ k, Cuts k r.1 (closeTbcVars r.1 (lf.base + start)) := fun k =>
            Cuts.of_length_le rfl (Nat.le_refl _)
          have hclosed : Moves (d.threads top) d.cells
              ((closeTbcVars r.1 (lf.base + start)).savePc pc) r.2 :=
            hmoves.trans_grows fun k => (htbc k).trans (savePc_cuts k _ pc)
          refine ⟨h.move htop hclosed ?_, h.follows hclosed rfl (Nat.le_refl _), hcreated⟩
          rw [(savePc_keeps _ pc).threadHandle]
          obtain ⟨u, -, rfl⟩ := Option.map_eq_some_iff.1 hclose
          rfl
      · trivial
  | tbc val pc =>
      apply hsteady
      apply goOn_steady h hcreated htop
      · exact fun k => Cuts.of_length_le rfl (Nat.le_refl _)
      · exact ⟨rfl, rfl⟩
  | raise => exact ⟨h, Driver.Follows.of_cells rfl (Nat.le_refl _), hcreated⟩
  | call ip func nargs returns callee =>
      obtain ⟨heffects, hopen⟩ := hguard
      refine afterHandler_advances h hcreated htop (applied_affected h htop callee heffects)
        (opCall_moves _ _ _ _ _ _ fun f hf => ?_) (opCall_keeps _ _ _ _ _ _ _)
      rw [hlua]
      exact h.openIn (hopen f hf)
  | tailcall func nargs callee =>
      obtain ⟨heffects, hopen⟩ := hguard
      refine afterHandler_advances h hcreated htop (applied_affected h htop callee heffects)
        (opTailcall_moves _ _ _ _ (h.openIn_length top) fun f g hf hg => ?_)
        (opTailcall_keeps _ _ _ _ _)
      rw [hlf f hf]
      exact ⟨h.openIn (hopen g hg).1, (hopen g hg).2⟩
  | ret values count =>
      have hself : Affected top d d :=
        ⟨h, rfl, Nat.le_refl _, rfl, rfl, fun _ _ hstatus => hstatus⟩
      refine afterHandler_advances h hcreated htop hself (opReturn_moves _ _ _ fun f hf => ?_)
        (opReturn_keeps _ _ _ _)
      rw [hlf f hf]
      exact hguard
  | metamethod ip metaFn args payload callee crossing =>
      obtain ⟨heffects, hopen⟩ := hguard
      refine afterHandler_advances h hcreated htop (applied_affected h htop callee heffects)
        (invokeMetamethod_moves _ _ _ _ _ _ _ fun f caller hf hcaller => ?_)
        (invokeMetamethod_keeps _ _ _ _ _ _ _ _)
      rw [hlf caller hcaller]
      exact h.openIn (hopen f hf)

/-- **The first call** of a thread, on an empty call stack. -/
theorem startFrame_steady (h : d.Linked) (hcreated : d.Created) (htop : top < d.freshThread)
    {f : FunctionId} {rest : List Frame} {callee : Callee} (hopen : OpenBelow d.cells top 0)
    (hguard : EffectsGuard d top callee) : (startFrame d top f rest callee).All d.Steady := by
  refine applied_steady h hcreated htop hguard fun ts hcall => ?_
  obtain ⟨u, hfirst, rfl⟩ := Option.map_eq_some_iff.1 hcall
  have hpop : Cuts 0 (d.threads top) { d.threads top with frames := rest } :=
    Cuts.of_length_le rfl (Nat.le_refl _)
  have hpopSite : SameSite (d.threads top) { d.threads top with frames := rest } := ⟨rfl, rfl⟩
  have hcut : Cuts 0 (d.threads top) u := hpop.trans (callAt_cuts hfirst)
  have hsite : SameSite (d.threads top) u := hpopSite.trans (callAt_keeps hfirst)
  have hstatus : ∀ status, Moves (d.threads top) d.cells { u with status := status } d.cells :=
    fun status => Moves.of_cuts ⟨hcut.upvalues, hcut.length⟩ (h.openIn hopen)
  split
  · exact ⟨hstatus _, hsite.yieldBottom, hsite.threadHandle⟩
  · exact ⟨hstatus _, hsite.yieldBottom, hsite.threadHandle⟩

/-! ### An iteration -/

/-- The values that go to the thread below the driven one land above its captured slots. -/
def PropagateGuard (d : Driver) : List ThreadId → Prop
  | [] => True
  | resumer :: _ =>
      match (d.threads resumer).frames with
      | Frame.waitThread wt :: _ => OpenBelow d.cells resumer wt.floor
      | _ => True

/-- The top frame cuts no captured slot off. -/
def FrameUpvalueGuard (d : Driver) (top : ThreadId) (c : Choice) : Prop :=
  match (d.threads top).frames with
  | Frame.lua lf :: _ => InstrUpvalueGuard d top lf c.instr
  | Frame.sequence seq cs e :: _ =>
      PollUpvalueGuard d top cs
        (pollSequence seq e ((d.threads top).stack.drop cs.bottom) c.poll) c.callee
  | Frame.start _ :: _ => OpenBelow d.cells top 0 ∧ EffectsGuard d top c.callee
  | _ => True

def DriveUpvalueGuard (d : Driver) (top : ThreadId) (c : Choice) : Prop :=
  match (d.threads top).pendingAction with
  | some p => ActionUpvalueGuard d top p c.callee
  | none => FrameUpvalueGuard d top c

/-- The choices of an iteration that cut no captured slot off. -/
def UpvalueGuard (d : Driver) (c : Choice) : Prop :=
  match d.threadStack with
  | [] => True
  | top :: below =>
      match (d.threads top).status with
      | ThreadStatus.result _ =>
          below = [] ∨ OpenBelow d.cells top 0 ∧ PropagateGuard d below
      | ThreadStatus.suspended =>
          if below = [] then (d.threads top).yieldBottom = none → DriveUpvalueGuard d top c
          else PropagateGuard d below
      | ThreadStatus.stopped => True
      | ThreadStatus.normal => DriveUpvalueGuard d top c

theorem pumpFrame_advances (h : d.Linked) (hcreated : d.Created) {below : List ThreadId}
    (hstack : d.threadStack = top :: below) {c : Choice} (hguard : FrameUpvalueGuard d top c) :
    (pumpFrame d top below c).All d.Advances := by
  have htop := hcreated top (hstack ▸ List.mem_cons_self ..)
  have hsteady : ∀ {out : DriveOutcome}, out.All d.Steady → out.All d.Advances :=
    fun hout => hout.mono fun d' hd' => hd'.advances
  unfold FrameUpvalueGuard at hguard
  unfold pumpFrame
  simp only
  cases hframes : (d.threads top).frames with
  | nil => trivial
  | cons fr rest =>
      rw [hframes] at hguard
      cases fr with
      | lua lf =>
          exact execInstr_advances h hcreated hstack (ThreadState.topLua_cons hframes) hguard
      | sequence seq cs e =>
          apply hsteady
          apply pumpSequence_steady h hcreated htop
          · exact Cuts.of_length_le rfl (Nat.le_refl _)
          · exact ⟨rfl, rfl⟩
          · rfl
          · exact hguard
      | start f => exact hsteady (startFrame_steady h hcreated htop hguard.1 hguard.2)
      | waitThread wt => trivial
      | error err => exact unwindError_advances h hcreated hstack err rest

/-- The action is taken before it is applied. -/
theorem actionUpvalueGuard_clear {p : PendingAction} {callee : Callee}
    (hguard : ActionUpvalueGuard d top p callee) :
    ActionUpvalueGuard (d.setThread top { d.threads top with pendingAction := none }) top p
      callee := by
  generalize hts : { d.threads top with pendingAction := none } = ts
  have hstatus : ts.status = (d.threads top).status := by rw [← hts]
  have hframes : ts.frames = (d.threads top).frames := by rw [← hts]
  have hyield : ts.yieldBottom = (d.threads top).yieldBottom := by rw [← hts]
  have hthread : ∀ t, ((d.setThread top ts).threads t).status = (d.threads t).status ∧
      ((d.setThread top ts).threads t).frames = (d.threads t).frames ∧
      ((d.setThread top ts).threads t).yieldBottom = (d.threads t).yieldBottom := by
    intro t
    by_cases heq : t = top
    · subst heq
      rw [d.setThread_self]
      exact ⟨hstatus, hframes, hyield⟩
    · rw [d.setThread_of_ne heq]
      exact ⟨rfl, rfl, rfl⟩
  unfold ActionUpvalueGuard EffectsGuard ResumeGuard at hguard ⊢
  cases haction : p.action with
  | call f andThen =>
      rw [haction] at hguard
      refine ⟨hguard.1, ?_⟩
      cases htarget : callee.target with
      | lua closure => trivial
      | native f =>
          have heffects := hguard.2
          rw [htarget] at heffects
          intro co hmem hne hnormal
          rw [(hthread co).1] at hnormal
          exact heffects co hmem hne hnormal
  | resume target andThen =>
      rw [haction] at hguard
      obtain ⟨hstatus', hframes', hyield'⟩ := hthread target
      simp only [hstatus', hframes', hyield']
      exact hguard
  | ret => trivial
  | sequence seq => trivial
  | yield andThen => trivial

theorem drive_advances (h : d.Linked) (hcreated : d.Created) {below : List ThreadId}
    (hstack : d.threadStack = top :: below) {c : Choice} (hguard : DriveUpvalueGuard d top c) :
    (drive d top below c).All d.Advances := by
  have htop := hcreated top (hstack ▸ List.mem_cons_self ..)
  unfold DriveUpvalueGuard at hguard
  unfold drive
  simp only
  cases hpending : (d.threads top).pendingAction with
  | none =>
      rw [hpending] at hguard
      exact pumpFrame_advances h hcreated hstack hguard
  | some p =>
      rw [hpending] at hguard
      have hset : d.Steady (d.setThread top { d.threads top with pendingAction := none }) := by
        apply setThread_steady h hcreated htop
        · exact Moves.of_grows fun k => Cuts.of_length_le rfl (Nat.le_refl _)
        · rfl
      refine (applyPendingAction_steady hset.linked hset.created htop ?_).mono
        fun d' hd' => (hset.trans hd').advances
      exact actionUpvalueGuard_clear hguard

/-- **An iteration** of the loop. -/
theorem iterate_advances (h : d.Linked) (hcreated : d.Created) {c : Choice}
    (hguard : UpvalueGuard d c) : (iterate d c).All d.Advances := by
  have hsame : ∀ {d' : Driver}, d.Steady d' → d.Advances d' := fun hd' => hd'.advances
  have hself : d.Advances d := hsame ⟨h, rfl, Nat.le_refl _, hcreated⟩
  unfold UpvalueGuard at hguard
  unfold iterate
  cases hstack : d.threadStack with
  | nil => trivial
  | cons top below =>
      rw [hstack] at hguard
      simp only at hguard
      have hpropagate : below ≠ [] → PropagateGuard d below → ∀ bottom innerYielded,
          (innerYielded = false → OpenBelow d.cells top 0) →
          (propagateInnerToResumer d top below bottom innerYielded).All d.Advances := by
        intro _ hbelow bottom innerYielded hinner
        refine (propagate_steady h hcreated hstack hinner ?_).mono fun d' hd' => hd'.advances
        intro resumer below' wt rest hbelow' hframes
        subst hbelow'
        simp only [PropagateGuard, hframes] at hbelow
        exact hbelow
      cases below with
      | nil =>
          have hmode : ∀ mode, d.Advances { d with threadStack := [top], mode := mode } := by
            intro mode
            rw [← hstack]
            exact hsame ⟨h.withStack d.threadStack mode, rfl, Nat.le_refl _, hcreated⟩
          simp only
          cases hstatus : (d.threads top).status with
          | result bottom => exact hmode _
          | stopped => exact hself
          | suspended =>
              rw [hstatus] at hguard
              simp only [if_true] at hguard ⊢
              split
              · split
                · exact hmode _
                · trivial
              · next hyield => exact drive_advances h hcreated hstack (hguard hyield)
          | normal =>
              rw [hstatus] at hguard
              exact drive_advances h hcreated hstack hguard
      | cons resumer below' =>
          simp only
          cases hstatus : (d.threads top).status with
          | result bottom =>
              rw [hstatus] at hguard
              rcases hguard with hnil | ⟨hopen, hbelow⟩
              · exact absurd hnil (List.cons_ne_nil _ _)
              · exact hpropagate (List.cons_ne_nil _ _) hbelow bottom false fun _ => hopen
          | stopped => exact hself
          | suspended =>
              rw [hstatus] at hguard
              exact hpropagate (List.cons_ne_nil _ _) hguard _ true fun heq => absurd heq (by simp)
          | normal =>
              rw [hstatus] at hguard
              exact drive_advances h hcreated hstack hguard

end Callbacks

end Tcvm
