/-
# The invariant of the executor

The driven thread of an executor is on top of a chain of threads that wait for the one above them.
Every iteration keeps the chain, as long as no thread without frames is run, no native callback
returns at once to no frame, and no error of the main thread reaches the host.

## Main definitions

* `Waiting`, `Idle` — a thread below the driven one, and a thread that is not on the chain;
* `Chain` — the threads of an executor;
* `IterationGuard` — the choices of an iteration that keep the invariant;
* `DriveOutcome.Sound` — what an iteration leaves.

## Main results

* `Chain.applyEffects` — creating and closing coroutines keeps the chain;
* `scheduleThreadResume_sound`, `propagate_sound`, `pumpSequence_sound`, `unwindError_sound` — the
  arms of the loop;
* **`iterate_sound`** — an iteration keeps the chain, and reaches no `unreachable!`.
-/

import Tcvm.ExecutorShape
import Tcvm.ExecutorMachine

namespace Tcvm

open StackWindow

/-! ### Threads by their place -/

/-- A thread below the driven one: it waits for the thread above it. -/
structure Waiting (ts : ThreadState) : Prop where
  status : ts.status = ThreadStatus.normal
  pending : ts.pendingAction = none
  frames : ∃ wt rest, ts.frames = Frame.waitThread wt :: rest ∧ PlainFrames rest

/-- A thread that is not on the chain: if it can be resumed, it has not run yet, or its frames are
plain. -/
structure Idle (ts : ThreadState) : Prop where
  pending : ts.pendingAction = none
  frames : ts.status = ThreadStatus.suspended →
    (∃ f, ts.frames = [Frame.start f]) ∨ PlainFrames ts.frames

/-- Only a thread that runs has a pending action. -/
theorem Active.pending_none {ts : ThreadState} (h : Active ts)
    (hstatus : ts.status ≠ ThreadStatus.normal) : ts.pendingAction = none := by
  unfold Active at h
  generalize ts.frames = frames, ts.status = status, ts.pendingAction = pending,
    ts.yieldBottom = y at *
  cases h with
  | running => exact absurd rfl hstatus
  | _ => rfl

theorem Active.idle {ts : ThreadState} (h : Active ts) (hpending : ts.pendingAction = none) :
    Idle ts := by
  refine ⟨hpending, fun hstatus => ?_⟩
  unfold Active at h
  generalize ts.frames = frames, ts.status = status, ts.pendingAction = pending,
    ts.yieldBottom = y at *
  cases h with
  | seeded => exact Or.inl ⟨_, rfl⟩
  | parked hplain => exact Or.inr hplain
  | _ => exact absurd hstatus (by simp)

theorem idle_new (t : ThreadId) : Idle (ThreadState.new t) :=
  ⟨rfl, fun h => absurd h (by simp [ThreadState.new])⟩

theorem idle_created (t : ThreadId) (f : FunctionId) : Idle (ThreadState.created t f) :=
  ⟨rfl, fun _ => Or.inl ⟨f, rfl⟩⟩

theorem Idle.close {ts : ThreadState} (h : Idle ts) : Idle ts.close := by
  unfold ThreadState.close
  split
  · exact h
  · exact ⟨rfl, fun h => absurd h (by simp)⟩

theorem Waiting.close_eq {ts : ThreadState} (h : Waiting ts) : ts.close = ts := by
  unfold ThreadState.close
  rw [h.status]

theorem close_new (t : ThreadId) : (ThreadState.new t).close = ThreadState.new t := rfl

/-! ### The chain -/

/-- The threads of an executor: `top` is driven, and the threads below wait. -/
structure Chain (d : Driver) (top : ThreadId) (below : List ThreadId) : Prop where
  stack : d.threadStack = top :: below
  nodup : (top :: below).Nodup
  main : (top :: below).getLast? = some mainThread
  created : ∀ t ∈ top :: below, t < d.freshThread
  fresh : ∀ t, d.freshThread ≤ t → d.threads t = ThreadState.new t
  waiting : ∀ t ∈ below, Waiting (d.threads t)
  idle : ∀ t, t ∉ top :: below → Idle (d.threads t)

namespace Chain

variable {d : Driver} {top : ThreadId} {below : List ThreadId}

theorem top_notMem (h : Chain d top below) : top ∉ below := (List.nodup_cons.1 h.nodup).1

/-- The driven thread may change. -/
theorem setTop (h : Chain d top below) (ts : ThreadState) :
    Chain (d.setThread top ts) top below := by
  have hother : ∀ t, t ≠ top → (d.setThread top ts).threads t = d.threads t :=
    fun t ht => d.setThread_of_ne ht ts
  refine ⟨h.stack, h.nodup, h.main, h.created, fun t ht => ?_, fun t ht => ?_, fun t ht => ?_⟩
  · have hlt : top < d.freshThread := h.created top (List.mem_cons_self ..)
    rw [hother t (Nat.ne_of_gt (Nat.lt_of_lt_of_le hlt ht))]
    exact h.fresh t ht
  · rw [hother t fun heq => h.top_notMem (heq ▸ ht)]
    exact h.waiting t ht
  · rw [hother t fun heq => ht (heq ▸ List.mem_cons_self ..)]
    exact h.idle t ht

/-- The captured variables may change. -/
theorem withCells (h : Chain d top below) (cells : Cells) (n : UpvalueId) :
    Chain { d with cells := cells, freshUpvalue := n } top below :=
  ⟨h.stack, h.nodup, h.main, h.created, h.fresh, h.waiting, h.idle⟩

theorem withMode (h : Chain d top below) (mode : ExecutorMode) :
    Chain { d with threadStack := top :: below, mode := mode } top below :=
  ⟨rfl, h.nodup, h.main, h.created, h.fresh, h.waiting, h.idle⟩

/-- At the bottom of the chain is the main thread. -/
theorem top_eq_main (h : Chain d top []) : top = mainThread := Option.some.inj h.main

theorem store (h : Chain d top below) (ts : ThreadState) (cells : Cells) :
    Chain (d.store top ts cells) top below := (h.setTop ts).withCells cells d.freshUpvalue

/-- A thread that is not on the chain may change. -/
theorem setIdle (h : Chain d top below) {t : ThreadId} {ts : ThreadState}
    (ht : t ∉ top :: below) (hidle : Idle ts)
    (hfresh : d.freshThread ≤ t → ts = ThreadState.new t) :
    Chain (d.setThread t ts) top below := by
  refine ⟨h.stack, h.nodup, h.main, h.created, fun t' ht' => ?_, fun t' ht' => ?_, fun t' ht' => ?_⟩
  · by_cases heq : t' = t
    · subst heq
      rw [← hfresh ht']
      exact d.setThread_self t' ts
    · exact (d.setThread_of_ne heq ts).trans (h.fresh t' ht')
  · have heq : t' ≠ t := by
      rintro rfl
      exact ht (List.mem_cons_of_mem _ ht')
    rw [d.setThread_of_ne heq]
    exact h.waiting t' ht'
  · by_cases heq : t' = t
    · subst heq
      rwa [d.setThread_self]
    · rw [d.setThread_of_ne heq]
      exact h.idle t' ht'

/-- Creating or closing a coroutine keeps the chain and the driven thread. -/
theorem applyEffect (h : Chain d top below) (e : ThreadEffect) :
    Chain (e.apply top d) top below ∧ (e.apply top d).threads top = d.threads top ∧
      (e.apply top d).mode = d.mode := by
  cases e with
  | create f =>
      have hnot : d.freshThread ∉ top :: below := fun hmem =>
        absurd (h.created _ hmem) (Nat.lt_irrefl _)
      have htop : top ≠ d.freshThread := fun heq => hnot (heq ▸ List.mem_cons_self ..)
      -- the thread is created before the count of threads goes up
      refine ⟨⟨h.stack, h.nodup, h.main, fun t ht => Nat.lt_succ_of_lt (h.created t ht),
        fun t ht => ?_, fun t ht => ?_, fun t ht => ?_⟩, d.setThread_of_ne htop _, rfl⟩
      · have hne : t ≠ d.freshThread := Nat.ne_of_gt ht
        exact (d.setThread_of_ne hne _).trans (h.fresh t (Nat.le_of_succ_le ht))
      · have hne : t ≠ d.freshThread := by
          rintro rfl
          exact hnot (List.mem_cons_of_mem _ ht)
        show Waiting ((d.setThread d.freshThread _).threads t)
        rw [d.setThread_of_ne hne]
        exact h.waiting t ht
      · show Idle ((d.setThread d.freshThread (ThreadState.created d.freshThread f)).threads t)
        by_cases heq : t = d.freshThread
        · rw [heq, d.setThread_self]
          exact idle_created _ f
        · rw [d.setThread_of_ne heq]
          exact h.idle t ht
  | close co =>
      by_cases htop : co = top
      · simp only [ThreadEffect.apply, if_pos htop]
        exact ⟨h, trivial, trivial⟩
      · simp only [ThreadEffect.apply, if_neg htop]
        refine ⟨?_, d.setThread_of_ne (Ne.symm htop) _, rfl⟩
        by_cases hbelow : co ∈ below
        · -- a thread that waits is not closed
          have hself : d.setThread co (d.threads co).close = d := by
            rw [(h.waiting co hbelow).close_eq]
            unfold Driver.setThread
            rw [Function.update_eq_self]
          rwa [hself]
        · have hmem : co ∉ top :: below := by
            intro hmem
            rcases List.mem_cons.1 hmem with heq | hmem
            · exact htop heq
            · exact hbelow hmem
          refine h.setIdle hmem (h.idle co hmem).close fun hle => ?_
          rw [h.fresh co hle, close_new]

theorem applyEffects (h : Chain d top below) (effects : List ThreadEffect) :
    Chain (Tcvm.applyEffects top d effects) top below ∧
      (Tcvm.applyEffects top d effects).threads top = d.threads top ∧
      (Tcvm.applyEffects top d effects).mode = d.mode := by
  induction effects generalizing d with
  | nil => exact ⟨h, rfl, rfl⟩
  | cons e effects ih =>
      obtain ⟨hchain, htop, hmode⟩ := h.applyEffect e
      obtain ⟨hchain', htop', hmode'⟩ := ih hchain
      exact ⟨hchain', htop'.trans htop, hmode'.trans hmode⟩

theorem applied (h : Chain d top below) (c : Callee) :
    Chain (c.applied top d) top below ∧ (c.applied top d).mode = d.mode := by
  unfold Callee.applied
  cases c.target with
  | lua closure => exact ⟨h, rfl⟩
  | native g =>
      obtain ⟨hchain, -, hmode⟩ := h.applyEffects c.effects
      exact ⟨hchain, hmode⟩

/-- The driven thread waits for one that is not on the chain. -/
theorem push (h : Chain d top below) (htop : Waiting (d.threads top)) {target : ThreadId}
    (hnot : target ∉ top :: below) (hlt : target < d.freshThread) (ts : ThreadState) :
    Chain { d.setThread target ts with threadStack := target :: d.threadStack } target
      (top :: below) := by
  have hother : ∀ t ∈ top :: below, (d.setThread target ts).threads t = d.threads t := by
    intro t ht
    refine d.setThread_of_ne ?_ ts
    rintro rfl
    exact hnot ht
  refine ⟨congrArg (target :: ·) h.stack, List.nodup_cons.2 ⟨hnot, h.nodup⟩, ?_, ?_, ?_, ?_, ?_⟩
  · rw [List.getLast?_cons_cons]
    exact h.main
  · intro t ht
    rcases List.mem_cons.1 ht with rfl | ht
    · exact hlt
    · exact h.created t ht
  · intro t ht
    exact (d.setThread_of_ne (Nat.ne_of_gt (Nat.lt_of_lt_of_le hlt ht)) ts).trans (h.fresh t ht)
  · intro t ht
    show Waiting ((d.setThread target ts).threads t)
    rw [hother t ht]
    rcases List.mem_cons.1 ht with rfl | ht
    · exact htop
    · exact h.waiting t ht
  · intro t ht
    have hne : t ≠ target := by
      rintro rfl
      exact ht (List.mem_cons_self ..)
    show Idle ((d.setThread target ts).threads t)
    rw [d.setThread_of_ne hne]
    exact h.idle t fun hmem => ht (List.mem_cons_of_mem _ hmem)

/-- The driven thread leaves the chain. -/
theorem pop {resumer : ThreadId} (h : Chain d top (resumer :: below))
    (htop : Idle (d.threads top)) :
    Chain { d with threadStack := resumer :: below } resumer below := by
  refine ⟨rfl, (List.nodup_cons.1 h.nodup).2, ?_, fun t ht => h.created t ?_, h.fresh,
    fun t ht => h.waiting t (List.mem_cons_of_mem _ ht), fun t ht => ?_⟩
  · have hmain := h.main
    rwa [List.getLast?_cons_cons] at hmain
  · exact List.mem_cons_of_mem _ ht
  · by_cases heq : t = top
    · rwa [heq]
    · refine h.idle t fun hmem => ?_
      rcases List.mem_cons.1 hmem with rfl | hmem
      · exact heq rfl
      · exact ht hmem

end Chain

/-! ### Outcomes -/

/-- The executor is in its loop. -/
def Driving (d : Driver) : Prop :=
  d.mode = ExecutorMode.normal ∧ ∃ top below, Chain d top below ∧ Active (d.threads top)

/-- Where the mode is not normal, the main thread is the only one on the chain. -/
structure Settled (d : Driver) : Prop where
  yielded : d.mode = ExecutorMode.yielded →
    d.threadStack = [mainThread] ∧ (d.threads mainThread).status = ThreadStatus.suspended ∧
      (d.threads mainThread).yieldBottom ≠ none
  result : d.mode = ExecutorMode.result → d.threadStack = [mainThread]

theorem settled_normal {d : Driver} (h : d.mode = ExecutorMode.normal) : Settled d :=
  ⟨fun hy => absurd (h.symm.trans hy) (by simp), fun hr => absurd (h.symm.trans hr) (by simp)⟩

/-- `step` has returned.  A resume that failed leaves the driven thread waiting. -/
def Resting (d : Driver) : Prop :=
  Settled d ∧ ∃ top below, Chain d top below ∧
    (Active (d.threads top) ∧ (d.threads top).pendingAction = none ∨ Waiting (d.threads top))

def DriveOutcome.Sound : DriveOutcome → Prop
  | next d => Driving d
  | finish _ d => Resting d
  | error _ d => Resting d
  | unreachable => False
  | panic => True

section Arms

variable {d : Driver} {top : ThreadId} {below : List ThreadId}

theorem sound_next (h : Chain d top below) (hmode : d.mode = ExecutorMode.normal)
    {ts : ThreadState} (hts : Active ts) :
    (DriveOutcome.next (d.setThread top ts)).Sound := by
  refine ⟨hmode, top, below, h.setTop ts, ?_⟩
  rwa [d.setThread_self]

theorem sound_store (h : Chain d top below) (hmode : d.mode = ExecutorMode.normal)
    {ts : ThreadState} (cells : Cells) (hts : Active ts) :
    (DriveOutcome.next (d.store top ts cells)).Sound := by
  refine ⟨hmode, top, below, h.store ts cells, ?_⟩
  show Active ((d.setThread top ts).threads top)
  rwa [d.setThread_self]

theorem sound_continueWith (h : Chain d top below) (hmode : d.mode = ExecutorMode.normal)
    {r : Option ThreadState} (hr : ∀ ts, r = some ts → Active ts) :
    (d.continueWith top r).Sound := by
  cases r with
  | none => trivial
  | some ts => exact sound_next h hmode (hr ts rfl)

/-- A thread that was suspended without a frame. -/
def Frameless (ts : ThreadState) : Prop :=
  ts.status = ThreadStatus.suspended ∧ ts.frames = []

/-- A thread that is resumed runs, if it has a frame. -/
theorem resumeWith_active {ts ts' : ThreadState} {args : List Value} (hidle : Idle ts)
    (h : ts.resumeWith args = some (some ts')) (hframes : ¬ Frameless ts) : Active ts' := by
  have hstatus := resumeWith_suspended h
  have hne : ts.frames ≠ [] := fun hnil => hframes ⟨hstatus, hnil⟩
  unfold ThreadState.resumeWith at h
  simp only [hstatus] at h
  split at h
  · next f rest heq =>
      simp only [Option.some.injEq] at h
      subst h
      have hrest : rest = [] := by
        rcases hidle.frames hstatus with ⟨g, hg⟩ | hplain
        · exact (List.cons.inj (heq.symm.trans hg)).2
        · rw [heq] at hplain
          exact absurd (plainFrames_cons.1 hplain).1 id
      show ActiveAt ts.frames ThreadStatus.normal ts.pendingAction ts.yieldBottom
      rw [heq, hrest, hidle.pending]
      exact ActiveAt.seeded (Or.inr rfl)
  · next hstart =>
      obtain ⟨y, -, hland⟩ := Option.map_eq_some_iff.1 h
      obtain ⟨hpos, hnormal, hpending⟩ := landResumed_shape hland
      have hplain : PlainFrames ts.frames := by
        rcases hidle.frames hstatus with ⟨g, hg⟩ | hplain
        · exact absurd hg (hstart g [])
        · exact hplain
      refine active_of_plain (hpos.plain hplain) ?_ hnormal (hpending.trans hidle.pending)
      exact fun hnil => hne (hpos.eq_nil.1 hnil)

/-- **Switching to a coroutine**: it is driven, or the driven thread is left waiting. -/
theorem scheduleThreadResume_sound (h : Chain d top below)
    (hmode : d.mode = ExecutorMode.normal) (hplain : PlainFrames (d.threads top).frames)
    (hpending : (d.threads top).pendingAction = none) {target : ThreadId} (argsBottom : ℕ)
    (wt : CallSite) (hguard : target ≠ top → ¬ Frameless (d.threads target)) :
    (scheduleThreadResume d top target argsBottom wt).Sound := by
  unfold scheduleThreadResume
  simp only
  split
  · next hlen =>
      have hwaiting : Waiting ((d.threads top).waiting argsBottom wt) :=
        ⟨rfl, hpending, wt, _, rfl, hplain⟩
      -- the driven thread waits already
      generalize hd' : d.setThread top ((d.threads top).waiting argsBottom wt) = d'
      have hchain : Chain d' top below := hd' ▸ h.setTop _
      have hmode' : d'.mode = ExecutorMode.normal := by
        rw [← hd']
        exact hmode
      have htop : Waiting (d'.threads top) := by
        rw [← hd', d.setThread_self]
        exact hwaiting
      split
      · next ts hresume =>
          have hsusp := resumeWith_suspended hresume
          have hne : target ≠ top := by
            rintro rfl
            exact absurd (htop.status.symm.trans hsusp) (by simp)
          have hnot : target ∉ top :: below := by
            intro hmem
            rcases List.mem_cons.1 hmem with heq | hmem
            · exact hne heq
            · exact absurd ((hchain.waiting target hmem).status.symm.trans hsusp) (by simp)
          have hlt : target < d'.freshThread := by
            by_contra hge
            rw [hchain.fresh target (Nat.le_of_not_lt hge)] at hsusp
            exact absurd hsusp (by simp [ThreadState.new])
          have hsame : d'.threads target = d.threads target := by
            rw [← hd', d.setThread_of_ne hne]
          have hactive : Active ts := by
            refine resumeWith_active (hchain.idle target hnot) hresume ?_
            rw [hsame]
            exact hguard hne
          refine ⟨hmode', target, top :: below, hchain.push htop hnot hlt ts, ?_⟩
          show Active ((d'.setThread target ts).threads target)
          rwa [d'.setThread_self]
      · trivial
      · exact ⟨settled_normal hmode', top, below, hchain, Or.inr htop⟩
  · trivial

/-- **A coroutine comes back**: the thread below is driven. -/
theorem propagate_sound {resumer : ThreadId} (h : Chain d top (resumer :: below))
    (hmode : d.mode = ExecutorMode.normal) (htop : Idle (d.threads top)) (bottom : ℕ)
    (innerYielded : Bool)
    (hresult : innerYielded = false → (d.threads top).status ≠ ThreadStatus.suspended) :
    (propagateInnerToResumer d top (resumer :: below) bottom innerYielded).Sound := by
  unfold propagateInnerToResumer
  simp only
  split
  · next hlen =>
      -- the thread that leaves the chain
      obtain ⟨d', hd', hchain, hmode', hidle⟩ : ∃ d',
          (if innerYielded = true then d else d.setThread top ((d.threads top).setStack [])) = d' ∧
            Chain d' top (resumer :: below) ∧ d'.mode = ExecutorMode.normal ∧
            Idle (d'.threads top) := by
        cases innerYielded with
        | true => exact ⟨d, rfl, h, hmode, htop⟩
        | false =>
            refine ⟨_, rfl, h.setTop _, hmode, ?_⟩
            simp only [Bool.false_eq_true, if_false, Driver.setThread_self]
            exact ⟨htop.pending, fun hs => absurd hs (hresult rfl)⟩
      rw [hd']
      have hpop := hchain.pop hidle
      obtain ⟨hstatus, hpending, wt, rest, hframes, hplain⟩ :=
        hchain.waiting resumer (List.mem_cons_self ..)
      simp only [hframes]
      refine sound_continueWith hpop hmode' fun ts hland => ?_
      exact landPropagated_active hland hplain hstatus hpending
  · trivial

/-! ### Pending actions -/

/-- A pending action neither runs a thread without a frame, nor calls a native callback that returns
at once to no frame. -/
def ActionGuard (d : Driver) (ts : ThreadState) (p : PendingAction) (callee : Callee) : Prop :=
  match p.action with
  | CallbackAction.call _ none =>
      ts.frames = [] → ¬ ReturnsAtOnce callee.target (ts.stack.drop p.callSite.bottom)
  | CallbackAction.resume target _ => ¬ Frameless (d.threads target)
  | _ => True

theorem pushThen_fields (ts : ThreadState) (andThen : Option Sequence) (cs : CallSite) :
    (pushThen ts andThen cs).stack = ts.stack ∧ (pushThen ts andThen cs).status = ts.status ∧
      (pushThen ts andThen cs).pendingAction = ts.pendingAction ∧
      (andThen ≠ none → (pushThen ts andThen cs).frames ≠ []) := by
  cases andThen with
  | none => exact ⟨rfl, rfl, rfl, fun h => absurd rfl h⟩
  | some seq => exact ⟨rfl, rfl, rfl, fun _ => List.cons_ne_nil _ _⟩

theorem pushThen_plain {ts : ThreadState} (h : PlainFrames ts.frames) (andThen : Option Sequence)
    (cs : CallSite) : PlainFrames (pushThen ts andThen cs).frames := by
  cases andThen with
  | none => exact h
  | some seq => exact plainFrames_cons.2 ⟨trivial, h⟩

/-- A function is inserted and called. -/
theorem callAt_shape {ts ts' : ThreadState} {slot returns : ℕ} {f : FunctionId}
    {target : CallTarget} (h : callAt ts slot f target returns = some ts')
    (hplain : PlainFrames ts.frames) (hpending : ts.pendingAction = none) :
    ts'.status = ts.status ∧
      (Active { ts' with status := ThreadStatus.normal } ∨
        (ts'.frames = [] ∧ ts'.pendingAction = none ∧ ts.frames = [] ∧
          ReturnsAtOnce target (ts.stack.drop slot))) := by
  unfold callAt at h
  obtain ⟨u, hu, hcall⟩ := Option.bind_eq_some_iff.1 h
  unfold insertFunction at hu
  split at hu
  · next hslot =>
      cases hu
      have htake : (ts.stack.take slot).length = slot := by
        rw [List.length_take, Nat.min_eq_left hslot]
      have hlen : slot + 1 ≤
          (ts.stack.take slot ++ Value.function f :: ts.stack.drop slot).length := by
        rw [List.length_append, htake, List.length_cons]
        omega
      have hdrop : (ts.stack.take slot ++ Value.function f :: ts.stack.drop slot).drop (slot + 1) =
          ts.stack.drop slot := by
        rw [List.drop_append, htake, List.drop_of_length_le (by omega), Nat.add_sub_cancel_left]
        rfl
      have hshape := scheduleCallAt_shape hcall hplain hpending hlen
      rwa [ThreadState.stack_setStack, hdrop] at hshape
  · exact absurd hu (by simp)

/-- A thread that runs calls a function, unless it is a native callback that returns at once to no
frame. -/
theorem callAt_active {ts ts' : ThreadState} {slot returns : ℕ} {f : FunctionId}
    {target : CallTarget} (h : callAt ts slot f target returns = some ts')
    (hplain : PlainFrames ts.frames) (hstatus : ts.status = ThreadStatus.normal)
    (hpending : ts.pendingAction = none)
    (hguard : ts.frames = [] → ¬ ReturnsAtOnce target (ts.stack.drop slot)) : Active ts' := by
  obtain ⟨hstatus', hactive | hnone⟩ := callAt_shape h hplain hpending
  · exact hactive.of_normal (hstatus'.trans hstatus)
  · obtain ⟨-, -, hnil, hreturns⟩ := hnone
    exact absurd hreturns (hguard hnil)

/-- **A pending action** is applied to a thread that runs. -/
theorem applyPendingAction_sound (h : Chain d top below) (hmode : d.mode = ExecutorMode.normal)
    (hplain : PlainFrames (d.threads top).frames)
    (hstatus : (d.threads top).status = ThreadStatus.normal)
    (hpending : (d.threads top).pendingAction = none) {p : PendingAction} {callee : Callee}
    (hret : p.action ≠ CallbackAction.ret) (hguard : ActionGuard d (d.threads top) p callee) :
    (applyPendingAction d top p callee).Sound := by
  unfold applyPendingAction
  unfold ActionGuard at hguard
  simp only
  cases haction : p.action with
  | ret => exact absurd haction hret
  | sequence seq =>
      refine sound_next h hmode (active_of_plain ?_ (List.cons_ne_nil _ _) hstatus hpending)
      exact plainFrames_cons.2 ⟨trivial, hplain⟩
  | call f andThen =>
      obtain ⟨hchain, hmode'⟩ := h.applied callee
      obtain ⟨hstack, hstatus', hpending', hne⟩ :=
        pushThen_fields (d.threads top) andThen p.callSite
      refine sound_continueWith hchain (hmode'.trans hmode) fun ts hcall => ?_
      refine callAt_active hcall (pushThen_plain hplain _ _) (hstatus'.trans hstatus)
        (hpending'.trans hpending) fun hnil => ?_
      cases andThen with
      | none =>
          rw [haction] at hguard
          exact hguard hnil
      | some seq => exact absurd hnil (hne (by simp))
  | yield andThen =>
      obtain ⟨-, -, hpending', -⟩ := pushThen_fields (d.threads top) andThen p.callSite
      refine sound_next h hmode ?_
      show ActiveAt _ ThreadStatus.suspended (pushThen _ _ _).pendingAction (some p.callSite)
      rw [hpending', hpending]
      exact ActiveAt.parked (pushThen_plain hplain _ _)
  | resume target andThen =>
      obtain ⟨-, -, hpending', -⟩ := pushThen_fields (d.threads top) andThen p.callSite
      rw [haction] at hguard
      refine scheduleThreadResume_sound (h.setTop _) hmode ?_ ?_ _ _ fun hne => ?_
      · rw [d.setThread_self]
        exact pushThen_plain hplain _ _
      · rw [d.setThread_self, hpending', hpending]
      · rw [d.setThread_of_ne hne]
        exact hguard

/-! ### Sequences -/

/-- A poll neither runs a thread without a frame, nor calls a native callback that returns at once
to no frame. -/
def PollGuard (d : Driver) (ts : ThreadState) (cs : CallSite) (out : PollOutcome)
    (callee : Callee) : Prop :=
  match out with
  | PollOutcome.ok (SequencePoll.resume target _) _ _ => ¬ Frameless (d.threads target)
  | PollOutcome.ok (SequencePoll.tailResume target) _ _ => ¬ Frameless (d.threads target)
  | PollOutcome.ok (SequencePoll.tailCall f) window _ =>
      ts.frames = [] →
        ∀ ts', compactArgs (ts.setStack (ts.stack.take cs.bottom ++ window)) cs f = some ts' →
          ¬ ReturnsAtOnce callee.target (ts'.stack.drop (cs.funcIdx + 1))
  | _ => True

theorem compactArgs_fields {ts ts' : ThreadState} {cs : CallSite} {f : FunctionId}
    (h : compactArgs ts cs f = some ts') : ts'.frames = ts.frames ∧ ts'.status = ts.status ∧
      ts'.pendingAction = ts.pendingAction ∧ cs.funcIdx + 1 ≤ ts'.stack.length := by
  unfold compactArgs at h
  obtain ⟨s, -, h⟩ := Option.bind_eq_some_iff.1 h
  obtain ⟨s', hset, rfl⟩ := Option.map_eq_some_iff.1 h
  refine ⟨rfl, rfl, rfl, ?_⟩
  unfold set? at hset
  split at hset
  · next hlt =>
      cases hset
      rw [ThreadState.stack_setStack, List.length_set]
      exact hlt
  · exact absurd hset (by simp)

/-- **A sequence** is polled by a thread that runs. -/
theorem pumpSequence_sound (h : Chain d top below) (hmode : d.mode = ExecutorMode.normal)
    {ts : ThreadState} (hplain : PlainFrames ts.frames) (hstatus : ts.status = ThreadStatus.normal)
    (hpending : ts.pendingAction = none) (seq : Sequence) (cs : CallSite)
    (pendingError : Option Value) (choice : PollOutcome) (callee : Callee)
    (hguard : PollGuard d ts cs
      (pollSequence seq pendingError (ts.stack.drop cs.bottom) choice) callee) :
    (pumpSequence d top ts seq cs pendingError choice callee).Sound := by
  unfold pumpSequence
  split
  · generalize pollSequence seq pendingError (ts.stack.drop cs.bottom) choice = out at hguard
    have hagain : ∀ (s : List Value) (seq' : Sequence),
        PlainFrames ((ts.setStack s).push (Frame.sequence seq' cs none)).frames :=
      fun s seq' => plainFrames_cons.2 ⟨trivial, hplain⟩
    obtain ⟨hchain, hmode'⟩ := h.applied callee
    cases out with
    | error err window => exact sound_next h hmode (active_of_error rfl hplain hstatus hpending)
    | ok poll window seq' =>
        cases poll with
        | pending =>
            refine ⟨settled_normal hmode, top, below, h.setTop _, Or.inl ?_⟩
            rw [d.setThread_self]
            exact ⟨active_of_plain (hagain _ _) (List.cons_ne_nil _ _) hstatus hpending, hpending⟩
        | ret =>
            refine sound_continueWith h hmode fun ts' hland => ?_
            obtain ⟨hpos, hpending', -, hstatus', hfinished⟩ := landCallResults_shape hland
            by_cases hnil : ts.frames = []
            · obtain ⟨bottom, hbottom⟩ := hfinished hnil
              unfold Active
              rw [hpos.eq_nil.2 hnil, hbottom, hpending'.trans hpending]
              exact ActiveAt.finished
            · exact active_of_plain (hpos.plain hplain) (fun h => hnil (hpos.eq_nil.1 h))
                ((hstatus' hnil).trans hstatus) (hpending'.trans hpending)
        | call f bottom =>
            refine sound_continueWith hchain (hmode'.trans hmode) fun ts' hcall => ?_
            exact callAt_active hcall (hagain _ _) hstatus hpending
              fun hnil => absurd hnil (List.cons_ne_nil _ _)
        | tailCall f =>
            refine sound_continueWith hchain (hmode'.trans hmode) fun ts' hcall => ?_
            obtain ⟨u, hu, hcall⟩ := Option.bind_eq_some_iff.1 hcall
            obtain ⟨hframes, hstatus', hpending', hlen⟩ := compactArgs_fields hu
            have hplain' : PlainFrames u.frames := by
              rw [hframes]
              exact hplain
            obtain ⟨hsame, hactive | hnone⟩ :=
              scheduleCallAt_shape hcall hplain' (hpending'.trans hpending) hlen
            · exact hactive.of_normal (hsame.trans (hstatus'.trans hstatus))
            · obtain ⟨-, -, hnil, hreturns⟩ := hnone
              exact absurd hreturns (hguard (hframes ▸ hnil) u hu)
        | yield bottom =>
            refine sound_next h hmode ?_
            show ActiveAt _ ThreadStatus.suspended ts.pendingAction (some _)
            rw [hpending]
            exact ActiveAt.parked (hagain _ _)
        | tailYield =>
            refine sound_next h hmode ?_
            show ActiveAt ts.frames ThreadStatus.suspended ts.pendingAction (some _)
            rw [hpending]
            exact ActiveAt.parked hplain
        | resume target bottom =>
            refine scheduleThreadResume_sound (h.setTop _) hmode ?_ ?_ _ _ fun hne => ?_
            · rw [d.setThread_self]
              exact hagain _ _
            · rw [d.setThread_self]
              exact hpending
            · rw [d.setThread_of_ne hne]
              exact hguard
        | tailResume target =>
            refine scheduleThreadResume_sound (h.setTop _) hmode ?_ ?_ _ _ fun hne => ?_
            · rw [d.setThread_self]
              exact hplain
            · rw [d.setThread_self]
              exact hpending
            · rw [d.setThread_of_ne hne]
              exact hguard
  · trivial

/-! ### Errors -/

/-- What unwinding the frames of a thread does to it: it ends at a sequence, or there was none. -/
def Unwound.Shape (ts : ThreadState) (frames : List Frame) : Unwound → Prop
  | caught ts' _ => PlainFrames ts'.frames ∧ ts'.frames ≠ [] ∧ ts'.status = ts.status ∧
      ts'.pendingAction = ts.pendingAction
  | uncaught ts' _ => ts'.frames = [] ∧ ts'.status = ts.status ∧
      ts'.pendingAction = ts.pendingAction ∧ ∀ seq cs e, Frame.sequence seq cs e ∉ frames
  | unreachable => False
  | panic => True

theorem unwindFrames_shape (err : Value) {frames : List Frame} (hplain : PlainFrames frames)
    (ts : ThreadState) (cells : Cells) :
    (unwindFrames err frames ts cells).Shape ts frames := by
  induction frames generalizing ts cells with
  | nil => exact ⟨rfl, rfl, rfl, fun _ _ _ => List.not_mem_nil⟩
  | cons fr rest ih =>
      obtain ⟨hfr, hrest⟩ := plainFrames_cons.1 hplain
      cases fr with
      | lua lf =>
          simp only [unwindFrames]
          split
          · next r hclose =>
              unfold closeUpvalues at hclose
              obtain ⟨v, -, rfl⟩ := Option.map_eq_some_iff.1 hclose
              have h := ih hrest ((closeTbcVars { ts with openUpvalues := v.1 } lf.base).setStack
                (ts.stack.take lf.base)) v.2
              generalize unwindFrames err rest ((closeTbcVars { ts with openUpvalues := v.1 }
                lf.base).setStack (ts.stack.take lf.base)) v.2 = u at h ⊢
              cases u with
              | uncaught ts' cells' =>
                  obtain ⟨hnil, hstatus, hpending, hnone⟩ := h
                  refine ⟨hnil, hstatus, hpending, fun seq cs e hmem => ?_⟩
                  rcases List.mem_cons.1 hmem with heq | hmem
                  · exact absurd heq (by simp)
                  · exact hnone seq cs e hmem
              | caught ts' cells' => exact h
              | unreachable => exact h
              | panic => trivial
          · trivial
      | sequence seq cs e =>
          exact ⟨plainFrames_cons.2 ⟨trivial, hrest⟩, List.cons_ne_nil _ _, rfl, rfl⟩
      | start f => exact absurd hfr id
      | waitThread wt => exact absurd hfr id
      | error e => exact absurd hfr id

/-- **Unwinding** ends at a sequence of the thread, or makes the thread below fail. -/
theorem unwindError_sound (h : Chain d top below) (hmode : d.mode = ExecutorMode.normal)
    (hstatus : (d.threads top).status = ThreadStatus.normal)
    (hpending : (d.threads top).pendingAction = none) (err : Value) {rest : List Frame}
    (hplain : PlainFrames rest)
    (hguard : below = [] → ∃ seq cs e, Frame.sequence seq cs e ∈ rest) :
    (unwindError d top below err rest).Sound := by
  have hshape := unwindFrames_shape err hplain (d.threads top) d.cells
  unfold unwindError
  cases hunwind : unwindFrames err rest (d.threads top) d.cells with
  | caught ts cells =>
      rw [hunwind] at hshape
      obtain ⟨hplain', hne, hstatus', hpending'⟩ := hshape
      exact sound_store h hmode cells
        (active_of_plain hplain' hne (hstatus'.trans hstatus) (hpending'.trans hpending))
  | unreachable =>
      rw [hunwind] at hshape
      exact absurd hshape id
  | panic => trivial
  | uncaught ts cells =>
      rw [hunwind] at hshape
      obtain ⟨hnil, hstatus', hpending', hnone⟩ := hshape
      simp only
      cases hbelow : below with
      | nil =>
          obtain ⟨seq, cs, e, hmem⟩ := hguard hbelow
          exact absurd hmem (hnone seq cs e)
      | cons resumer below' =>
          subst hbelow
          have hchain := h.store ts cells
          have htop : (d.store top ts cells).threads top = ts := d.setThread_self top ts
          have hidle : Idle ((d.store top ts cells).threads top) := by
            rw [htop]
            refine ⟨hpending'.trans hpending, fun hs => ?_⟩
            exact absurd ((hstatus'.trans hstatus).symm.trans hs) (by simp)
          obtain ⟨hwstatus, hwpending, wt, rest', hframes, hplain'⟩ :=
            hchain.waiting resumer (List.mem_cons_self ..)
          simp only [hframes]
          refine ⟨hmode, resumer, below', (hchain.pop hidle).setTop _, ?_⟩
          show Active (Driver.threads (Driver.setThread _ resumer _) resumer)
          rw [Driver.setThread_self]
          exact active_of_error rfl hplain' rfl hwpending

/-! ### Instructions -/

/-- The stack of any thread may change where it is long enough. -/
theorem Chain.setStackOf (h : Chain d top below) {t : ThreadId} {s : List Value}
    (hne : (d.threads t).stack ≠ []) :
    Chain (d.setThread t ((d.threads t).setStack s)) top below := by
  have hlt : t < d.freshThread := by
    by_contra hge
    exact hne (by rw [h.fresh t (Nat.le_of_not_lt hge)]; rfl)
  refine ⟨h.stack, h.nodup, h.main, h.created, fun t' ht' => ?_, fun t' ht' => ?_, fun t' ht' => ?_⟩
  · have hne' : t' ≠ t := Nat.ne_of_gt (Nat.lt_of_lt_of_le hlt ht')
    exact (d.setThread_of_ne hne' _).trans (h.fresh t' ht')
  · by_cases heq : t' = t
    · subst heq
      rw [d.setThread_self]
      have hw := h.waiting t' ht'
      exact ⟨hw.status, hw.pending, hw.frames⟩
    · rw [d.setThread_of_ne heq]
      exact h.waiting t' ht'
  · by_cases heq : t' = t
    · subst heq
      rw [d.setThread_self]
      have hi := h.idle t' ht'
      exact ⟨hi.pending, hi.frames⟩
    · rw [d.setThread_of_ne heq]
      exact h.idle t' ht'

/-- Writing a captured variable keeps the chain and the frame that runs. -/
theorem writeUpvalue_sound (h : Chain d top below) {lf : LuaFrame} {rest : List Frame}
    (hrun : RunsLua (d.threads top) lf rest) {uv : UpvalueId} {v : Value} {d' : Driver}
    (hwrite : writeUpvalue d uv v = some d') :
    Chain d' top below ∧ d'.mode = d.mode ∧ RunsLua (d'.threads top) lf rest := by
  unfold writeUpvalue at hwrite
  split at hwrite
  · cases hwrite
    exact ⟨h.withCells _ _, rfl, hrun⟩
  · next t index hcell =>
      obtain ⟨s, hset, rfl⟩ := Option.map_eq_some_iff.1 hwrite
      have hne : (d.threads t).stack ≠ [] := by
        intro hnil
        rw [hnil] at hset
        exact absurd hset (by simp [set?])
      refine ⟨h.setStackOf hne, rfl, ?_⟩
      by_cases heq : top = t
      · subst heq
        rw [d.setThread_self]
        exact hrun.setStack s
      · rwa [d.setThread_of_ne heq]

/-- Capturing variables keeps the chain and the frame that runs. -/
theorem captureSlots_sound (h : Chain d top below) {lf : LuaFrame} {rest : List Frame}
    (hrun : RunsLua (d.threads top) lf rest) (slots : List ℕ) :
    Chain (slots.foldl (captureSlot top) d) top below ∧
      (slots.foldl (captureSlot top) d).mode = d.mode ∧
      RunsLua ((slots.foldl (captureSlot top) d).threads top) lf rest := by
  induction slots generalizing d with
  | nil => exact ⟨h, rfl, hrun⟩
  | cons slot slots ih =>
      have hstep : Chain (captureSlot top d slot) top below ∧
          (captureSlot top d slot).mode = d.mode ∧
          RunsLua ((captureSlot top d slot).threads top) lf rest := by
        unfold captureSlot
        simp only
        split
        · exact ⟨h, rfl, hrun⟩
        · refine ⟨(h.setTop _).withCells _ _, rfl, ?_⟩
          show RunsLua ((d.setThread top _).threads top) lf rest
          rw [d.setThread_self]
          exact ⟨hrun.frames, hrun.plain, hrun.status, hrun.pending⟩
      obtain ⟨hchain, hmode, hrun'⟩ := hstep
      obtain ⟨hchain', hmode', hrun''⟩ := ih hchain hrun'
      exact ⟨hchain', hmode'.trans hmode, hrun''⟩

theorem afterHandler_sound (h : Chain d top below) (hmode : d.mode = ExecutorMode.normal)
    {r : VmResult} (hr : VmActive r) : (d.afterHandler top r).Sound := by
  cases r with
  | none => trivial
  | some x =>
      obtain ⟨flow, ts, cells⟩ := x
      obtain ⟨hraise, hactive⟩ := hr flow ts cells rfl
      cases flow with
      | dispatch pc => exact sound_store h hmode cells (hactive.savePc pc)
      | exit => exact sound_store h hmode cells hactive
      | raise => exact absurd rfl hraise

/-- **An instruction** of the frame that runs. -/
theorem execInstr_sound (h : Chain d top below) (hmode : d.mode = ExecutorMode.normal)
    {lf : LuaFrame} {rest : List Frame} (hrun : RunsLua (d.threads top) lf rest) (instr : Instr) :
    (execInstr d top lf instr).Sound := by
  cases instr with
  | registers size writes top' pc =>
      have hrun' : RunsLua { d.threads top with
          stack := writes.foldl (fun s w => s.set w.1 w.2)
            (grow (d.threads top).stack size Value.nil)
          top := top'.getD (d.threads top).top } lf rest :=
        ⟨hrun.frames, hrun.plain, hrun.status, hrun.pending⟩
      exact sound_next h hmode (hrun'.active.savePc pc)
  | getUpvalue dst uv pc =>
      simp only [execInstr]
      split
      · exact sound_next h hmode ((hrun.setStack _).active.savePc pc)
      · trivial
  | setUpvalue uv v pc =>
      simp only [execInstr]
      split
      · next d' hwrite =>
          obtain ⟨hchain, hmode', hrun'⟩ := writeUpvalue_sound h hrun hwrite
          exact sound_next hchain (hmode'.trans hmode) (hrun'.active.savePc pc)
      · trivial
  | closure dst g captures pc =>
      obtain ⟨hchain, hmode', hrun'⟩ := captureSlots_sound h hrun (captures.map (lf.base + ·))
      exact sound_next hchain (hmode'.trans hmode) ((hrun'.setStack _).active.savePc pc)
  | varargPrep pc =>
      refine sound_next h hmode (Active.savePc ?_ pc)
      unfold varargPrep
      split
      · exact ((hrun.setStack _).setTopLua _).active
      · exact hrun.active
  | setlist table count pc =>
      simp only [execInstr]
      split
      · next ts' hset =>
          obtain ⟨s, rfl, -⟩ := opSetlist_spec hset
          exact sound_next h hmode ((hrun.setStack s).active.savePc pc)
      · trivial
  | close start pc =>
      simp only [execInstr]
      split
      · next r hclose =>
          unfold closeUpvalues at hclose
          obtain ⟨v, -, rfl⟩ := Option.map_eq_some_iff.1 hclose
          refine sound_store h hmode _ (Active.savePc ?_ pc)
          exact active_of_plain hrun.plainFrames hrun.ne_nil hrun.status hrun.pending
      · trivial
  | tbc val pc =>
      refine sound_next h hmode (Active.savePc ?_ pc)
      exact active_of_plain hrun.plainFrames hrun.ne_nil hrun.status hrun.pending
  | raise => exact ⟨settled_normal hmode, top, below, h, Or.inl ⟨hrun.active, hrun.pending⟩⟩
  | call ip func nargs returns callee =>
      obtain ⟨hchain, hmode'⟩ := h.applied callee
      exact afterHandler_sound hchain (hmode'.trans hmode) (hrun.opCall_active _ _ _ _ _ _)
  | tailcall func nargs callee =>
      obtain ⟨hchain, hmode'⟩ := h.applied callee
      exact afterHandler_sound hchain (hmode'.trans hmode) (hrun.opTailcall_active _ _ _ _)
  | ret values count => exact afterHandler_sound h hmode (hrun.opReturn_active _ _ _)
  | metamethod ip metaFn args payload callee crossing =>
      obtain ⟨hchain, hmode'⟩ := h.applied callee
      exact afterHandler_sound hchain (hmode'.trans hmode)
        (hrun.invokeMetamethod_active _ _ _ _ _ _ _)

/-! ### An iteration -/

/-- **The first call of a thread.** -/
theorem startFrame_sound (h : Chain d top below) (hmode : d.mode = ExecutorMode.normal)
    (hpending : (d.threads top).pendingAction = none) (f : FunctionId) (callee : Callee) :
    (startFrame d top f [] callee).Sound := by
  obtain ⟨hchain, hmode'⟩ := h.applied callee
  refine sound_continueWith hchain (hmode'.trans hmode) fun ts hcall => ?_
  obtain ⟨u, hu, rfl⟩ := Option.map_eq_some_iff.1 hcall
  obtain ⟨-, hshape⟩ := callAt_shape hu plainFrames_nil hpending
  split
  · next hnil =>
      show ActiveAt u.frames (ThreadStatus.result 0) u.pendingAction u.yieldBottom
      rw [hnil.1, hnil.2]
      exact ActiveAt.finished
  · next hne =>
      rcases hshape with hactive | ⟨hnil, hnone, -⟩
      · exact hactive
      · exact absurd ⟨hnil, hnone⟩ hne

/-- An error that has nowhere to go does not reach the host: on the main thread, a sequence is
below it. -/
def ErrorGuard (below : List ThreadId) (rest : List Frame) : Prop :=
  below = [] → ∃ seq cs e, Frame.sequence seq cs e ∈ rest

/-- The choices of an iteration that keep the invariant. -/
def IterationGuard (d : Driver) (top : ThreadId) (below : List ThreadId) (c : Choice) : Prop :=
  let ts := d.threads top
  ts.status = ThreadStatus.normal →
    match ts.pendingAction, ts.frames with
    | some p, _ => ActionGuard d ts p c.callee
    | none, Frame.sequence seq cs e :: rest =>
        PollGuard d { ts with frames := rest } cs
          (pollSequence seq e (ts.stack.drop cs.bottom) c.poll) c.callee
    | none, Frame.error _ :: rest => ErrorGuard below rest
    | none, _ => True

/-- The action is taken from a thread that runs. -/
theorem ActionGuard.taken {ts : ThreadState} {p : PendingAction} {callee : Callee}
    (h : ActionGuard d (d.threads top) p callee)
    (hts : ts = { d.threads top with pendingAction := none })
    (hstatus : (d.threads top).status = ThreadStatus.normal) :
    ActionGuard (d.setThread top ts) ts p callee := by
  subst hts
  unfold ActionGuard at h ⊢
  cases haction : p.action with
  | call f andThen =>
      rw [haction] at h
      cases andThen with
      | none => exact h
      | some seq => trivial
  | resume target andThen =>
      rw [haction] at h
      by_cases heq : target = top
      · -- the thread that runs is not suspended
        subst heq
        rintro ⟨hsusp, -⟩
        rw [d.setThread_self] at hsusp
        exact absurd (hstatus.symm.trans hsusp) (by simp)
      · show ¬ Frameless ((d.setThread top _).threads target)
        rwa [d.setThread_of_ne heq]
  | _ => trivial

/-- Draining an action, or pumping the top frame. -/
theorem drive_sound (h : Chain d top below) (hmode : d.mode = ExecutorMode.normal)
    (hactive : Active (d.threads top))
    (hstatus : (d.threads top).status = ThreadStatus.normal ∨
      (d.threads top).status = ThreadStatus.suspended ∧ (d.threads top).yieldBottom = none)
    (c : Choice) (hguard : IterationGuard d top below c) : (drive d top below c).Sound := by
  unfold Active at hactive
  generalize hframes : (d.threads top).frames = frames, hs : (d.threads top).status = status,
    hp : (d.threads top).pendingAction = pending, hy : (d.threads top).yieldBottom = y at hactive
  unfold drive pumpFrame
  cases hactive with
  | seeded hseeded =>
      simp only [hp, hframes]
      exact startFrame_sound h hmode hp _ _
  | running hplain hne hret =>
      have hguard := hguard hs
      cases pending with
      | some p =>
          simp only [hp] at hguard ⊢
          refine applyPendingAction_sound (h.setTop _) hmode ?_ ?_ ?_ (hret p rfl) ?_
          · rw [d.setThread_self]
            show PlainFrames (d.threads top).frames
            rwa [hframes]
          · rw [d.setThread_self]
            exact hs
          · rw [d.setThread_self]
          · rw [d.setThread_self]
            exact hguard.taken rfl hs
      | none =>
          have hne := hne.resolve_right (by simp)
          cases frames with
          | nil => exact absurd rfl hne
          | cons fr rest =>
              obtain ⟨hfr, hrest⟩ := plainFrames_cons.1 hplain
              cases fr with
              | lua lf =>
                  simp only [hp, hframes]
                  exact execInstr_sound h hmode ⟨hframes, hrest, hs, hp⟩ c.instr
              | sequence seq cs e =>
                  have hpoll : PollGuard d { d.threads top with frames := rest } cs
                      (pollSequence seq e ((d.threads top).stack.drop cs.bottom) c.poll)
                      c.callee := by
                    simpa only [hp, hframes] using hguard
                  simp only [hp, hframes]
                  exact pumpSequence_sound h hmode (by exact hrest) (by exact hs) rfl
                    seq cs e c.poll c.callee (by simpa only [hp] using hpoll)
              | start f => exact absurd hfr id
              | waitThread wt => exact absurd hfr id
              | error e => exact absurd hfr id
  | failing hplain =>
      have hguard := hguard hs
      simp only [hp, hframes] at hguard ⊢
      exact unwindError_sound h hmode hs hp _ hplain hguard
  | parked hplain =>
      rcases hstatus with hnormal | ⟨-, hnone⟩
      · exact absurd (hs.symm.trans hnormal) (by simp)
      · exact absurd (hy.symm.trans hnone) (by simp)
  | finished =>
      rcases hstatus with hnormal | ⟨hsusp, -⟩
      · exact absurd (hs.symm.trans hnormal) (by simp)
      · exact absurd (hs.symm.trans hsusp) (by simp)
  | stopped =>
      rcases hstatus with hnormal | ⟨hsusp, -⟩
      · exact absurd (hs.symm.trans hnormal) (by simp)
      · exact absurd (hs.symm.trans hsusp) (by simp)

/-- **An iteration** keeps the chain. -/
theorem iterate_sound (h : Chain d top below) (hmode : d.mode = ExecutorMode.normal)
    (hactive : Active (d.threads top)) (c : Choice) (hguard : IterationGuard d top below c) :
    (iterate d c).Sound := by
  unfold iterate
  rw [h.stack]
  cases hbelow : below with
  | nil =>
      rw [hbelow] at h hguard
      simp only
      cases hstatus : (d.threads top).status with
      | result bottom =>
          have hnone := hactive.pending_none (by rw [hstatus]; simp)
          refine ⟨⟨fun hy => absurd hy (by simp), fun _ => ?_⟩, top, [], h.withMode _,
            Or.inl ⟨hactive, hnone⟩⟩
          show [top] = [mainThread]
          rw [h.top_eq_main]
      | stopped =>
          have hnone := hactive.pending_none (by rw [hstatus]; simp)
          exact ⟨settled_normal hmode, top, [], h, Or.inl ⟨hactive, hnone⟩⟩
      | suspended =>
          simp only
          split
          · next y hyield =>
              have hnone := hactive.pending_none (by rw [hstatus]; simp)
              split
              · refine ⟨⟨fun _ => ?_, fun hr => absurd hr (by simp)⟩, top, [], h.withMode _,
                  Or.inl ⟨hactive, hnone⟩⟩
                rw [h.top_eq_main] at hyield hstatus
                refine ⟨?_, hstatus, ?_⟩
                · show [top] = [mainThread]
                  rw [h.top_eq_main]
                · show (d.threads mainThread).yieldBottom ≠ none
                  rw [hyield]
                  simp
              · trivial
          · next hyield =>
              exact drive_sound h hmode hactive (Or.inr ⟨hstatus, hyield⟩) c hguard
      | normal => exact drive_sound h hmode hactive (Or.inl hstatus) c hguard
  | cons resumer below' =>
      rw [hbelow] at h hguard
      simp only
      cases hstatus : (d.threads top).status with
      | result bottom =>
          have hidle := hactive.idle (hactive.pending_none (by rw [hstatus]; simp))
          refine propagate_sound h hmode hidle bottom false fun _ => ?_
          rw [hstatus]
          simp
      | stopped =>
          have hnone := hactive.pending_none (by rw [hstatus]; simp)
          exact ⟨settled_normal hmode, top, resumer :: below', h, Or.inl ⟨hactive, hnone⟩⟩
      | suspended =>
          have hidle := hactive.idle (hactive.pending_none (by rw [hstatus]; simp))
          exact propagate_sound h hmode hidle _ true fun hfalse => absurd hfalse (by simp)
      | normal => exact drive_sound h hmode hactive (Or.inl hstatus) c hguard

end Arms

end Tcvm
