/-
# The lifecycle of a coroutine

What `coroutine.status` reports is read from a status that many paths of the executor write.  Here
it is compared with where the body of the coroutine is: a thread off the chain has not started, is
parked in a yield, or has ended for ever; the threads below the driven one wait.

## Main definitions

* `Offstage`, `OnStage`, `Staged` — the threads by their place, with their yield sites;
* `Finished`, `KeepsFinished` — a coroutine that has ended, and stays so;
* `LifeIterationGuard` — the choices of an iteration that keep the reports right.

## Main results

* `applied_staged`, `scheduleThreadResume_kept`, `propagate_kept`, `unwindError_kept` — the
  arms of the loop;
* **`iterate_kept`** — an iteration keeps the threads in their places.
-/

import Tcvm.ExecutorRuns
import Tcvm.ThreadFields

namespace Tcvm

/-! ### Threads by their place -/

/-- A thread that has ended, and is reported dead. -/
def Finished (ts : ThreadState) : Prop :=
  Ended ts ∧ (ts.status = ThreadStatus.stopped ∨ ∃ bottom, ts.status = ThreadStatus.result bottom)

/-- A thread off the chain. -/
inductive Offstage (ts : ThreadState) : Prop
  | unstarted {f : FunctionId} (hframes : ts.frames = [Frame.start f])
      (hstatus : ts.status = ThreadStatus.suspended) (hsite : ts.yieldBottom = none)
  | parked (hplain : PlainFrames ts.frames) (hstatus : ts.status = ThreadStatus.suspended)
      (hsite : ts.yieldBottom ≠ none)
  | finished (h : Finished ts)

/-- The driven thread has no yield site, unless it is parked, or is the main thread and the host
has left one. -/
def OnStage (below : List ThreadId) (ts : ThreadState) : Prop :=
  ts.yieldBottom = none ∨ (ts.status = ThreadStatus.suspended ∧ PlainFrames ts.frames) ∨
    (below = [] ∧ (ts.status = ThreadStatus.suspended ∨ ts.status = ThreadStatus.stopped))

theorem onStage_of_site {below : List ThreadId} {ts : ThreadState} (h : ts.yieldBottom = none) :
    OnStage below ts := Or.inl h

theorem finished_new (t : ThreadId) : Finished (ThreadState.new t) := ⟨⟨rfl, rfl, rfl⟩, Or.inl rfl⟩

theorem Finished.not_normal {ts : ThreadState} (h : Finished ts) :
    ts.status ≠ ThreadStatus.normal := by
  rcases h.2 with hs | ⟨bottom, hs⟩
  · rw [hs]
    simp
  · rw [hs]
    simp

theorem Finished.not_suspended {ts : ThreadState} (h : Finished ts) :
    ts.status ≠ ThreadStatus.suspended := by
  rcases h.2 with hs | ⟨bottom, hs⟩
  · rw [hs]
    simp
  · rw [hs]
    simp

theorem Finished.close {ts : ThreadState} (h : Finished ts) : Finished ts.close := by
  unfold ThreadState.close
  split
  · exact h
  · exact ⟨⟨rfl, rfl, rfl⟩, Or.inl rfl⟩

theorem Finished.setStack {ts : ThreadState} (h : Finished ts) (s : List Value) :
    Finished (ts.setStack s) := h

theorem Offstage.close {ts : ThreadState} (h : Offstage ts) : Offstage ts.close := by
  unfold ThreadState.close
  split
  · exact h
  · exact Offstage.finished ⟨⟨rfl, rfl, rfl⟩, Or.inl rfl⟩

theorem Offstage.setStack {ts : ThreadState} (h : Offstage ts) (s : List Value) :
    Offstage (ts.setStack s) := by
  cases h with
  | unstarted hframes hstatus hsite => exact Offstage.unstarted hframes hstatus hsite
  | parked hplain hstatus hsite => exact Offstage.parked hplain hstatus hsite
  | finished h => exact Offstage.finished (h.setStack s)

/-- The threads are in their places. -/
structure Staged (d : Driver) (top : ThreadId) (below : List ThreadId) : Prop where
  idle : ∀ t, t ∉ top :: below → Offstage (d.threads t)
  waiting : ∀ t ∈ below, (d.threads t).yieldBottom = none
  top : OnStage below (d.threads top)

/-- What has ended stays so, and does not come back to the chain. -/
structure KeepsFinished (d d' : Driver) : Prop where
  fresh : d.freshThread ≤ d'.freshThread
  finished : ∀ t, t < d.freshThread → t ≠ mainThread → Finished (d.threads t) →
    Finished (d'.threads t) ∧ (t ∈ d'.threadStack → t ∈ d.threadStack)

theorem KeepsFinished.refl (d : Driver) : KeepsFinished d d :=
  ⟨Nat.le_refl _, fun _ _ _ h => ⟨h, id⟩⟩

theorem KeepsFinished.trans {d d' d'' : Driver} (h : KeepsFinished d d')
    (h' : KeepsFinished d' d'') : KeepsFinished d d'' :=
  ⟨Nat.le_trans h.fresh h'.fresh, fun t ht hne hf => by
    obtain ⟨hf', hstack⟩ := h.finished t ht hne hf
    obtain ⟨hf'', hstack'⟩ := h'.finished t (Nat.lt_of_lt_of_le ht h.fresh) hne hf'
    exact ⟨hf'', fun hmem => hstack (hstack' hmem)⟩⟩

/-- The threads are in their places after a step, and what had ended stays so. -/
structure Kept (d d' : Driver) : Prop where
  staged : ∀ top below, d'.threadStack = top :: below → Staged d' top below
  finished : KeepsFinished d d'

theorem Kept.of_keepsFinished {d d' d'' : Driver} (h : KeepsFinished d d') (h' : Kept d' d'') :
    Kept d d'' := ⟨h'.staged, h.trans h'.finished⟩

section Places

variable {d : Driver} {top : ThreadId} {below : List ThreadId}

theorem Staged.kept (h : Staged d top below) (hstack : d.threadStack = top :: below) :
    Kept d d := by
  refine ⟨fun top' below' hstack' => ?_, KeepsFinished.refl d⟩
  obtain ⟨rfl, rfl⟩ := List.cons.inj (hstack.symm.trans hstack')
  exact h

theorem keepsFinished_setThread {t : ThreadId} {ts : ThreadState}
    (h : Finished (d.threads t) → Finished ts) : KeepsFinished d (d.setThread t ts) := by
  refine ⟨Nat.le_refl _, fun t' _ _ hf => ?_⟩
  refine ⟨?_, id⟩
  by_cases heq : t' = t
  · subst heq
    rw [d.setThread_self]
    exact h hf
  · rwa [d.setThread_of_ne heq]

/-- The driven thread may change. -/
theorem Staged.setTop (h : Staged d top below) (hchain : Chain d top below) {ts : ThreadState}
    (hts : OnStage below ts) : Staged (d.setThread top ts) top below := by
  refine ⟨fun t ht => ?_, fun t ht => ?_, ?_⟩
  · have hne : t ≠ top := by
      rintro rfl
      exact ht (List.mem_cons_self ..)
    rw [d.setThread_of_ne hne]
    exact h.idle t ht
  · have hne : t ≠ top := by
      rintro rfl
      exact hchain.top_notMem ht
    rw [d.setThread_of_ne hne]
    exact h.waiting t ht
  · rwa [d.setThread_self]

theorem Staged.withCells (h : Staged d top below) (cells : Cells) (n : UpvalueId) :
    Staged { d with cells := cells, freshUpvalue := n } top below :=
  ⟨h.idle, h.waiting, h.top⟩

/-- The driven thread has not ended, and changes. -/
theorem kept_setTop (h : Staged d top below) (hchain : Chain d top below)
    (hnot : ¬ Finished (d.threads top)) {ts : ThreadState} (hts : OnStage below ts) :
    Kept d (d.setThread top ts) := by
  refine ⟨fun top' below' hstack => ?_, keepsFinished_setThread fun hf => absurd hf hnot⟩
  obtain ⟨rfl, rfl⟩ := List.cons.inj (hchain.stack.symm.trans hstack)
  exact h.setTop hchain hts

theorem kept_store (h : Staged d top below) (hchain : Chain d top below)
    (hnot : ¬ Finished (d.threads top)) {ts : ThreadState} (cells : Cells)
    (hts : OnStage below ts) : Kept d (d.store top ts cells) := by
  obtain ⟨hstaged, hfinished⟩ := kept_setTop h hchain hnot hts
  exact ⟨fun top' below' hstack => (hstaged top' below' hstack).withCells cells _,
    hfinished.fresh, hfinished.finished⟩

/-- Creating or closing a coroutine keeps the threads in their places. -/
theorem applyEffect_staged (h : Staged d top below) (hchain : Chain d top below)
    (e : ThreadEffect) :
    Staged (e.apply top d) top below ∧ KeepsFinished d (e.apply top d) := by
  cases e with
  | create f =>
      have hnot : d.freshThread ∉ top :: below := fun hmem =>
        absurd (hchain.created _ hmem) (Nat.lt_irrefl _)
      have hother : ∀ t, t ≠ d.freshThread →
          (ThreadEffect.apply top d (ThreadEffect.create f)).threads t = d.threads t :=
        fun t ht => d.setThread_of_ne ht _
      refine ⟨⟨fun t ht => ?_, fun t ht => ?_, ?_⟩, Nat.le_succ _, fun t ht _ hf => ?_⟩
      · by_cases heq : t = d.freshThread
        · have hself : (ThreadEffect.apply top d (ThreadEffect.create f)).threads t =
              ThreadState.created t f := by
            rw [heq]
            exact d.setThread_self _ _
          rw [hself]
          exact Offstage.unstarted rfl rfl rfl
        · rw [hother t heq]
          exact h.idle t ht
      · rw [hother t fun heq => hnot (heq ▸ List.mem_cons_of_mem _ ht)]
        exact h.waiting t ht
      · rw [hother top fun heq => hnot (heq ▸ List.mem_cons_self ..)]
        exact h.top
      · refine ⟨?_, id⟩
        rw [hother t (Nat.ne_of_lt ht)]
        exact hf
  | close co =>
      by_cases htop : co = top
      · simp only [ThreadEffect.apply, if_pos htop]
        exact ⟨h, KeepsFinished.refl d⟩
      · simp only [ThreadEffect.apply, if_neg htop]
        refine ⟨⟨fun t ht => ?_, fun t ht => ?_, ?_⟩,
          keepsFinished_setThread fun hf => hf.close⟩
        · by_cases heq : t = co
          · subst heq
            rw [d.setThread_self]
            exact (h.idle t ht).close
          · rw [d.setThread_of_ne heq]
            exact h.idle t ht
        · by_cases heq : t = co
          · -- a thread that waits is not closed
            subst heq
            rw [d.setThread_self, (hchain.waiting t ht).close_eq]
            exact h.waiting t ht
          · rw [d.setThread_of_ne heq]
            exact h.waiting t ht
        · rw [d.setThread_of_ne (Ne.symm htop)]
          exact h.top

theorem applied_staged (h : Staged d top below) (hchain : Chain d top below) (c : Callee) :
    Staged (c.applied top d) top below ∧ KeepsFinished d (c.applied top d) ∧
      (c.applied top d).threads top = d.threads top := by
  have heffects : ∀ effects : List ThreadEffect, Staged (applyEffects top d effects) top below ∧
      KeepsFinished d (applyEffects top d effects) := by
    intro effects
    induction effects generalizing d with
    | nil => exact ⟨h, KeepsFinished.refl d⟩
    | cons e effects ih =>
        obtain ⟨hstaged, hkeeps⟩ := applyEffect_staged h hchain e
        obtain ⟨hstaged', hkeeps'⟩ := ih hstaged (hchain.applyEffect e).1
        exact ⟨hstaged', hkeeps.trans hkeeps'⟩
  unfold Callee.applied
  cases c.target with
  | lua closure => exact ⟨h, KeepsFinished.refl d, rfl⟩
  | native g =>
      obtain ⟨hstaged, hkeeps⟩ := heffects c.effects
      exact ⟨hstaged, hkeeps, (hchain.applyEffects c.effects).2.1⟩

end Places

/-! ### Outcomes -/

/-- An iteration keeps the threads in their places, and does not stop on a thread that waits. -/
def DriveOutcome.KeptFrom (d : Driver) : DriveOutcome → Prop
  | next d' => Kept d d'
  | finish _ d' =>
      Kept d d' ∧ ∀ top below, d'.threadStack = top :: below → ¬ Awaits (d'.threads top)
  | error _ d' =>
      Kept d d' ∧ ∀ top below, d'.threadStack = top :: below → ¬ Awaits (d'.threads top)
  | unreachable => True
  | panic => True

theorem keptFrom_trans {d d' : Driver} {out : DriveOutcome} (h : KeepsFinished d d')
    (h' : out.KeptFrom d') : out.KeptFrom d := by
  cases out with
  | next d'' => exact Kept.of_keepsFinished h h'
  | finish r d'' => exact ⟨Kept.of_keepsFinished h h'.1, h'.2⟩
  | error e d'' => exact ⟨Kept.of_keepsFinished h h'.1, h'.2⟩
  | unreachable => trivial
  | panic => trivial

section Arms

variable {d : Driver} {top : ThreadId} {below : List ThreadId}

theorem not_finished_of_normal {ts : ThreadState} (h : ts.status = ThreadStatus.normal) :
    ¬ Finished ts := fun hf => hf.not_normal h

theorem continueWith_kept (h : Staged d top below) (hchain : Chain d top below)
    (hnot : ¬ Finished (d.threads top)) {r : Option ThreadState}
    (hr : ∀ ts, r = some ts → OnStage below ts) : (d.continueWith top r).KeptFrom d := by
  cases r with
  | none => trivial
  | some ts => exact kept_setTop h hchain hnot (hr ts rfl)

/-- A call changes the driven thread, and what the callback does to the others is kept. -/
theorem applied_kept (h : Staged d top below) (hchain : Chain d top below)
    (hnot : ¬ Finished (d.threads top)) (c : Callee) {r : Option ThreadState}
    (hr : ∀ ts, r = some ts → OnStage below ts) :
    ((c.applied top d).continueWith top r).KeptFrom d := by
  obtain ⟨hstaged, hkeeps, hsame⟩ := applied_staged h hchain c
  refine keptFrom_trans hkeeps (continueWith_kept hstaged (hchain.applied c).1 ?_ hr)
  rwa [hsame]

/-- **Switching to a coroutine** that is suspended. -/
theorem scheduleThreadResume_kept (h : Staged d top below) (hchain : Chain d top below)
    (hstatus : (d.threads top).status = ThreadStatus.normal)
    (hsite : (d.threads top).yieldBottom = none) {target : ThreadId} (hne : target ≠ top)
    (htarget : (d.threads target).status = ThreadStatus.suspended) (argsBottom : ℕ)
    (wt : CallSite) : (scheduleThreadResume d top target argsBottom wt).KeptFrom d := by
  unfold scheduleThreadResume
  simp only
  split
  · have hnot : target ∉ top :: below := by
      intro hmem
      rcases List.mem_cons.1 hmem with heq | hmem
      · exact hne heq
      · exact absurd ((hchain.waiting target hmem).status.symm.trans htarget) (by simp)
    have hsame : (d.setThread top ((d.threads top).waiting argsBottom wt)).threads target =
        d.threads target := d.setThread_of_ne hne _
    have hstaged := h.setTop hchain (onStage_of_site (by exact hsite) :
      OnStage below ((d.threads top).waiting argsBottom wt))
    rw [hsame]
    split
    · next ts hresume =>
        -- the coroutine has no yield site any more
        have hts : ts.yieldBottom = none := by
          unfold ThreadState.resumeWith at hresume
          rw [htarget] at hresume
          cases h.idle target hnot with
          | unstarted hframes _ hnone =>
              simp only [hframes, Option.some.injEq] at hresume
              rw [← hresume]
              exact hnone
          | parked hplain _ _ =>
              simp only at hresume
              split at hresume
              · next f rest hframes =>
                  rw [hframes] at hplain
                  exact absurd (plainFrames_cons.1 hplain).1 id
              · obtain ⟨y, -, hland⟩ := Option.map_eq_some_iff.1 hresume
                exact (landResumed_keeps hland).yieldBottom
          | finished hf => exact absurd htarget hf.not_suspended
        refine ⟨fun top' below' hstack => ?_, ?_⟩
        · obtain ⟨rfl, rfl⟩ := List.cons.inj hstack
          refine ⟨fun t ht => ?_, fun t ht => ?_, ?_⟩
          · have hne' : t ≠ target := by
              rintro rfl
              exact ht (List.mem_cons_self ..)
            show Offstage ((Driver.setThread _ target ts).threads t)
            rw [Driver.setThread_of_ne _ hne']
            refine hstaged.idle t fun hmem => ht (List.mem_cons_of_mem _ ?_)
            show t ∈ d.threadStack
            rwa [hchain.stack]
          · have hmem : t ∈ top :: below := by
              rw [← hchain.stack]
              exact ht
            have hne' : t ≠ target := by
              rintro rfl
              exact hnot hmem
            show ((Driver.setThread _ target ts).threads t).yieldBottom = none
            rw [Driver.setThread_of_ne _ hne']
            rcases List.mem_cons.1 hmem with rfl | hmem
            · rw [d.setThread_self]
              exact hsite
            · exact hstaged.waiting t hmem
          · refine onStage_of_site ?_
            show ((Driver.setThread _ target ts).threads target).yieldBottom = none
            rwa [Driver.setThread_self]
        · have hstep : KeepsFinished d (d.setThread top ((d.threads top).waiting argsBottom wt)) :=
            keepsFinished_setThread fun hf => absurd hf (not_finished_of_normal hstatus)
          refine hstep.trans ⟨Nat.le_refl _, fun t ht hmain hf => ?_⟩
          have heq : t ≠ target := by
            rintro rfl
            rw [hsame] at hf
            exact absurd htarget hf.not_suspended
          refine ⟨?_, fun hmem => (List.mem_cons.1 hmem).resolve_left heq⟩
          show Finished ((Driver.setThread _ target ts).threads t)
          rwa [Driver.setThread_of_ne _ heq]
    · trivial
    · next hresume =>
        exfalso
        unfold ThreadState.resumeWith at hresume
        rw [htarget] at hresume
        cases h.idle target hnot with
        | unstarted hframes _ _ =>
            simp only [hframes] at hresume
            exact absurd hresume (by simp)
        | parked hplain _ hparked =>
            obtain ⟨y, hy⟩ := Option.ne_none_iff_exists'.1 hparked
            simp only [hy, Option.map_some] at hresume
            split at hresume
            · exact absurd hresume (by simp)
            · exact absurd hresume (by simp)
        | finished hf => exact absurd htarget hf.not_suspended
  · trivial

/-- A driven thread that has come to rest above another one is off the chain. -/
theorem offstage_of_active {ts : ThreadState} (hactive : Active ts) (hstage : OnStage below ts)
    (hbelow : below ≠ []) (hstatus : ts.status ≠ ThreadStatus.normal) : Offstage ts := by
  unfold Active at hactive
  generalize hfr : ts.frames = frames, hs : ts.status = status, hp : ts.pendingAction = pending,
    hy : ts.yieldBottom = y at *
  have hsite : y = none ∨ (status = ThreadStatus.suspended ∧ PlainFrames frames) := by
    rcases hstage with hnone | ⟨hsusp, hplain⟩ | ⟨hnil, -⟩
    · exact Or.inl (hy.symm.trans hnone)
    · exact Or.inr ⟨hs.symm.trans hsusp, hfr ▸ hplain⟩
    · exact absurd hnil hbelow
  cases hactive with
  | seeded hseeded =>
      have hsusp := hseeded.resolve_right hstatus
      rcases hsite with hnone | ⟨-, hplain⟩
      · exact Offstage.unstarted hfr (hs.trans hsusp) (hy.trans hnone)
      · exact absurd (plainFrames_cons.1 hplain).1 id
  | running => exact absurd rfl hstatus
  | failing => exact absurd rfl hstatus
  | parked hplain =>
      refine Offstage.parked (by rwa [hfr]) hs ?_
      rw [hy]
      simp
  | finished =>
      refine Offstage.finished ⟨⟨hfr, hp, ?_⟩, Or.inr ⟨_, hs⟩⟩
      rcases hsite with hnone | ⟨hsusp, -⟩
      · rw [hy, hnone]
      · exact absurd hsusp (by simp)
  | stopped =>
      refine Offstage.finished ⟨⟨hfr, hp, ?_⟩, Or.inl hs⟩
      rcases hsite with hnone | ⟨hsusp, -⟩
      · rw [hy, hnone]
      · exact absurd hsusp (by simp)

/-- **A coroutine comes back.** -/
theorem propagate_kept {resumer : ThreadId} (hchain : Chain d top (resumer :: below))
    (h : Staged d top (resumer :: below)) (hactive : Active (d.threads top))
    (hstatus : (d.threads top).status ≠ ThreadStatus.normal) (bottom : ℕ) (innerYielded : Bool) :
    (propagateInnerToResumer d top (resumer :: below) bottom innerYielded).KeptFrom d := by
  unfold propagateInnerToResumer
  simp only
  split
  · have hoff := offstage_of_active hactive h.top (List.cons_ne_nil _ _) hstatus
    -- the coroutine that leaves the chain
    obtain ⟨d', hd', hother, hself, hfinished, hstack'⟩ : ∃ d',
        (if innerYielded = true then d else d.setThread top ((d.threads top).setStack [])) = d' ∧
          (∀ t, t ≠ top → d'.threads t = d.threads t) ∧ Offstage (d'.threads top) ∧
          KeepsFinished d d' ∧ d'.threadStack = top :: resumer :: below := by
      cases innerYielded with
      | true => exact ⟨d, rfl, fun _ _ => rfl, hoff, KeepsFinished.refl d, hchain.stack⟩
      | false =>
          refine ⟨_, rfl, fun t ht => d.setThread_of_ne ht _, ?_,
            keepsFinished_setThread fun hf => hf.setStack [], hchain.stack⟩
          simp only [Bool.false_eq_true, if_false, Driver.setThread_self]
          exact hoff.setStack []
    rw [hd']
    have hres : resumer ≠ top := by
      rintro rfl
      exact hchain.top_notMem (List.mem_cons_self ..)
    obtain ⟨hwstatus, hwpending, wt, rest, hframes, hplain⟩ :=
      hchain.waiting resumer (List.mem_cons_self ..)
    rw [← hother resumer hres] at hwstatus hframes
    simp only [hframes]
    unfold Driver.continueWith
    split
    · next ts hland =>
        have hts : ts.yieldBottom = none := by
          rw [(landPropagated_keeps hland).yieldBottom, hother resumer hres]
          exact h.waiting resumer (List.mem_cons_self ..)
        refine ⟨fun top' below' hstack => ?_, hfinished.trans ⟨Nat.le_refl _, fun t _ _ hf => ?_⟩⟩
        · obtain ⟨rfl, rfl⟩ := List.cons.inj hstack
          refine ⟨fun t ht => ?_, fun t ht => ?_, onStage_of_site ?_⟩
          · have hne : t ≠ resumer := by
              rintro rfl
              exact ht (List.mem_cons_self ..)
            show Offstage ((Driver.setThread _ resumer ts).threads t)
            rw [Driver.setThread_of_ne _ hne]
            by_cases htop : t = top
            · rw [htop]
              exact hself
            · show Offstage (d'.threads t)
              rw [hother t htop]
              refine h.idle t fun hmem => ?_
              rcases List.mem_cons.1 hmem with heq | hmem
              · exact htop heq
              · exact ht hmem
          · have hnodup := (List.nodup_cons.1 hchain.nodup).2
            have hne : t ≠ resumer := by
              rintro rfl
              exact (List.nodup_cons.1 hnodup).1 ht
            have htop : t ≠ top := by
              rintro rfl
              exact hchain.top_notMem (List.mem_cons_of_mem _ ht)
            show ((Driver.setThread _ resumer ts).threads t).yieldBottom = none
            rw [Driver.setThread_of_ne _ hne]
            show (d'.threads t).yieldBottom = none
            rw [hother t htop]
            exact h.waiting t (List.mem_cons_of_mem _ ht)
          · show ((Driver.setThread _ resumer ts).threads resumer).yieldBottom = none
            rwa [Driver.setThread_self]
        · have heq : t ≠ resumer := by
            rintro rfl
            exact absurd hwstatus hf.not_normal
          refine ⟨?_, fun hmem => ?_⟩
          · show Finished ((Driver.setThread _ resumer ts).threads t)
            rw [Driver.setThread_of_ne _ heq]
            exact hf
          · rw [hstack']
            exact List.mem_cons_of_mem _ hmem
    · trivial
  · trivial

/-- **Unwinding** ends at a sequence, unless the main thread fails. -/
theorem unwindError_kept (h : Staged d top below) (hchain : Chain d top below)
    (hstatus : (d.threads top).status = ThreadStatus.normal)
    (hsite : (d.threads top).yieldBottom = none) (err : Value) {rest : List Frame}
    (hplain : PlainFrames rest)
    (hguard : below ≠ [] → ∃ seq cs e, Frame.sequence seq cs e ∈ rest) :
    (unwindError d top below err rest).KeptFrom d := by
  have hshape := unwindFrames_shape err hplain (d.threads top) d.cells
  have hnot := not_finished_of_normal hstatus
  unfold unwindError
  cases hunwind : unwindFrames err rest (d.threads top) d.cells with
  | caught ts cells =>
      have hkeeps := unwindFrames_keeps err (Or.inl hunwind)
      exact kept_store h hchain hnot cells (onStage_of_site (hkeeps.yieldBottom.trans hsite))
  | unreachable => trivial
  | panic => trivial
  | uncaught ts cells =>
      rw [hunwind] at hshape
      obtain ⟨hnil, -, -, hnone⟩ := hshape
      have hkeeps := unwindFrames_keeps err (Or.inr hunwind)
      cases hbelow : below with
      | cons resumer below' =>
          obtain ⟨seq, cs, e, hmem⟩ := hguard (by rw [hbelow]; exact List.cons_ne_nil _ _)
          exact absurd hmem (hnone seq cs e)
      | nil =>
          refine ⟨kept_store h hchain hnot cells
            (onStage_of_site (hkeeps.yieldBottom.trans hsite)), fun top' below' hstack => ?_⟩
          obtain ⟨rfl, -⟩ := List.cons.inj (hchain.stack.symm.trans hstack)
          rintro ⟨wt, rest', hframes⟩
          have hself : (d.store top ts cells).threads top = ts := d.setThread_self top ts
          rw [hself, hnil] at hframes
          exact absurd hframes (by simp)

/-- The thread a native callback resumes. -/
def CallbackAction.resumes : CallbackAction → Option ThreadId
  | resume target _ => some target
  | _ => none

/-- The thread a sequence resumes. -/
def PollOutcome.resumes : PollOutcome → Option ThreadId
  | ok (SequencePoll.resume target _) _ _ => some target
  | ok (SequencePoll.tailResume target) _ _ => some target
  | _ => none

/-- **A pending action** is applied. -/
theorem applyPendingAction_kept (h : Staged d top below) (hchain : Chain d top below)
    (hplain : PlainFrames (d.threads top).frames)
    (hstatus : (d.threads top).status = ThreadStatus.normal)
    (hsite : (d.threads top).yieldBottom = none) {p : PendingAction} {callee : Callee}
    (hguard : ∀ target, p.action.resumes = some target →
      (d.threads target).status = ThreadStatus.suspended) :
    (applyPendingAction d top p callee).KeptFrom d := by
  have hnot := not_finished_of_normal hstatus
  unfold applyPendingAction
  simp only
  cases haction : p.action with
  | ret => trivial
  | sequence seq => exact kept_setTop h hchain hnot (onStage_of_site (by exact hsite))
  | call f andThen =>
      refine applied_kept h hchain hnot callee fun ts hcall => onStage_of_site ?_
      rw [(callAt_keeps hcall).yieldBottom, (pushThen_keeps _ _ _).yieldBottom, hsite]
  | yield andThen =>
      exact kept_setTop h hchain hnot (Or.inr (Or.inl ⟨rfl, pushThen_plain hplain _ _⟩))
  | resume target andThen =>
      have htarget := hguard target (by rw [haction]; rfl)
      have hne : target ≠ top := by
        rintro rfl
        exact absurd (hstatus.symm.trans htarget) (by simp)
      obtain ⟨-, hstatus', -, -⟩ := pushThen_fields (d.threads top) andThen p.callSite
      have hsite' : (pushThen (d.threads top) andThen p.callSite).yieldBottom = none :=
        (pushThen_keeps _ _ _).yieldBottom.trans hsite
      refine keptFrom_trans (keepsFinished_setThread fun hf => absurd hf hnot)
        (scheduleThreadResume_kept (h.setTop hchain (onStage_of_site hsite')) (hchain.setTop _)
          ?_ ?_ hne ?_ _ _)
      · rw [d.setThread_self]
        exact hstatus'.trans hstatus
      · rw [d.setThread_self]
        exact hsite'
      · rw [d.setThread_of_ne hne]
        exact htarget

/-- **A sequence** is polled. -/
theorem pumpSequence_kept (h : Staged d top below) (hchain : Chain d top below)
    (hnot : ¬ Finished (d.threads top)) {ts : ThreadState} (hplain : PlainFrames ts.frames)
    (hstatus : ts.status = ThreadStatus.normal) (hsite : ts.yieldBottom = none)
    (htop : (d.threads top).status = ThreadStatus.normal) (seq : Sequence)
    (cs : CallSite) (pendingError : Option Value) (choice : PollOutcome) (callee : Callee)
    (hguard : ∀ target,
      (pollSequence seq pendingError (ts.stack.drop cs.bottom) choice).resumes = some target →
        (d.threads target).status = ThreadStatus.suspended) :
    (pumpSequence d top ts seq cs pendingError choice callee).KeptFrom d := by
  unfold pumpSequence
  split
  · generalize pollSequence seq pendingError (ts.stack.drop cs.bottom) choice = out at hguard
    have hagain : ∀ (s : List Value) (seq' : Sequence),
        PlainFrames ((ts.setStack s).push (Frame.sequence seq' cs none)).frames :=
      fun s seq' => plainFrames_cons.2 ⟨trivial, hplain⟩
    -- a thread that runs switches to a coroutine
    have hswitch : ∀ (u : ThreadState) (target : ThreadId) (argsBottom : ℕ) (wt : CallSite),
        u.status = ThreadStatus.normal → u.yieldBottom = none →
        (d.threads target).status = ThreadStatus.suspended →
        (scheduleThreadResume (d.setThread top u) top target argsBottom wt).KeptFrom d := by
      intro u target argsBottom wt hu husite htarget
      have hne : target ≠ top := by
        rintro rfl
        exact absurd (htop.symm.trans htarget) (by simp)
      refine keptFrom_trans (keepsFinished_setThread fun hf => absurd hf hnot)
        (scheduleThreadResume_kept (h.setTop hchain (onStage_of_site husite)) (hchain.setTop _)
          ?_ ?_ hne ?_ _ _)
      · rwa [d.setThread_self]
      · rwa [d.setThread_self]
      · rwa [d.setThread_of_ne hne]
    cases out with
    | error err window => exact kept_setTop h hchain hnot (onStage_of_site (by exact hsite))
    | ok poll window seq' =>
        cases poll with
        | pending =>
            refine ⟨kept_setTop h hchain hnot (onStage_of_site (by exact hsite)),
              fun top' below' hstack => ?_⟩
            obtain ⟨rfl, -⟩ := List.cons.inj (hchain.stack.symm.trans hstack)
            rintro ⟨wt, rest, hframes⟩
            rw [d.setThread_self] at hframes
            exact absurd (List.cons.inj hframes).1 (by simp)
        | ret =>
            refine continueWith_kept h hchain hnot fun ts' hland => onStage_of_site ?_
            rw [(landCallResults_keeps hland).yieldBottom]
            exact hsite
        | call f bottom =>
            refine applied_kept h hchain hnot callee fun ts' hcall => onStage_of_site ?_
            rw [(callAt_keeps hcall).yieldBottom]
            exact hsite
        | tailCall f =>
            refine applied_kept h hchain hnot callee fun ts' hcall => onStage_of_site ?_
            obtain ⟨u, hu, hcall⟩ := Option.bind_eq_some_iff.1 hcall
            rw [(scheduleCallAt_keeps hcall).yieldBottom, (compactArgs_keeps hu).yieldBottom]
            exact hsite
        | yield bottom =>
            exact kept_setTop h hchain hnot (Or.inr (Or.inl ⟨rfl, hagain _ _⟩))
        | tailYield => exact kept_setTop h hchain hnot (Or.inr (Or.inl ⟨rfl, hplain⟩))
        | resume target bottom => exact hswitch _ _ _ _ hstatus hsite (hguard target rfl)
        | tailResume target => exact hswitch _ _ _ _ hstatus hsite (hguard target rfl)
  · trivial

/-- Writing a captured variable changes a stack at most. -/
theorem writeUpvalue_staged (h : Staged d top below) {uv : UpvalueId} {v : Value} {d' : Driver}
    (hwrite : writeUpvalue d uv v = some d') :
    Staged d' top below ∧ KeepsFinished d d' ∧
      (d'.threads top).status = (d.threads top).status ∧
      (d'.threads top).yieldBottom = (d.threads top).yieldBottom := by
  unfold writeUpvalue at hwrite
  split at hwrite
  · cases hwrite
    exact ⟨h.withCells _ _, ⟨Nat.le_refl _, fun _ _ _ hf => ⟨hf, id⟩⟩, rfl, rfl⟩
  · next t index hcell =>
      obtain ⟨s, -, rfl⟩ := Option.map_eq_some_iff.1 hwrite
      have hsame : ∀ t', ∃ s', (d.setThread t ((d.threads t).setStack s)).threads t' =
          (d.threads t').setStack s' := by
        intro t'
        by_cases heq : t' = t
        · subst heq
          exact ⟨s, d.setThread_self _ _⟩
        · exact ⟨(d.threads t').stack, d.setThread_of_ne heq _⟩
      refine ⟨⟨fun t' ht' => ?_, fun t' ht' => ?_, ?_⟩,
        ⟨Nat.le_refl _, fun t' _ _ hf => ?_⟩, ?_, ?_⟩
      · obtain ⟨s', hs'⟩ := hsame t'
        rw [hs']
        exact (h.idle t' ht').setStack s'
      · obtain ⟨s', hs'⟩ := hsame t'
        rw [hs']
        exact h.waiting t' ht'
      · obtain ⟨s', hs'⟩ := hsame top
        rw [hs']
        exact h.top
      · obtain ⟨s', hs'⟩ := hsame t'
        rw [hs']
        exact ⟨hf.setStack s', id⟩
      · obtain ⟨s', hs'⟩ := hsame top
        rw [hs']
        rfl
      · obtain ⟨s', hs'⟩ := hsame top
        rw [hs']
        rfl

/-- Capturing variables changes the list of the driven thread at most. -/
theorem captureSlots_staged (h : Staged d top below) (hchain : Chain d top below)
    {lf : LuaFrame} {rest : List Frame} (hrun : RunsLua (d.threads top) lf rest)
    (slots : List ℕ) :
    Staged (slots.foldl (captureSlot top) d) top below ∧
      KeepsFinished d (slots.foldl (captureSlot top) d) ∧
      ((slots.foldl (captureSlot top) d).threads top).yieldBottom =
        (d.threads top).yieldBottom := by
  induction slots generalizing d with
  | nil => exact ⟨h, KeepsFinished.refl d, rfl⟩
  | cons slot slots ih =>
      obtain ⟨hchain', -, hrun'⟩ := captureSlots_sound hchain hrun [slot]
      have hstep : Staged (captureSlot top d slot) top below ∧
          KeepsFinished d (captureSlot top d slot) ∧
          ((captureSlot top d slot).threads top).yieldBottom = (d.threads top).yieldBottom := by
        unfold captureSlot
        simp only
        split
        · exact ⟨h, KeepsFinished.refl d, rfl⟩
        · have hnot := not_finished_of_normal hrun.status
          refine ⟨(h.setTop hchain ?_).withCells _ _, ⟨Nat.le_refl _, fun t ht hmain hf => ?_⟩, ?_⟩
          · exact h.top
          · have heq : t ≠ top := by
              rintro rfl
              exact absurd hf hnot
            refine ⟨?_, id⟩
            show Finished ((d.setThread top _).threads t)
            rwa [d.setThread_of_ne heq]
          · show ((d.setThread top _).threads top).yieldBottom = _
            rw [d.setThread_self]
      obtain ⟨hstaged, hkeeps, hsite⟩ := hstep
      obtain ⟨hstaged', hkeeps', hsite'⟩ := ih hstaged hchain' hrun'
      exact ⟨hstaged', hkeeps.trans hkeeps', hsite'.trans hsite⟩

theorem afterHandler_kept (h : Staged d top below) (hchain : Chain d top below)
    (hnot : ¬ Finished (d.threads top)) {ts : ThreadState} (hsite : ts.yieldBottom = none)
    {r : VmResult} (hactive : VmActive r) (hr : VmKeeps ts r) :
    (d.afterHandler top r).KeptFrom d := by
  cases r with
  | none => trivial
  | some x =>
      obtain ⟨flow, ts', cells⟩ := x
      obtain ⟨hraise, -⟩ := hactive flow ts' cells rfl
      have hsite' := (hr flow ts' cells rfl).yieldBottom.trans hsite
      cases flow with
      | dispatch pc =>
          exact kept_store h hchain hnot cells
            (onStage_of_site ((savePc_keeps ts' pc).yieldBottom.trans hsite'))
      | exit => exact kept_store h hchain hnot cells (onStage_of_site hsite')
      | raise => exact absurd rfl hraise

/-- **An instruction** of the frame that runs. -/
theorem execInstr_kept (h : Staged d top below) (hchain : Chain d top below) {lf : LuaFrame}
    {rest : List Frame} (hrun : RunsLua (d.threads top) lf rest)
    (hsite : (d.threads top).yieldBottom = none) (instr : Instr) :
    (execInstr d top lf instr).KeptFrom d := by
  have hnot := not_finished_of_normal hrun.status
  -- the driven thread goes on, in a driver it has changed
  have hgo : ∀ (d' : Driver) (ts : ThreadState) (pc : ℕ), Staged d' top below →
      Chain d' top below → KeepsFinished d d' → ¬ Finished (d'.threads top) →
      ts.yieldBottom = none → (d'.goOn top ts pc).KeptFrom d := by
    intro d' ts pc hstaged hchain' hkeeps hnot' hts
    exact Kept.of_keepsFinished hkeeps (kept_setTop hstaged hchain' hnot'
      (onStage_of_site ((savePc_keeps ts pc).yieldBottom.trans hts)))
  have hgoSelf : ∀ (ts : ThreadState) (pc : ℕ), ts.yieldBottom = none →
      (d.goOn top ts pc).KeptFrom d := fun ts pc hts =>
    hgo d ts pc h hchain (KeepsFinished.refl d) hnot hts
  -- a handler that calls a function
  have hcall : ∀ (callee : Callee) (r : VmResult), VmActive r → VmKeeps (d.threads top) r →
      ((callee.applied top d).afterHandler top r).KeptFrom d := by
    intro callee r hactive hkeeps
    obtain ⟨hstaged, hfinished, hsame⟩ := applied_staged h hchain callee
    refine keptFrom_trans hfinished (afterHandler_kept hstaged (hchain.applied callee).1 ?_ hsite
      hactive hkeeps)
    rwa [hsame]
  cases instr with
  | registers size writes top' pc => exact hgoSelf _ pc hsite
  | getUpvalue dst uv pc =>
      simp only [execInstr]
      split
      · exact hgoSelf _ pc hsite
      · trivial
  | setUpvalue uv v pc =>
      simp only [execInstr]
      split
      · next d' hwrite =>
          obtain ⟨hstaged, hkeeps, hstatus', hsite'⟩ := writeUpvalue_staged h hwrite
          obtain ⟨hchain', -, -⟩ := writeUpvalue_sound hchain hrun hwrite
          exact hgo d' _ pc hstaged hchain' hkeeps
            (not_finished_of_normal (hstatus'.trans hrun.status)) (hsite'.trans hsite)
      · trivial
  | closure dst g captures pc =>
      obtain ⟨hstaged, hkeeps, hsite'⟩ :=
        captureSlots_staged h hchain hrun (captures.map (lf.base + ·))
      obtain ⟨hchain', -, hrun'⟩ :=
        captureSlots_sound hchain hrun (captures.map (lf.base + ·))
      exact hgo _ _ pc hstaged hchain' hkeeps (not_finished_of_normal hrun'.status)
        (hsite'.trans hsite)
  | varargPrep pc => exact hgoSelf _ pc ((varargPrep_keeps _ _).yieldBottom.trans hsite)
  | setlist table count pc =>
      simp only [execInstr]
      split
      · next ts' hset =>
          obtain ⟨s, rfl, -⟩ := opSetlist_spec hset
          exact hgoSelf _ pc hsite
      · trivial
  | close start pc =>
      simp only [execInstr]
      split
      · next r hclose =>
          obtain ⟨v, -, rfl⟩ := Option.map_eq_some_iff.1 hclose
          exact kept_store h hchain hnot _ (onStage_of_site
            ((savePc_keeps _ pc).yieldBottom.trans hsite))
      · trivial
  | tbc val pc => exact hgoSelf _ pc hsite
  | raise =>
      refine ⟨h.kept hchain.stack, fun top' below' hstack => ?_⟩
      obtain ⟨rfl, -⟩ := List.cons.inj (hchain.stack.symm.trans hstack)
      rintro ⟨wt, rest', hframes⟩
      exact absurd (hrun.frames.symm.trans hframes) (by simp)
  | call ip func nargs returns callee =>
      exact hcall callee _ (hrun.opCall_active _ _ _ _ _ _) (opCall_keeps _ _ _ _ _ _ _)
  | tailcall func nargs callee =>
      exact hcall callee _ (hrun.opTailcall_active _ _ _ _) (opTailcall_keeps _ _ _ _ _)
  | ret values count =>
      exact afterHandler_kept h hchain hnot hsite (hrun.opReturn_active _ _ _)
        (opReturn_keeps _ _ _ _)
  | metamethod ip metaFn args payload callee crossing =>
      exact hcall callee _ (hrun.invokeMetamethod_active _ _ _ _ _ _ _)
        (invokeMetamethod_keeps _ _ _ _ _ _ _ _)

/-- **The first call of a thread.** -/
theorem startFrame_kept (h : Staged d top below) (hchain : Chain d top below)
    (hnot : ¬ Finished (d.threads top)) (hsite : (d.threads top).yieldBottom = none)
    (f : FunctionId) (rest : List Frame) (callee : Callee) :
    (startFrame d top f rest callee).KeptFrom d := by
  refine applied_kept h hchain hnot callee fun ts hcall => onStage_of_site ?_
  obtain ⟨u, hu, rfl⟩ := Option.map_eq_some_iff.1 hcall
  have hu' : u.yieldBottom = none := (callAt_keeps hu).yieldBottom.trans hsite
  split
  · exact hu'
  · exact hu'

/-! ### An iteration -/

/-- The choices of an iteration that keep the reports right: a coroutine that is resumed is
suspended, and no coroutine lets an error escape. -/
def LifeIterationGuard (d : Driver) (top : ThreadId) (below : List ThreadId) (c : Choice) : Prop :=
  let ts := d.threads top
  ts.status = ThreadStatus.normal →
    match ts.pendingAction, ts.frames with
    | some p, _ => ActionGuard d ts p c.callee ∧
        ∀ target, p.action.resumes = some target →
          (d.threads target).status = ThreadStatus.suspended
    | none, Frame.sequence seq cs e :: rest =>
        PollGuard d { ts with frames := rest } cs
            (pollSequence seq e (ts.stack.drop cs.bottom) c.poll) c.callee ∧
          ∀ target, (pollSequence seq e (ts.stack.drop cs.bottom) c.poll).resumes = some target →
            (d.threads target).status = ThreadStatus.suspended
    | none, Frame.error _ :: rest => below ≠ [] → ∃ seq cs e, Frame.sequence seq cs e ∈ rest
    | none, Frame.lua _ :: _ => below ≠ [] → c.instr ≠ Instr.raise
    | none, _ => True

/-- Draining an action, or pumping the top frame. -/
theorem drive_kept (h : Staged d top below) (hchain : Chain d top below)
    (hactive : Active (d.threads top)) (hsite : (d.threads top).yieldBottom = none)
    (hstatus : (d.threads top).status = ThreadStatus.normal ∨
      (d.threads top).status = ThreadStatus.suspended) (c : Choice)
    (hguard : LifeIterationGuard d top below c) : (drive d top below c).KeptFrom d := by
  have hnot : ¬ Finished (d.threads top) := by
    rcases hstatus with hs | hs
    · exact not_finished_of_normal hs
    · exact fun hf => hf.not_suspended hs
  unfold Active at hactive
  generalize hframes : (d.threads top).frames = frames, hs : (d.threads top).status = status,
    hp : (d.threads top).pendingAction = pending, hy : (d.threads top).yieldBottom = y at hactive
  unfold drive pumpFrame
  cases hactive with
  | seeded hseeded =>
      simp only [hp, hframes]
      exact startFrame_kept h hchain hnot hsite _ _ _
  | running hplain hne hret =>
      have hguard := hguard hs
      cases pending with
      | some p =>
          simp only [hp] at hguard ⊢
          refine keptFrom_trans (keepsFinished_setThread fun hf => absurd hf hnot)
            (applyPendingAction_kept (h.setTop hchain (onStage_of_site (by exact hsite)))
              (hchain.setTop _) ?_ ?_ ?_ fun target htarget => ?_)
          · rw [d.setThread_self]
            show PlainFrames (d.threads top).frames
            rwa [hframes]
          · rw [d.setThread_self]
            exact hs
          · rw [d.setThread_self]
            exact hsite
          · have hsusp := hguard.2 target htarget
            have hne' : target ≠ top := by
              rintro rfl
              exact absurd (hs.symm.trans hsusp) (by simp)
            rw [d.setThread_of_ne hne']
            exact hsusp
      | none =>
          have hne := hne.resolve_right (by simp)
          cases frames with
          | nil => exact absurd rfl hne
          | cons fr rest =>
              obtain ⟨hfr, hrest⟩ := plainFrames_cons.1 hplain
              cases fr with
              | lua lf =>
                  simp only [hp, hframes]
                  exact execInstr_kept h hchain ⟨hframes, hrest, hs, hp⟩ hsite c.instr
              | sequence seq cs e =>
                  have hpoll : ∀ target,
                      (pollSequence seq e ((d.threads top).stack.drop cs.bottom)
                        c.poll).resumes = some target →
                        (d.threads target).status = ThreadStatus.suspended := by
                    simp only [hp, hframes] at hguard
                    exact hguard.2
                  simp only [hp, hframes]
                  exact pumpSequence_kept h hchain hnot (by exact hrest) (by exact hs)
                    (by exact hsite) hs seq cs e c.poll c.callee (by exact hpoll)
              | start f => exact absurd hfr id
              | waitThread wt => exact absurd hfr id
              | error e => exact absurd hfr id
  | failing hplain =>
      have hguard := hguard hs
      simp only [hp, hframes] at hguard ⊢
      exact unwindError_kept h hchain hs hsite _ hplain hguard
  | parked hplain => exact absurd (hy.symm.trans hsite) (by simp)
  | finished =>
      rcases hstatus with hn | hn
      · exact absurd (hs.symm.trans hn) (by simp)
      · exact absurd (hs.symm.trans hn) (by simp)
  | stopped =>
      rcases hstatus with hn | hn
      · exact absurd (hs.symm.trans hn) (by simp)
      · exact absurd (hs.symm.trans hn) (by simp)

theorem Active.not_awaits {ts : ThreadState} (h : Active ts) : ¬ Awaits ts := by
  rintro ⟨wt, rest, hframes⟩
  unfold Active at h
  rw [hframes] at h
  generalize ts.status = status, ts.pendingAction = pending, ts.yieldBottom = y at h
  cases h with
  | running hplain => exact absurd (plainFrames_cons.1 hplain).1 id
  | parked hplain => exact absurd (plainFrames_cons.1 hplain).1 id

/-- **An iteration** keeps the threads in their places. -/
theorem iterate_kept (h : Staged d top below) (hchain : Chain d top below)
    (hactive : Active (d.threads top)) (c : Choice)
    (hguard : LifeIterationGuard d top below c) : (iterate d c).KeptFrom d := by
  have hself := h.kept hchain.stack
  have hrest : ∀ top' below', d.threadStack = top' :: below' → ¬ Awaits (d.threads top') := by
    intro top' below' hstack
    obtain ⟨rfl, -⟩ := List.cons.inj (hchain.stack.symm.trans hstack)
    exact hactive.not_awaits
  have hmode : ∀ mode, Kept d { d with mode := mode } := fun mode =>
    ⟨fun top' below' hstack => by
      obtain ⟨hidle, hwaiting, htop⟩ := hself.staged top' below' hstack
      exact ⟨hidle, hwaiting, htop⟩, Nat.le_refl _, fun _ _ _ hf => ⟨hf, id⟩⟩
  unfold iterate
  cases hbelow : below with
  | nil =>
      rw [hbelow] at h hchain hguard
      have hstack := hchain.stack
      simp only [hstack]
      cases hstatus : (d.threads top).status with
      | result bottom =>
          rw [← hstack]
          exact ⟨hmode _, hrest⟩
      | stopped => exact ⟨hself, hrest⟩
      | suspended =>
          simp only
          split
          · split
            · rw [← hstack]
              exact ⟨hmode _, hrest⟩
            · trivial
          · next hyield => exact drive_kept h hchain hactive hyield (Or.inr hstatus) c hguard
      | normal =>
          have hyield : (d.threads top).yieldBottom = none := by
            rcases h.top with hnone | ⟨hs, -⟩ | ⟨-, hs | hs⟩
            · exact hnone
            · exact absurd (hstatus.symm.trans hs) (by simp)
            · exact absurd (hstatus.symm.trans hs) (by simp)
            · exact absurd (hstatus.symm.trans hs) (by simp)
          exact drive_kept h hchain hactive hyield (Or.inl hstatus) c hguard
  | cons resumer below' =>
      rw [hbelow] at h hchain hguard
      have hstack := hchain.stack
      simp only [hstack]
      cases hstatus : (d.threads top).status with
      | result bottom =>
          exact propagate_kept hchain h hactive (by rw [hstatus]; simp) bottom false
      | stopped => exact ⟨hself, hrest⟩
      | suspended => exact propagate_kept hchain h hactive (by rw [hstatus]; simp) _ true
      | normal =>
          have hyield : (d.threads top).yieldBottom = none := by
            rcases h.top with hnone | ⟨hs, -⟩ | ⟨hnil, -⟩
            · exact hnone
            · exact absurd (hstatus.symm.trans hs) (by simp)
            · exact absurd hnil (List.cons_ne_nil _ _)
          exact drive_kept h hchain hactive hyield (Or.inl hstatus) c hguard

end Arms

end Tcvm
