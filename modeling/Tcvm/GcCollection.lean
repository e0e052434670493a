/-
The loop of the collector.

`do_collection` runs units of marking and of sweeping, and moves from one phase to the next.  What
one turn of its loop can do is said once, in `TurnStep`; everything that is proved about the loop is
proved from that.

* `Context.TurnStep`, `Context.turn_spec` — **one turn of the loop**, which does not fail;
* `Context.TurnStep.sound` — a turn keeps the invariant;
* `Context.Turns`, `Context.doCollection_spec` — **a collection does not fail**, and is a run of
  turns.
-/

import Tcvm.GcMarking
import Tcvm.GcSweeping

namespace Tcvm.Dmm

open ListSegment

/-- The context behind a turn. -/
def Turn.context : Turn → Context
  | .goOn _ cx | .stop cx | .panicked cx => cx

namespace Context

/-! ### One turn -/

/-- The sweep begins. -/
def startSweep (cx : Context) : Context := { cx with phase := .sweep, sweep := cx.all }

/-- The cycle ends. -/
def endCycle (cx : Context) : Context :=
  { cx with
    sweepPrev := none, metrics := .finished :: cx.metrics, rootNeedsTrace := true, phase := .sleep }

/-- What one turn of the loop does, with the boxes behind the sweep and before it. -/
inductive TurnStep (root : List Pointer) (stop : Stop) (hasSlept : Bool) (cx : Context)
    (swept unswept : List GcBox) : Turn → List GcBox → List GcBox → Prop
  | wake (hphase : cx.phase = .sleep) :
      TurnStep root stop hasSlept cx swept unswept (.goOn true { cx with phase := .mark })
        swept unswept
  | mark (hphase : cx.phase = .mark) {cx' : Context} (hmarked : MarkedOne root swept cx .goOn cx') :
      TurnStep root stop hasSlept cx swept unswept (.goOn hasSlept cx') swept unswept
  | panic (hphase : cx.phase = .mark) {cx' : Context}
      (hmarked : MarkedOne root swept cx .panicked cx') :
      TurnStep root stop hasSlept cx swept unswept (.panicked cx') swept unswept
  | marked (hphase : cx.phase = .mark) (hgray : cx.grayRemaining = false)
      (hstop : stop ≤ .fullyMarked) :
      TurnStep root stop hasSlept cx swept unswept (.stop cx) swept unswept
  | startSweep (hphase : cx.phase = .mark) (hgray : cx.grayRemaining = false)
      (hstop : ¬ stop ≤ .fullyMarked) :
      TurnStep root stop hasSlept cx swept unswept (.goOn hasSlept cx.startSweep) [] swept
  | atSweep (hphase : cx.phase = .sweep) (hstop : stop ≤ .atSweep) :
      TurnStep root stop hasSlept cx swept unswept (.stop cx) swept unswept
  | sweep (hphase : cx.phase = .sweep) (hstop : ¬ stop ≤ .atSweep) {p : GcBox}
      {rest swept' : List GcBox} {b : GcBoxInner} {cx' : Context} (hunswept : unswept = p :: rest)
      (hp : cx.heap p = some b) (hswept : SweptOne swept rest p b cx cx' swept') :
      TurnStep root stop hasSlept cx swept unswept (.goOn hasSlept cx') swept' rest
  | finish (hphase : cx.phase = .sweep) (hstop : ¬ stop ≤ .atSweep) (hunswept : unswept = []) :
      TurnStep root stop hasSlept cx swept unswept
        (if stop = .finishCycle ∨ hasSlept then .stop cx.endCycle else .goOn hasSlept cx.endCycle)
        swept []

/-- A collection that goes on behind the start of the sweep and is not to end with the cycle is a
full one. -/
theorem Stop.eq_full {stop : Stop} (hstop : ¬ stop ≤ .atSweep) (hne : stop ≠ .finishCycle) :
    stop = .full := by
  cases stop with
  | fullyMarked => exact absurd (by decide) hstop
  | atSweep => exact absurd (by decide) hstop
  | finishCycle => exact absurd rfl hne
  | full => rfl

variable {cx : Context} {root : List Pointer} {swept unswept : List GcBox}

/-- **One turn of the loop does not fail.** -/
theorem turn_spec (h : Sound cx root swept unswept) (stop : Stop) (hasSlept : Bool)
    (panics : Option ℕ) :
    ∃ t swept' unswept', cx.turn root stop panics hasSlept = some t ∧
      TurnStep root stop hasSlept cx swept unswept t swept' unswept' ∧
      (panics = none → ∀ cx', t ≠ .panicked cx') := by
  cases hphase : cx.phase with
  | sleep => exact ⟨_, _, _, by simp [turn, hphase], .wake hphase, by simp⟩
  | mark =>
      obtain rfl := h.layout.unswept_eq (by rw [hphase]; decide)
      obtain ⟨flow, cx', hmark, hmarked, hpanics⟩ :=
        markOne_spec h.marks hphase h.layout h.closed h.root panics
      cases flow with
      | goOn => exact ⟨_, _, _, by simp [turn, hphase, hmark], .mark hphase hmarked, by simp⟩
      | panicked =>
          exact ⟨_, _, _, by simp [turn, hphase, hmark], .panic hphase hmarked,
            fun hnone => absurd rfl (hpanics hnone)⟩
      | done =>
          obtain ⟨rfl, hgray, hagain, hroots⟩ := hmarked.done rfl
          have hremaining : cx'.grayRemaining = false := by
            simp [grayRemaining, hgray, hagain, hroots]
          by_cases hstop : stop ≤ .fullyMarked
          · exact ⟨_, _, _, by simp [turn, hphase, hmark, hstop], .marked hphase hremaining hstop,
              by simp⟩
          · exact ⟨_, _, _, by simp [turn, hphase, hmark, hstop, Context.startSweep],
              .startSweep hphase hremaining hstop, by simp⟩
  | sweep =>
      by_cases hstop : stop ≤ .atSweep
      · exact ⟨_, _, _, by simp [turn, hphase, hstop], .atSweep hphase hstop, by simp⟩
      · cases unswept with
        | nil =>
            have hsweep : cx.sweep = none := h.layout.rest
            refine ⟨_, _, _, ?_, .finish hphase hstop rfl, fun _ cx' => by split <;> simp⟩
            by_cases hfinish : stop = .finishCycle
            · subst hfinish
              simp [turn, hphase, hstop, sweepOne, hsweep, endCycle]
            · cases hasSlept with
              | false => simp [turn, hphase, hstop, sweepOne, hsweep, hfinish, endCycle]
              | true =>
                  obtain rfl := Stop.eq_full hstop hfinish
                  simp [turn, hphase, hstop, sweepOne, hsweep, endCycle]
        | cons p rest =>
            obtain ⟨b, hb⟩ := (h.layout.mem p).1 (by simp)
            obtain ⟨cx', swept', hsweep, hswept⟩ := sweepOne_spec h.layout h.marks hphase hb
            exact ⟨_, _, _, by simp [turn, hphase, hstop, hsweep],
              .sweep hphase hstop rfl hb hswept, by simp⟩
  | drop => exact absurd hphase h.marks.open'

/-! ### A turn keeps the invariant -/

/-- Marking that has nothing left to do. -/
theorem remaining_eq (hgray : cx.grayRemaining = false) :
    cx.gray = [] ∧ cx.grayAgain = [] ∧ cx.rootNeedsTrace = false := by
  simp only [grayRemaining, Bool.or_eq_false_iff, Bool.not_eq_false', List.isEmpty_iff] at hgray
  exact ⟨hgray.1.1, hgray.1.2, hgray.2⟩

/-- The collector wakes up: everything is white, so nothing has to be shaded yet. -/
theorem Sound.wake (h : Sound cx root swept unswept) (hphase : cx.phase = .sleep) :
    Sound { cx with phase := .mark } root swept unswept := by
  have hnot : cx.phase ≠ .mark := by rw [hphase]; decide
  have hsweep : cx.phase ≠ .sweep := by rw [hphase]; decide
  obtain rfl := h.layout.unswept_eq hsweep
  have hall : ∀ p b, cx.heap p = some b → b.color = .white := by
    intro p b hb
    have hmem : p ∈ swept := by simpa using (h.layout.mem p).2 ⟨b, hb⟩
    exact h.marks.settled hnot p hmem b hb
  have hprev := h.layout.prev
  rw [if_neg hsweep] at hprev
  refine ⟨⟨h.layout.front, h.layout.rest, h.layout.mem, hprev, fun _ => h.layout.idle hsweep⟩,
    ⟨h.marks.grays, h.marks.nodup, h.marks.live, fun hne => absurd rfl hne,
      fun hne => absurd rfl hne, fun _ p b hb hcolor => ?_, fun _ hroots => ?_,
      fun hsleep => absurd hsleep (by simp), by simp⟩, ⟨h.closed.value, h.closed.leaf⟩, h.root⟩
  · rw [hall p b hb] at hcolor
    exact absurd hcolor (by decide)
  · exact absurd ((h.marks.rest hphase).symm.trans hroots) (by decide)

/-- Everything is shaded: what was safe to hold is so when the sweep begins. -/
theorem Sound.shaded_safe (h : Sound cx root swept unswept)
    (hgray : cx.grayRemaining = false) {q : Pointer} (hq : cx.Shaded q) :
    cx.startSweep.Safe swept q := by
  obtain ⟨hqueue, hagain, -⟩ := remaining_eq hgray
  have hnone : ∀ p b, cx.heap p = some b → b.color ≠ .gray := by
    intro p b hb hcolor
    have hmem := (h.marks.grays p).2 ⟨b, hb, hcolor⟩
    rw [hqueue, hagain] at hmem
    simp at hmem
  cases q with
  | gc p =>
      obtain ⟨b, hb, hrank⟩ := hq
      have hcolor : b.color = .black := by
        have hne := hnone p b hb
        cases hc : b.color <;> simp_all
      exact ⟨b, hb, h.marks.live p b hb hrank, fun _ => hcolor⟩
  | weak p =>
      obtain ⟨b, hb, hrank⟩ := hq
      exact ⟨b, hb, fun _ hcolor => by rw [hcolor] at hrank; exact absurd hrank (by simp)⟩

/-- **The sweep begins**: what marking has not reached is lost, and nothing that is kept points
to it. -/
theorem Sound.startSweep (h : Sound cx root swept unswept) (hphase : cx.phase = .mark)
    (hgray : cx.grayRemaining = false) : Sound cx.startSweep root [] swept := by
  have hsweep : cx.phase ≠ .sweep := by rw [hphase]; decide
  obtain rfl := h.layout.unswept_eq hsweep
  obtain ⟨hqueue, hagain, hroots⟩ := remaining_eq hgray
  have hfront := h.layout.front
  rw [h.layout.idle hsweep] at hfront
  have hprev := h.layout.prev
  rw [if_neg hsweep] at hprev
  refine ⟨⟨rfl, hfront, fun p => by simpa [Context.startSweep] using h.layout.mem p,
      by simpa [Context.startSweep] using hprev,
      fun hne => absurd rfl hne⟩,
    ⟨h.marks.grays, h.marks.nodup, h.marks.live, fun _ => ⟨hqueue, hagain⟩, by simp,
      fun hmark => absurd hmark (by simp [Context.startSweep]),
      fun hmark => absurd hmark (by simp [Context.startSweep]),
      fun hsleep => absurd hsleep (by simp [Context.startSweep]), by simp [Context.startSweep]⟩,
    ⟨fun p b hb hstrong q hq => ?_, h.closed.leaf⟩, fun q hq => ?_⟩
  · obtain ⟨b', hb', -, hcolor⟩ := hstrong
    obtain rfl := Option.some.inj (hb.symm.trans hb')
    have hmem : p ∈ swept := by simpa using (h.layout.mem p).2 ⟨b, hb⟩
    exact h.shaded_safe hgray
      (h.marks.tricolor hphase p b hb (hcolor hmem) (by simp) q hq)
  · exact h.shaded_safe hgray (h.marks.root hphase hroots q hq)

/-- The cycle ends: all boxes are behind the sweep, and white. -/
theorem Sound.endCycle (h : Sound cx root swept []) (hphase : cx.phase = .sweep) :
    Sound cx.endCycle root swept [] := by
  have hnot : cx.phase ≠ .mark := by rw [hphase]; decide
  have hsweep : cx.sweep = none := h.layout.rest
  exact ⟨⟨h.layout.front, h.layout.rest, h.layout.mem, rfl, fun _ => hsweep⟩,
    ⟨h.marks.grays, h.marks.nodup, h.marks.live, fun _ => h.marks.quiet hnot,
      fun _ => h.marks.settled hnot, fun hmark => absurd hmark (by simp [Context.endCycle]),
      fun hmark => absurd hmark (by simp [Context.endCycle]), fun _ => rfl,
      by simp [Context.endCycle]⟩, ⟨h.closed.value, h.closed.leaf⟩, h.root⟩

/-- Marking changes no more than colours. -/
theorem Sound.markedOne (h : Sound cx root swept unswept) (hphase : cx.phase = .mark)
    {flow : Flow} {cx' : Context} (hmarked : MarkedOne root swept cx flow cx') :
    Sound cx' root swept unswept := by
  obtain rfl := h.layout.unswept_eq (by rw [hphase]; decide)
  exact ⟨hmarked.layout h.layout, hmarked.marks, hmarked.closed h.closed,
    fun q hq => hmarked.safe (h.root q hq)⟩

/-- **A turn keeps the invariant.** -/
theorem TurnStep.sound {stop : Stop} {hasSlept : Bool} {t : Turn} {swept' unswept' : List GcBox}
    (hstep : TurnStep root stop hasSlept cx swept unswept t swept' unswept')
    (h : Sound cx root swept unswept) : Sound t.context root swept' unswept' := by
  cases hstep with
  | wake hphase => exact h.wake hphase
  | mark hphase hmarked => exact h.markedOne hphase hmarked
  | panic hphase hmarked => exact h.markedOne hphase hmarked
  | marked => exact h
  | startSweep hphase hgray _ => exact h.startSweep hphase hgray
  | atSweep => exact h
  | sweep hphase _ hunswept hp hswept =>
      subst hunswept
      have hgray := h.marks.not_gray (by rw [hphase]; decide) hp
      exact ⟨hswept.layout, hswept.marks hp hphase h.marks, hswept.closed hp hgray h.closed,
        fun q hq => hswept.safe hp (h.root q hq)⟩
  | finish hphase _ hunswept =>
      subst hunswept
      have hend := h.endCycle hphase
      split
      · exact hend
      · exact hend

/-! ### The loop -/

/-- One turn of some collection takes a context to another. -/
inductive Turns (root : List Pointer) (cx cx' : Context) : Prop
  | turn {stop : Stop} {hasSlept : Bool} {swept unswept swept' unswept' : List GcBox} {t : Turn}
      (hsound : Sound cx root swept unswept)
      (hstep : TurnStep root stop hasSlept cx swept unswept t swept' unswept')
      (hcontext : t.context = cx')

/-- A context that some cut of its list makes sound. -/
def IsSound (cx : Context) (root : List Pointer) : Prop :=
  ∃ swept unswept, Sound cx root swept unswept

theorem Turns.isSound {cx' : Context} (h : Turns root cx cx') : IsSound cx' root := by
  obtain ⟨hsound, hstep, rfl⟩ := h
  exact ⟨_, _, hstep.sound hsound⟩

/-- The outcome of a loop, where it has one, is good; a fault is not. -/
def Outcome.Holds {α : Type} (P : α → Prop) : Outcome α → Prop
  | .done a | .panicked a => P a
  | .fault => False
  | .timeout => True

theorem Outcome.Holds.mono {α : Type} {P Q : α → Prop} {o : Outcome α} (h : Outcome.Holds P o)
    (himp : ∀ a, P a → Q a) : Outcome.Holds Q o := by
  cases o with
  | done a => exact himp a h
  | panicked a => exact himp a h
  | fault => exact h
  | timeout => trivial

theorem collectLoop_spec (h : IsSound cx root) (runUntil : RunUntil) (stop : Stop) (rounds : ℕ)
    (ticks : ℕ → Tick) (hasSlept : Bool) :
    Outcome.Holds (Relation.ReflTransGen (Turns root) cx)
      (collectLoop root runUntil stop rounds ticks hasSlept cx) := by
  induction rounds generalizing cx ticks hasSlept with
  | zero => trivial
  | succ rounds ih =>
      obtain ⟨swept, unswept, hsound⟩ := h
      obtain ⟨t, swept', unswept', hturn, hstep, -⟩ :=
        turn_spec hsound stop hasSlept (ticks 0).panics
      have hone : Turns root cx t.context := .turn hsound hstep rfl
      rw [collectLoop, hturn]
      cases t with
      | stop cx' => exact .single hone
      | panicked cx' => exact .single hone
      | goOn hasSlept' cx' =>
          have hrest : Outcome.Holds (Relation.ReflTransGen (Turns root) cx') _ :=
            ih hone.isSound (fun n => ticks (n + 1)) hasSlept'
          dsimp only
          split
          · exact .single hone
          · exact hrest.mono fun _ hrun => .head hone hrun

/-- **A collection does not fail**, and where it ends it has run turns of its loop. -/
theorem doCollection_spec (h : IsSound cx root) (runUntil : RunUntil) (stop : Stop) (rounds : ℕ)
    (ticks : ℕ → Tick) :
    Outcome.Holds (Relation.ReflTransGen (Turns root) cx)
      (cx.doCollection root runUntil stop rounds ticks) := by
  rw [doCollection]
  split
  · exact Relation.ReflTransGen.refl
  · exact collectLoop_spec h runUntil stop rounds _ false

end Context

end Tcvm.Dmm
