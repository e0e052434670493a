/-
A collection ends, where it is told to.

Marking blackens a box with every unit of its work, and sweeping takes a box off the list that it
has before it; a collection runs through the phases at most once and a half.  Where it is to run to
a stop and nothing panics, it is at the stop when it ends.

* `Context.phasesLeft`, `Context.workLeft` — the work that is left, phase by phase;
* `Context.collectLoop_ends` — the loop ends;
* `Context.Ended` — a cycle has ended;
* `Context.Promised`, `Context.collectLoop_promised` — where it ends;
* `Arena.collection_ends` — **every collection of every reachable arena ends, at its stop**.
-/

import Tcvm.GcSafety

namespace Tcvm.Dmm

namespace Context

variable {cx : Context} {root : List Pointer} {swept unswept : List GcBox}

/-! ### The loop ends -/

/-- The phases that a collection has before it: it ends in the sweep of a cycle it has begun. -/
def phasesLeft (cx : Context) (hasSlept : Bool) : ℕ :=
  match cx.phase, hasSlept with
  | .mark, false => 4
  | .sweep, false => 3
  | .sleep, _ => 2
  | .mark, true => 1
  | .sweep, true => 0
  | .drop, _ => 0

/-- The work that is left in a phase. -/
def workLeft (cx : Context) (swept unswept : List GcBox) : ℕ :=
  match cx.phase with
  | .mark => cx.pending swept
  | .sweep => unswept.length
  | .sleep | .drop => 0

/-- A turn behind which the loop goes on leaves less to do. -/
theorem TurnStep.less {stop : Stop} {hasSlept hasSlept' : Bool} {cx' : Context}
    {swept' unswept' : List GcBox}
    (hstep : TurnStep root stop hasSlept cx swept unswept (.goOn hasSlept' cx') swept' unswept') :
    cx'.phasesLeft hasSlept' < cx.phasesLeft hasSlept ∨
      (cx'.phasesLeft hasSlept' = cx.phasesLeft hasSlept ∧
        cx'.workLeft swept' unswept' < cx.workLeft swept unswept) := by
  generalize ht : Turn.goOn hasSlept' cx' = t at hstep
  cases hstep with
  | wake hphase =>
      obtain ⟨rfl, rfl⟩ := Turn.goOn.inj ht
      exact Or.inl (by simp [phasesLeft, hphase])
  | mark hphase hmarked =>
      obtain ⟨rfl, rfl⟩ := Turn.goOn.inj ht
      have hphase' := hmarked.phase.trans hphase
      exact Or.inr ⟨by simp [phasesLeft, hphase, hphase'],
        by simpa [workLeft, hphase, hphase'] using hmarked.progress rfl⟩
  | panic => exact absurd ht (by simp)
  | marked => exact absurd ht (by simp)
  | startSweep hphase =>
      obtain ⟨rfl, rfl⟩ := Turn.goOn.inj ht
      exact Or.inl (by cases hasSlept' <;> simp [phasesLeft, hphase, Context.startSweep])
  | atSweep => exact absurd ht (by simp)
  | sweep hphase _ hunswept _ hswept =>
      obtain ⟨rfl, rfl⟩ := Turn.goOn.inj ht
      exact Or.inr ⟨by simp [phasesLeft, hphase, hswept.phase],
        by simp [workLeft, hphase, hswept.phase, hunswept]⟩
  | finish hphase =>
      split at ht
      · exact absurd ht (by simp)
      · next hgo =>
          obtain ⟨rfl, rfl⟩ := Turn.goOn.inj ht
          have hslept : hasSlept' = false := by
            cases hasSlept' with
            | false => rfl
            | true => exact absurd (Or.inr rfl) hgo
          exact Or.inl (by simp [phasesLeft, hphase, hslept, Context.endCycle])

/-- **The loop ends**, and more rounds do not change where. -/
theorem collectLoop_ends (h : Sound cx root swept unswept) (runUntil : RunUntil) (stop : Stop)
    (ticks : ℕ → Tick) (hasSlept : Bool) :
    ∃ rounds out, out ≠ .timeout ∧ ∀ rounds', rounds ≤ rounds' →
      collectLoop root runUntil stop rounds' ticks hasSlept cx = out := by
  -- the induction is on the phases that are left, and in a phase on the work that is left
  generalize hphases : cx.phasesLeft hasSlept = phases
  generalize hwork : cx.workLeft swept unswept = work
  induction phases using Nat.strong_induction_on generalizing cx swept unswept ticks hasSlept work
  next phases ihphases =>
  induction work using Nat.strong_induction_on generalizing cx swept unswept ticks hasSlept
  next work ihwork =>
  obtain ⟨t, swept', unswept', hturn, hstep, -⟩ := turn_spec h stop hasSlept (ticks 0).panics
  have hsound := hstep.sound h
  cases t with
  | stop cx' =>
      refine ⟨1, .done cx', by simp, fun rounds hle => ?_⟩
      obtain ⟨rounds, rfl⟩ := Nat.exists_eq_add_of_le' hle
      rw [collectLoop, hturn]
  | panicked cx' =>
      refine ⟨1, .panicked cx', by simp, fun rounds hle => ?_⟩
      obtain ⟨rounds, rfl⟩ := Nat.exists_eq_add_of_le' hle
      rw [collectLoop, hturn]
  | goOn hasSlept' cx' =>
      by_cases hpaid : runUntil = .payDebt ∧ (ticks 0).debt = false
      · refine ⟨1, .done cx', by simp, fun rounds hle => ?_⟩
        obtain ⟨rounds, rfl⟩ := Nat.exists_eq_add_of_le' hle
        rw [collectLoop, hturn]
        simp only [if_pos hpaid]
      · have hrest : ∃ rounds out, out ≠ Outcome.timeout ∧ ∀ rounds', rounds ≤ rounds' →
            collectLoop root runUntil stop rounds' (fun n => ticks (n + 1)) hasSlept' cx' =
              out := by
          rcases hstep.less with hlt | ⟨heq, hlt⟩
          · exact ihphases _ (hphases ▸ hlt) hsound _ hasSlept' rfl _ rfl
          · exact ihwork _ (hwork ▸ hlt) hsound _ hasSlept' (heq.trans hphases) rfl
        obtain ⟨rounds, out, hne, hout⟩ := hrest
        refine ⟨rounds + 1, out, hne, fun rounds' hle => ?_⟩
        obtain ⟨rounds', rfl⟩ := Nat.exists_eq_add_of_le' (by omega : 1 ≤ rounds')
        rw [collectLoop, hturn]
        simp only [if_neg hpaid]
        exact hout rounds' (by omega)

/-! ### Where it ends -/

/-- A cycle has ended since `cx`, and nothing has been recorded behind its end. -/
def Ended (cx cx' : Context) : Prop :=
  cx'.phase = .sleep ∧ ∃ new, cx'.metrics = .finished :: (new ++ cx.metrics)

/-- Where a collection that runs to a stop leaves a context: fully marked, at the beginning of the
sweep, or asleep behind the end of a cycle.  A stop that the sweep is past is no reason to do
anything. -/
def Promised (stop : Stop) (cx cx' : Context) : Prop :=
  match stop with
  | .fullyMarked =>
      if cx.phase = .sweep then cx' = cx else cx'.phase = .mark ∧ cx'.grayRemaining = false
  | .atSweep =>
      if cx.phase = .sweep then cx' = cx else cx'.phase = .sweep ∧ cx'.sweep = cx'.all
  | .finishCycle | .full => Ended cx cx'

theorem promised_iff {stop : Stop} {cx' : Context} (hstop : ¬ stop ≤ .atSweep) :
    Promised stop cx cx' ↔ Ended cx cx' := by
  cases stop with
  | fullyMarked | atSweep => exact absurd (by decide) hstop
  | finishCycle | full => exact Iff.rfl

/-- A turn that stops is where it should be, -/
theorem TurnStep.promised {stop : Stop} {hasSlept : Bool} {cx' : Context}
    {swept' unswept' : List GcBox}
    (hstep : TurnStep root stop hasSlept cx swept unswept (.stop cx') swept' unswept') :
    Promised stop cx cx' := by
  generalize ht : Turn.stop cx' = t at hstep
  cases hstep with
  | marked hphase hgray hstop =>
      obtain rfl := Turn.stop.inj ht
      cases stop with
      | fullyMarked => simp [Promised, hphase, hgray]
      | _ => exact absurd hstop (by decide)
  | atSweep hphase hstop =>
      obtain rfl := Turn.stop.inj ht
      cases stop with
      | finishCycle => exact absurd hstop (by decide)
      | full => exact absurd hstop (by decide)
      | _ => simp [Promised, hphase]
  | finish hphase hstop =>
      split at ht
      · obtain rfl := Turn.stop.inj ht
        exact (promised_iff hstop).2 ⟨rfl, [], rfl⟩
      · exact absurd ht (by simp)
  | _ => exact absurd ht (by simp)

/-- A turn only adds to what is recorded, -/
theorem TurnStep.recorded {stop : Stop} {hasSlept : Bool} {t : Turn} {swept' unswept' : List GcBox}
    (hstep : TurnStep root stop hasSlept cx swept unswept t swept' unswept') :
    ∃ new, t.context.metrics = new ++ cx.metrics := by
  cases hstep with
  | wake | marked | startSweep | atSweep => exact ⟨[], rfl⟩
  | mark _ hmarked | panic _ hmarked => exact ⟨[], hmarked.metrics⟩
  | sweep _ _ _ _ hswept => exact ⟨_, hswept.metrics⟩
  | finish =>
      refine ⟨[.finished], ?_⟩
      split <;> rfl

/-- and what is promised behind a turn is promised in front of it. -/
theorem TurnStep.promised_goOn {stop : Stop} {hasSlept hasSlept' : Bool} {cx' cx'' : Context}
    {swept' unswept' : List GcBox}
    (hstep : TurnStep root stop hasSlept cx swept unswept (.goOn hasSlept' cx') swept' unswept')
    (h : Promised stop cx' cx'') : Promised stop cx cx'' := by
  by_cases hstop : stop ≤ .atSweep
  · generalize ht : Turn.goOn hasSlept' cx' = t at hstep
    cases hstep with
    | wake hphase =>
        obtain ⟨-, rfl⟩ := Turn.goOn.inj ht
        cases stop with
        | fullyMarked | atSweep => simp_all [Promised]
        | _ => exact absurd hstop (by decide)
    | mark hphase hmarked =>
        obtain ⟨-, rfl⟩ := Turn.goOn.inj ht
        cases stop with
        | fullyMarked | atSweep => simp_all [Promised, hmarked.phase]
        | _ => exact absurd hstop (by decide)
    | startSweep hphase _ hmarks =>
        obtain ⟨-, rfl⟩ := Turn.goOn.inj ht
        cases stop with
        | fullyMarked => exact absurd (by decide) hmarks
        | atSweep =>
            obtain rfl : cx'' = cx.startSweep := h
            simp [Promised, hphase, Context.startSweep]
        | _ => exact absurd hstop (by decide)
    | sweep _ hnot | finish _ hnot => exact absurd hstop hnot
    | _ => exact absurd ht (by simp)
  · obtain ⟨hsleep, new', hnew'⟩ := (promised_iff hstop).1 h
    obtain ⟨new, hnew⟩ := hstep.recorded
    refine (promised_iff hstop).2 ⟨hsleep, new' ++ new, ?_⟩
    rw [hnew', List.append_assoc]
    exact congrArg (fun l => Event.finished :: (new' ++ l)) hnew

/-- **A loop that runs to a stop ends there**, where nothing panics. -/
theorem collectLoop_promised (h : IsSound cx root) (stop : Stop) (rounds : ℕ) (ticks : ℕ → Tick)
    (hpanics : ∀ n, (ticks n).panics = none) (hasSlept : Bool) :
    collectLoop root .stop stop rounds ticks hasSlept cx = .timeout ∨
      ∃ cx', collectLoop root .stop stop rounds ticks hasSlept cx = .done cx' ∧
        Promised stop cx cx' := by
  induction rounds generalizing cx ticks hasSlept with
  | zero => exact Or.inl rfl
  | succ rounds ih =>
      obtain ⟨swept, unswept, hsound⟩ := h
      obtain ⟨t, swept', unswept', hturn, hstep, hnone⟩ :=
        turn_spec hsound stop hasSlept (ticks 0).panics
      cases t with
      | stop cx' => exact Or.inr ⟨cx', by rw [collectLoop, hturn], hstep.promised⟩
      | panicked cx' => exact absurd rfl (hnone (hpanics 0) cx')
      | goOn hasSlept' cx' =>
          have hloop : collectLoop root .stop stop (rounds + 1) ticks hasSlept cx =
              collectLoop root .stop stop rounds (fun n => ticks (n + 1)) hasSlept' cx' := by
            rw [collectLoop, hturn]
            simp
          rw [hloop]
          rcases ih ⟨_, _, hstep.sound hsound⟩ _ (fun n => hpanics (n + 1)) hasSlept' with
            hout | ⟨cx'', hout, hpromised⟩
          · exact Or.inl hout
          · exact Or.inr ⟨cx'', hout, hstep.promised_goOn hpromised⟩

end Context

namespace Arena

open Context

/-- **Every collection of every reachable arena ends**, whatever its debt is and wherever a `trace`
panics; and one that runs to a stop ends there, where none does. -/
theorem collection_ends {a : Arena} (h : a.Reachable) (runUntil : RunUntil) (stop : Stop)
    (ticks : ℕ → Tick) :
    ∃ rounds out, out ≠ .timeout ∧ out ≠ .fault ∧
      (∀ rounds', rounds ≤ rounds' →
        a.context.doCollection a.root runUntil stop rounds' ticks = out) ∧
      (runUntil = .stop → (∀ n, (ticks n).panics = none) →
        ∃ cx, out = .done cx ∧ Promised stop a.context cx) := by
  obtain ⟨swept, unswept, hsound⟩ := reachable_isSound h
  by_cases hpaid : runUntil = .payDebt ∧ (ticks 0).debt = false
  · refine ⟨0, .done a.context, by simp, by simp, fun rounds _ => if_pos hpaid, fun hstop => ?_⟩
    exact absurd (hstop.symm.trans hpaid.1) (by simp)
  · obtain ⟨rounds, out, hne, hout⟩ :=
      collectLoop_ends hsound.context runUntil stop (fun n => ticks (n + 1)) false
    have hspec := collectLoop_spec ⟨swept, unswept, hsound.context⟩ runUntil stop rounds
      (fun n => ticks (n + 1)) false
    rw [hout rounds le_rfl] at hspec
    refine ⟨rounds, out, hne, fun hfault => ?_, fun rounds' hle => ?_, fun hstop hpanics => ?_⟩
    · rw [hfault] at hspec
      exact hspec
    · rw [doCollection, if_neg hpaid]
      exact hout rounds' hle
    · subst hstop
      rcases collectLoop_promised ⟨swept, unswept, hsound.context⟩ stop rounds
        (fun n => ticks (n + 1)) (fun n => hpanics (n + 1)) false with htimeout | ⟨cx, hdone, hp⟩
      · exact absurd ((hout rounds le_rfl).symm.trans htimeout) hne
      · exact ⟨cx, (hout rounds le_rfl).symm.trans hdone, hp⟩

/-- A cycle of an arena with a value that points to another. -/
theorem collection_ends_pair :
    ∃ rounds cx, pairArena.context.doCollection pairArena.root .stop .finishCycle rounds
      (fun _ => ⟨true, none⟩) = .done cx ∧ Ended pairArena.context cx := by
  obtain ⟨rounds, out, -, -, hout, hstop⟩ :=
    collection_ends pairArena_reachable .stop .finishCycle fun _ => ⟨true, none⟩
  obtain ⟨cx, rfl, hended⟩ := hstop rfl fun _ => rfl
  exact ⟨rounds, cx, hout rounds le_rfl, hended⟩

end Arena

end Tcvm.Dmm
