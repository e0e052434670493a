/-
Everything that happens to an arena keeps its invariant.

A callback holds what it has come by, and may write what its barriers allow; both are safe at any
time while it runs.  When it ends it holds nothing, and the collector may run.

* `Arena.Sound.hold`, `Arena.Sound.permit`, `Arena.Sound.mutates` — the parts of a callback's steps;
* `Arena.ActStep`, `Arena.act_spec` — **what a callback does**, which does not fail;
* `Arena.ActStep.sound` — it keeps the invariant;
* `Arena.perform_spec` — **whatever happens, no fault happens**;
* `Arena.reachable_isSound` — the invariant holds in every arena that a program can make.
-/

import Tcvm.GcCollection
import Tcvm.GcMutation

namespace Tcvm.Dmm

namespace Arena

open Context

variable {a : Arena} {swept unswept : List GcBox}

/-! ### What a callback holds -/

section Session

variable (a) (q r : Pointer) (kind : SessionKind) (permit : Permit)

theorem mem_held_hold (h : r ∈ (a.hold q).held) : r = q ∨ r ∈ a.held := by
  cases hs : a.session <;> simp_all [hold, held]

@[simp] theorem permits_hold : (a.hold q).permits = a.permits := by
  cases hs : a.session <;> simp [hold, permits, hs]

@[simp] theorem runs_hold : (a.hold q).Runs kind ↔ a.Runs kind := by
  cases hs : a.session <;> simp [hold, Runs, hs]

@[simp] theorem held_permit : (a.permit permit).held = a.held := by
  cases hs : a.session <;> simp [Arena.permit, held, hs]

theorem mem_permits_permit {permit' : Permit} (h : permit' ∈ (a.permit permit).permits) :
    permit' = permit ∨ permit' ∈ a.permits := by
  cases hs : a.session <;> simp_all [Arena.permit, permits]

@[simp] theorem runs_permit : (a.permit permit).Runs kind ↔ a.Runs kind := by
  cases hs : a.session <;> simp [Arena.permit, Runs, hs]

end Session

/-- The callback comes by a pointer that is safe. -/
theorem Sound.hold (h : a.Sound swept unswept) {q : Pointer} (hq : a.context.Safe unswept q) :
    (a.hold q).Sound swept unswept where
  context := h.context
  held := fun r hr => by
    rcases mem_held_hold a q r hr with rfl | hr
    · exact hq
    · exact h.held r hr
  granted := fun hphase permit hmem => h.granted hphase permit (by simpa using hmem)
  rooted := fun hruns => h.rooted (by simpa using hruns)
  finalizing := fun hruns => h.finalizing (by simpa using hruns)

/-- The callback has called a barrier. -/
theorem Sound.permit (h : a.Sound swept unswept) {permit : Permit}
    (hpermit : a.context.phase = .mark → ∀ p q, permit.covers p q → a.context.Granted p q) :
    (a.permit permit).Sound swept unswept where
  context := h.context
  held := fun r hr => h.held r (by simpa using hr)
  granted := fun hphase permit' hmem => by
    rcases mem_permits_permit a permit hmem with rfl | hmem
    · exact hpermit hphase
    · exact h.granted hphase permit' hmem
  rooted := fun hruns => h.rooted (by simpa using hruns)
  finalizing := fun hruns => h.finalizing (by simpa using hruns)

/-- The colours have changed, within a callback. -/
theorem Sound.mutates (h : a.Sound swept unswept) {targets : List Pointer} {cx : Context}
    (hmutates : Mutates a.root swept unswept targets a.context cx) :
    ({ a with context := cx } : Arena).Sound swept unswept where
  context := hmutates.sound
  held := fun q hq => hmutates.safe q (h.held q hq)
  granted := fun hphase permit hmem p q hcovers => hmutates.granted p q
    (h.granted (hmutates.phase.symm.trans hphase) permit hmem p q hcovers)
  rooted := fun hruns hphase => hmutates.rootNeedsTrace.trans
    (h.rooted hruns (hmutates.phase.symm.trans hphase))
  finalizing := fun hruns => hmutates.phase.trans (h.finalizing hruns)

/-- A value that may be held can be dereferenced. -/
theorem deref_eq {p : GcBox} (h : a.context.Strong unswept p) :
    ∃ b, a.deref p = some b ∧ a.context.heap p = some b := by
  obtain ⟨b, hb, hlive, -⟩ := h
  exact ⟨b, by simp [deref, hb, hlive], hb⟩

/-- A value is written, in a callback or outside. -/
theorem Sound.write (h : a.Sound swept unswept) {p : GcBox} {b : GcBoxInner}
    {value : List Pointer} (hp : a.context.heap p = some b)
    (hvalue : a.context.Strong unswept p → ∀ q ∈ value, a.context.Safe unswept q)
    (hleaf : b.needsTrace = false → value = [])
    (hshaded : a.context.phase = .mark → b.color = .black → ∀ q ∈ value, a.context.Shaded q) :
    ({ a with context := a.context.setBox p { b with value := value } } : Arena).Sound
      swept unswept where
  context := h.context.write hp hvalue hleaf hshaded
  held := fun q hq => (h.held q hq).write hp
  granted := fun hphase permit hmem r q hcovers =>
    (h.granted hphase permit hmem r q hcovers).write hp
  rooted := h.rooted
  finalizing := h.finalizing

/-! ### What a callback does -/

/-- How a callback comes by a pointer: from the root, from a value that it may read, or from a
pointer that it holds, made weak or upgraded. -/
inductive ComesBy (a : Arena) : Pointer → Prop
  | root {q : Pointer} (h : q ∈ a.root) : ComesBy a q
  | value {p : GcBox} {b : GcBoxInner} {q : Pointer} (hp : .gc p ∈ a.held)
      (hb : a.context.heap p = some b) (hq : q ∈ b.value) : ComesBy a q
  | downgrade {p : GcBox} (hp : .gc p ∈ a.held) : ComesBy a (.weak p)
  | upgrade {p : GcBox} (hp : .weak p ∈ a.held) : ComesBy a (.gc p)

/-- What one step of a callback, or at one of its ends, does to an arena. -/
inductive ActStep (a : Arena) (swept unswept : List GcBox) : Arena → Prop
  | stay : ActStep a swept unswept a
  | hold {q : Pointer} (hsafe : a.context.Safe unswept q) (hfrom : a.ComesBy q) :
      ActStep a swept unswept (a.hold q)
  | allocate {p : GcBox} {needsTrace : Bool} {value : List Pointer}
      (hfresh : a.context.heap p = none) (hvalue : ∀ q ∈ value, q ∈ a.held)
      (hleaf : needsTrace = false → value = []) :
      ActStep a swept unswept
        ({ a with context := a.context.allocate p needsTrace value }.hold (.gc p))
  | barrier {targets : List Pointer} {cx : Context} {permit : Permit}
      (htargets : ∀ q ∈ targets, q ∈ a.held)
      (hmutates : Mutates a.root swept unswept targets a.context cx)
      (hgranted : a.context.phase = .mark → ∀ p q, permit.covers p q → cx.Granted p q) :
      ActStep a swept unswept ({ a with context := cx }.permit permit)
  | resurrect {p : GcBox} {cx : Context} (hp : .gc p ∈ a.held ∨ .weak p ∈ a.held)
      (hmutates : Mutates a.root swept unswept [.gc p] a.context cx) :
      ActStep a swept unswept { a with context := cx }
  | resurrectWeak {p : GcBox} {cx : Context} (hp : .weak p ∈ a.held)
      (hstrong : a.context.Strong unswept p)
      (hmutates : Mutates a.root swept unswept [.gc p] a.context cx) :
      ActStep a swept unswept ({ a with context := cx }.hold (.gc p))
  | write {p : GcBox} {b : GcBoxInner} {value : List Pointer} (hp : a.context.heap p = some b)
      (hvalue : ∀ q ∈ value, q ∈ b.value ∨
        (q ∈ a.held ∧ (a.context.phase = .mark → a.context.Granted p q)))
      (hleaf : value ≠ [] → b.needsTrace = true) :
      ActStep a swept unswept
        { a with context := a.context.setBox p { b with value := value } }
  | storeRoot {root : List Pointer} (hruns : a.Runs .mutateRoot)
      (hroot : ∀ q ∈ root, q ∈ a.held ∨ q ∈ a.root) :
      ActStep a swept unswept { a with root := root }
  | enter {kind : SessionKind} (hnone : a.session = none)
      (hmarked : kind = .finalize → a.FullyMarked) :
      ActStep a swept unswept { a with
        context := if kind = .mutateRoot then a.context.rootBarrier else a.context
        session := some { kind := kind, held := [], permits := [] } }
  | leave : ActStep a swept unswept { a with session := none }

/-- **Whatever a callback does, it does not fail.** -/
theorem act_spec (h : a.Sound swept unswept) {action : Action} (hpermits : a.Permits action) :
    ∃ a', a.act action = some a' ∧ ActStep a swept unswept a' := by
  have hstrong : ∀ p, Pointer.gc p ∈ a.held → a.context.Strong unswept p := fun p => h.held _
  have hweak : ∀ p, Pointer.weak p ∈ a.held → a.context.Weak unswept p := fun p => h.held _
  cases action with
  | allocate p needsTrace value =>
      obtain ⟨-, hfresh, hvalue, hleaf⟩ := hpermits
      exact ⟨_, rfl, .allocate hfresh hvalue hleaf⟩
  | read p i =>
      have hp : Pointer.gc p ∈ a.held := hpermits
      obtain ⟨b, hderef, hb⟩ := deref_eq (hstrong p hp)
      cases hi : b.value[i]? with
      | none => exact ⟨a, by simp [act, hderef, hi], .stay⟩
      | some q =>
          have hmem := List.mem_of_getElem? hi
          exact ⟨a.hold q, by simp [act, hderef, hi],
            .hold (h.context.closed.value p b hb (hstrong p hp) q hmem) (.value hp hb hmem)⟩
  | readRoot q => exact ⟨_, rfl, .hold (h.context.root q hpermits.2) (.root hpermits.2)⟩
  | downgrade p => exact ⟨_, rfl, .hold (hstrong p hpermits).weak (.downgrade hpermits)⟩
  | upgrade p =>
      obtain ⟨ok, hup, hok⟩ := upgrade_spec h.context (hweak p hpermits)
      cases ok with
      | false => exact ⟨a, by simp [act, hup], .stay⟩
      | true => exact ⟨a.hold (.gc p), by simp [act, hup], .hold (hok rfl) (.upgrade hpermits)⟩
  | resurrect p =>
      obtain ⟨hruns, hp⟩ := hpermits
      have hphase := h.finalizing hruns
      obtain ⟨b, hb, hlive, -⟩ := hstrong p hp
      obtain ⟨cx, hres, hmarks, htraces⟩ := resurrect_spec h.context.marks hphase hb hlive
      exact ⟨_, by simp [act, within, hres], .resurrect (Or.inl hp)
        (h.context.traces hphase hmarks htraces)⟩
  | resurrectWeak p =>
      obtain ⟨hruns, hp⟩ := hpermits
      have hphase := h.finalizing hruns
      have hunswept := h.context.layout.unswept_eq (by rw [hphase]; decide)
      obtain ⟨b, hb, -⟩ := hweak p hp
      cases hlive : b.isLive with
      | false => exact ⟨a, by simp [act, hb, hlive], .stay⟩
      | true =>
          obtain ⟨cx, hres, hmarks, htraces⟩ := resurrect_spec h.context.marks hphase hb hlive
          exact ⟨_, by simp [act, hb, hlive, within, hres], .resurrectWeak hp
            ⟨b, hb, hlive, by simp [hunswept]⟩ (h.context.traces hphase hmarks htraces)⟩
  | backwardBarrier parent child =>
      obtain ⟨hparent, hchild⟩ := hpermits
      obtain ⟨cx, hbarrier, hmutates, hgranted⟩ := backwardBarrier_spec h.context
        (hstrong parent hparent) (fun c hc => hstrong c (hchild c hc)) []
      exact ⟨_, by simp [act, within, hbarrier], .barrier (by simp) hmutates hgranted⟩
  | backwardBarrierWeak parent child =>
      obtain ⟨hparent, hchild⟩ := hpermits
      obtain ⟨cx, hbarrier, hmutates, hgranted⟩ := backwardBarrierWeak_spec h.context
        (hstrong parent hparent) (hweak child hchild) []
      exact ⟨_, by simp [act, within, hbarrier], .barrier (by simp) hmutates hgranted⟩
  | forwardBarrier parent child =>
      obtain ⟨hparent, hchild⟩ := hpermits
      obtain ⟨cx, hbarrier, hmutates, hgranted⟩ := forwardBarrier_spec h.context
        (fun p hp => hstrong p (hparent p hp)) (hstrong child hchild)
      exact ⟨_, by simp [act, within, hbarrier], .barrier (by simpa using hchild) hmutates
        hgranted⟩
  | forwardBarrierWeak parent child =>
      obtain ⟨hparent, hchild⟩ := hpermits
      obtain ⟨cx, hbarrier, hmutates, hgranted⟩ := forwardBarrierWeak_spec h.context
        (fun p hp => hstrong p (hparent p hp)) (hweak child hchild)
      exact ⟨_, by simp [act, within, hbarrier], .barrier (by simpa using hchild) hmutates
        hgranted⟩
  | store p value =>
      obtain ⟨hp, hneeds, hvalue⟩ := hpermits
      obtain ⟨b, hderef, hb⟩ := deref_eq (hstrong p hp)
      refine ⟨_, by simp [act, Arena.write, hderef], .write hb (fun q hq => ?_)
        fun hne => hneeds hne b hb⟩
      rcases hvalue q hq with hold | ⟨hheld, permit, hmem, hcovers⟩
      · exact Or.inl (by simpa [valueOf, hb] using hold)
      · exact Or.inr ⟨hheld, fun hphase => h.granted hphase permit hmem p q hcovers⟩
  | storeRoot root => exact ⟨_, rfl, .storeRoot hpermits.1 hpermits.2⟩
  | enter kind => exact ⟨_, rfl, .enter hpermits.1 hpermits.2⟩
  | leave => exact ⟨_, rfl, .leave⟩
  | release p value =>
      obtain ⟨hlive, hvalue⟩ := hpermits
      cases hb : a.context.heap p with
      | none => simp [hb] at hlive
      | some b =>
          have hlive' : b.isLive = true := by simpa [hb] using hlive
          have hold : ∀ q ∈ value, q ∈ b.value := fun q hq => by
            simpa [valueOf, hb] using hvalue q hq
          refine ⟨_, by simp [act, Arena.write, deref, hb, hlive'], .write hb
            (fun q hq => Or.inl (hold q hq)) fun hne => ?_⟩
          by_contra hneeds
          have hempty := h.context.closed.leaf p b hb (by simpa using hneeds)
          exact hne (List.eq_nil_iff_forall_not_mem.2 fun q hq => by
            simpa [hempty] using hold q hq)
  | collect _ _ _ => exact ⟨a, rfl, .stay⟩
  | startSweeping _ => exact ⟨a, rfl, .stay⟩

/-- **What a callback does keeps the invariant.** -/
theorem ActStep.sound {a' : Arena} (hstep : ActStep a swept unswept a')
    (h : a.Sound swept unswept) : ∃ swept', a'.Sound swept' unswept := by
  cases hstep with
  | stay => exact ⟨swept, h⟩
  | hold hsafe _ => exact ⟨swept, h.hold hsafe⟩
  | @allocate p needsTrace value hfresh hvalue hleaf =>
      obtain ⟨hsound, hsafe⟩ :=
        h.context.allocate hfresh (fun q hq => h.held q (hvalue q hq)) hleaf
      have hgranted : ∀ r q, a.context.Granted r q →
          (a.context.allocate p needsTrace value).Granted r q := by
        rintro r q (⟨b, hb, hcolor⟩ | hshaded)
        · exact Or.inl ⟨b, allocate_old hfresh hb, hcolor⟩
        · exact Or.inr (hshaded.allocate hfresh)
      have hnext : ({ a with context := a.context.allocate p needsTrace value } : Arena).Sound
          (p :: swept) unswept :=
        ⟨hsound, fun q hq => (h.held q hq).allocate hfresh,
          fun hphase permit hmem r q hcovers =>
            hgranted r q (h.granted hphase permit hmem r q hcovers), h.rooted, h.finalizing⟩
      exact ⟨p :: swept, hnext.hold hsafe⟩
  | barrier _ hmutates hgranted =>
      exact ⟨swept, (h.mutates hmutates).permit fun hphase =>
        hgranted (hmutates.phase.symm.trans hphase)⟩
  | resurrect _ hmutates => exact ⟨swept, h.mutates hmutates⟩
  | resurrectWeak _ hstrong hmutates =>
      exact ⟨swept, (h.mutates hmutates).hold (hmutates.safe _ hstrong)⟩
  | @write p b value hp hvalue hleaf =>
      refine ⟨swept, h.write hp (fun hstrong q hq => ?_) (fun hneeds => ?_)
        fun hphase hcolor q hq => ?_⟩
      · rcases hvalue q hq with hold | ⟨hheld, -⟩
        · exact h.context.closed.value p b hp hstrong q hold
        · exact h.held q hheld
      · by_contra hne
        exact absurd ((hleaf hne).symm.trans hneeds) (by decide)
      · -- a black box may adopt only what is shaded
        rcases hvalue q hq with hold | ⟨-, hgranted⟩
        · exact h.context.marks.tricolor hphase p b hp hcolor (by simp) q hold
        · rcases hgranted hphase with ⟨b', hb', hwhy⟩ | hshaded
          · obtain rfl := Option.some.inj (hp.symm.trans hb')
            rcases hwhy with hne | hneeds
            · exact absurd hcolor hne
            · have hne : value ≠ [] := List.ne_nil_of_mem hq
              exact absurd ((hleaf hne).symm.trans hneeds) (by decide)
          · exact hshaded
  | storeRoot hruns hroot =>
      refine ⟨swept, ⟨⟨h.context.layout, { h.context.marks with
        root := fun hphase hroots => absurd ((h.rooted hruns hphase).symm.trans hroots)
          (by decide) }, h.context.closed, fun q hq => ?_⟩, h.held, h.granted, h.rooted,
        h.finalizing⟩⟩
      rcases hroot q hq with hheld | hold
      · exact h.held q hheld
      · exact h.context.root q hold
  | @enter kind hnone hmarked =>
      refine ⟨swept, ?_, by simp [held], by simp [permits], fun hruns hphase => ?_,
        fun hruns => ?_⟩
      · cases kind with
        | mutate => exact h.context
        | mutateRoot => exact h.context.rootBarrier
        | finalize => exact h.context
      · obtain rfl : kind = .mutateRoot := by simpa [Runs] using hruns
        have hmark : a.context.phase = .mark := by
          by_contra hne
          simp [Context.rootBarrier, hne] at hphase
        simp [Context.rootBarrier, hmark]
      · obtain rfl : kind = .finalize := by simpa [Runs] using hruns
        exact (hmarked rfl).1
  | leave =>
      exact ⟨swept, h.context, by simp [held], by simp [permits], by simp [Runs], by simp [Runs]⟩

/-! ### Whatever happens -/

/-- Between two callbacks only the context matters. -/
theorem sound_of_context (hnone : a.session = none)
    (h : a.context.Sound a.root swept unswept) : a.Sound swept unswept :=
  ⟨h, by simp [held, hnone], by simp [permits, hnone], by simp [Runs, hnone], by simp [Runs, hnone]⟩

/-- An arena that some cut of its list makes sound. -/
def IsSound (a : Arena) : Prop := ∃ swept unswept, a.Sound swept unswept

/-- What happened: a step of a callback, or turns of the collector between two callbacks. -/
inductive Happened (a a' : Arena) : Prop
  | act {swept unswept : List GcBox} (hsound : a.Sound swept unswept)
      (hstep : ActStep a swept unswept a')
  | turns {cx : Context} (hnone : a.session = none) (hsound : a.IsSound)
      (hturns : Relation.ReflTransGen (Turns a.root) a.context cx)
      (heq : a' = { a with context := cx })

theorem turns_isSound {cx cx' : Context} {root : List Pointer} (h : cx.IsSound root)
    (hturns : Relation.ReflTransGen (Turns root) cx cx') : cx'.IsSound root := by
  induction hturns with
  | refl => exact h
  | tail _ hturn _ => exact hturn.isSound

theorem Happened.isSound {a' : Arena} (h : Happened a a') : a'.IsSound := by
  cases h with
  | @act swept unswept hsound hstep =>
      obtain ⟨swept', hsound'⟩ := hstep.sound hsound
      exact ⟨swept', unswept, hsound'⟩
  | turns hnone hsound hturns heq =>
      obtain ⟨swept, unswept, hsound⟩ := hsound
      obtain ⟨swept', unswept', hsound'⟩ := turns_isSound ⟨swept, unswept, hsound.context⟩ hturns
      subst heq
      exact ⟨swept', unswept', sound_of_context hnone hsound'⟩

/-- Marking that is done makes the first turn of `start_sweeping` begin the sweep, and the second
stop. -/
theorem startSweeping_spec {cx : Context} (root : List Pointer) (hphase : cx.phase = .mark)
    (hgray : cx.grayRemaining = false) (rounds : ℕ) (ticks : ℕ → Tick) :
    cx.doCollection root .stop .atSweep rounds ticks = .timeout ∨
      cx.doCollection root .stop .atSweep rounds ticks = .done cx.startSweep := by
  obtain ⟨hqueue, hagain, hroots⟩ := remaining_eq hgray
  have hmark : ∀ panics, cx.markOne root panics = some (.done, cx) := by
    simp [markOne, popGray, hqueue, hagain, hroots]
  have hfirst : ∀ panics, cx.turn root .atSweep panics false =
      some (.goOn false cx.startSweep) := by
    intro panics
    have hstop : ¬ Stop.atSweep ≤ .fullyMarked := by decide
    simp [turn, hphase, hmark, hstop, Context.startSweep]
  have hsecond : ∀ panics, cx.startSweep.turn root .atSweep panics false =
      some (.stop cx.startSweep) := by
    intro panics
    have hstop : Stop.atSweep ≤ .atSweep := by decide
    simp [turn, Context.startSweep, hstop]
  rcases rounds with _ | _ | rounds
  · exact Or.inl rfl
  · exact Or.inl (by simp [doCollection, collectLoop, hfirst])
  · exact Or.inr (by simp [doCollection, collectLoop, hfirst, hsecond])

/-- **Whatever happens, no fault happens**: no operation touches a box that is not there, and no
assertion fails. -/
theorem perform_spec (h : a.IsSound) {action : Action} (hpermits : a.Permits action)
    (rounds : ℕ) : Outcome.Holds (Happened a) (a.perform rounds action) := by
  obtain ⟨swept, unswept, hsound⟩ := h
  have hcollection : a.session = none → ∀ runUntil stop ticks, Outcome.Holds (Happened a)
      (a.afterCollection (a.context.doCollection a.root runUntil stop rounds ticks)) := by
    intro hnone runUntil stop ticks
    have hspec := doCollection_spec ⟨swept, unswept, hsound.context⟩ runUntil stop rounds ticks
    revert hspec
    cases a.context.doCollection a.root runUntil stop rounds ticks with
    | done cx => exact fun hturns => .turns hnone ⟨swept, unswept, hsound⟩ hturns rfl
    | panicked cx => exact fun hturns => .turns hnone ⟨swept, unswept, hsound⟩ hturns rfl
    | fault => exact False.elim
    | timeout => exact fun _ => trivial
  -- what is not a collection is a step of a callback, or at one of its ends
  have hact : ∀ a', a.act action = some a' → Happened a a' := by
    intro a' ha'
    obtain ⟨a'', ha'', hstep⟩ := act_spec hsound hpermits
    obtain rfl := Option.some.inj (ha'.symm.trans ha'')
    exact .act hsound hstep
  obtain ⟨a', ha', hstep⟩ := act_spec hsound hpermits
  cases action with
  | collect runUntil stop ticks => exact hcollection hpermits runUntil stop ticks
  | startSweeping ticks =>
      obtain ⟨hnone, hphase, hgray⟩ := hpermits
      have hspec := hcollection hnone .stop .atSweep ticks
      rcases startSweeping_spec a.root hphase hgray rounds ticks with hout | hout
      · simp only [perform, hout]
        trivial
      · rw [hout] at hspec
        simp only [perform, hout]
        have hsweep : a.context.startSweep.phase = .sweep := rfl
        rw [if_pos hsweep]
        exact hspec
  | _ =>
      simp only [perform, ha']
      exact hact a' ha'

/-! ### Runs -/

theorem new_isSound : new.IsSound := by
  refine ⟨[], [], ⟨⟨rfl, rfl, fun p => ?_, rfl, fun _ => rfl⟩, ⟨fun p => ?_, List.nodup_nil,
    fun p b hb => ?_, fun _ => ⟨rfl, rfl⟩, by simp, fun hmark => absurd hmark (by decide),
    fun hmark => absurd hmark (by decide), fun _ => rfl, by decide⟩,
    ⟨fun p b hb => ?_, fun p b hb => ?_⟩, by simp [new]⟩, by simp [new, held],
    fun hmark => absurd hmark (by decide), fun _ hmark => absurd hmark (by decide),
    fun hruns => absurd hruns (by decide)⟩
  · simp [new, Context.new]
  · simp [new, Context.new]
  · exact absurd hb (by simp [new, Context.new])
  · exact absurd hb (by simp [new, Context.new])
  · exact absurd hb (by simp [new, Context.new])

/-- What a step does has happened. -/
theorem Steps.happened {a' : Arena} (h : a.IsSound) (hstep : Steps a a') : Happened a a' := by
  obtain ⟨action, rounds, hpermits, hdone⟩ := hstep
  have hspec := perform_spec h hpermits rounds
  rcases hdone with hdone | hdone
  · rw [hdone] at hspec
    exact hspec
  · rw [hdone] at hspec
    exact hspec

/-- **The invariant holds in every arena that a program can make.** -/
theorem reachable_isSound (h : a.Reachable) : a.IsSound := by
  induction h with
  | refl => exact new_isSound
  | tail _ hstep ih => exact (hstep.happened ih).isSound

/-- What steps of callbacks and turns of the collector keep is kept in any run. -/
theorem run_induction {P : Arena → Prop} {a' : Arena} (h : a.IsSound) (hP : P a)
    (hact : ∀ a a' swept unswept, a.Sound swept unswept → ActStep a swept unswept a' → P a → P a')
    (hturn : ∀ a cx, Turns a.root a.context cx → P a → P { a with context := cx })
    (hrun : Relation.ReflTransGen Steps a a') : P a' := by
  suffices hboth : a'.IsSound ∧ P a' from hboth.2
  induction hrun with
  | refl => exact ⟨h, hP⟩
  | @tail b _ _ hstep ih =>
      obtain ⟨hsound, hP⟩ := ih
      have hhappened := hstep.happened hsound
      refine ⟨hhappened.isSound, ?_⟩
      clear hstep
      cases hhappened with
      | act hs hstep => exact hact _ _ _ _ hs hstep hP
      | turns _ _ hturns heq =>
          subst heq
          induction hturns with
          | refl => exact hP
          | @tail cx _ _ hnext ih => exact hturn { b with context := cx } _ hnext ih

end Arena

end Tcvm.Dmm
