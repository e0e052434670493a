/-
Garbage is freed within one cycle.

What no pointer of any kind leads to when a cycle begins stays so, whatever callbacks do during the
cycle: a callback comes by nothing that is lost.  Marking does not shade it, so the sweep frees it.

* `Context.Lost` — nothing outside of a set of white boxes points into it;
* `Arena.ActStep.lost`, `Context.TurnStep.waits` — callbacks and turns of the collector keep it so;
* `Arena.garbage_reclaimed` — **garbage is freed by the end of the cycle**, in any run.
-/

import Tcvm.GcSafety

namespace Tcvm.Dmm

open ListSegment MarkedGraph

/-- The box that a pointer leads to. -/
def Pointer.box : Pointer → GcBox
  | gc p | weak p => p

namespace Context

variable {cx cx' : Context} {root roots : List Pointer} {swept unswept : List GcBox}
  {D : Set GcBox}

/-- The boxes of `D` are white, and the sweep has yet to meet them; nothing outside of `D` leads
into it. -/
structure Lost (cx : Context) (roots : List Pointer) (D : Set GcBox) : Prop where
  white : ∀ p ∈ D, ∃ b, cx.heap p = some b ∧ b.color = .white
  roots : ∀ q ∈ roots, q.box ∉ D
  values : ∀ p b, cx.heap p = some b → p ∉ D → ∀ q ∈ b.value, q.box ∉ D
  unswept : cx.phase = .sweep → ∀ swept unswept, Layout cx swept unswept → ∀ p ∈ D, p ∈ unswept

/-- What is before the sweep is determined. -/
theorem Layout.unswept_unique (h : Layout cx swept unswept) {swept' unswept' : List GcBox}
    (h' : Layout cx swept' unswept') : unswept' = unswept :=
  h'.rest.unique h.rest

/-- Values that were there, and a sweep that is where it was, keep the boxes lost. -/
theorem Lost.keep (h : Lost cx roots D) {roots' : List Pointer} {swept' : List GcBox}
    (hlayout : Layout cx swept unswept) (hlayout' : Layout cx' swept' unswept)
    (hphase : cx'.phase = cx.phase)
    (hwhite : ∀ p ∈ D, ∀ b, cx.heap p = some b → b.color = .white →
      ∃ b', cx'.heap p = some b' ∧ b'.color = .white)
    (hvalues : ∀ p b', cx'.heap p = some b' → p ∉ D → ∀ q ∈ b'.value, q.box ∉ D)
    (hroots : ∀ q ∈ roots', q.box ∉ D) : Lost cx' roots' D where
  white := fun p hp => (h.white p hp).elim fun b hb => hwhite p hp b hb.1 hb.2
  roots := hroots
  values := hvalues
  unswept := fun hsweep _ _ hl p hp => by
    rw [hlayout'.unswept_unique hl]
    exact h.unswept (hphase ▸ hsweep) _ _ hlayout p hp

/-- Where only colours change, the white of the lost boxes has to stay. -/
theorem Lost.recolors (h : Lost cx roots D) {roots' : List Pointer}
    (hlayout : Layout cx swept unswept) (hrec : Recolors cx cx')
    (hwhite : ∀ p ∈ D, ∀ b, cx.heap p = some b → b.color = .white →
      ∃ b', cx'.heap p = some b' ∧ b'.color = .white)
    (hroots : ∀ q ∈ roots', q.box ∉ D) : Lost cx' roots' D := by
  refine h.keep hlayout (hrec.layout hlayout) hrec.phase hwhite (fun p b' hb' hp q hq => ?_) hroots
  obtain ⟨c, hb⟩ := hrec.symm.box hb'
  exact h.values p _ hb hp q hq

/-- There is no reason to shade a lost box. -/
theorem Lost.not_reasoned (h : Lost cx roots D) (hroot : ∀ q ∈ root, q.box ∉ D) {q : Pointer}
    (hq : q.box ∈ D) : ¬ cx.Reasoned root q := by
  obtain ⟨b, hb, hwhite⟩ := h.white _ hq
  rintro (hshaded | hmem | ⟨r, br, hr, hrank, hmem⟩)
  · cases q with
    | gc p | weak p =>
        obtain ⟨b', hb', hrank⟩ := hshaded
        obtain rfl := Option.some.inj (hb.symm.trans hb')
        rw [hwhite] at hrank
        exact absurd hrank (by simp)
  · exact hroot q hmem hq
  · refine h.values r br hr (fun hr' => ?_) q hmem hq
    obtain ⟨b', hb', hwhite'⟩ := h.white r hr'
    obtain rfl := Option.some.inj (hr.symm.trans hb')
    rw [hwhite'] at hrank
    exact absurd hrank (by simp)

/-- Marking shades no lost box. -/
theorem Lost.markedOne (h : Lost cx roots D) (hroot : ∀ q ∈ root, q ∈ roots)
    (hlayout : Layout cx swept unswept) {flow : Flow}
    (hmarked : MarkedOne root swept cx flow cx') : Lost cx' roots D := by
  refine h.recolors hlayout hmarked.toRecolors (fun p hp b hb _ => ?_) h.roots
  obtain ⟨c, hc⟩ := hmarked.box hb
  refine ⟨_, hc, ?_⟩
  by_contra hne
  have hrank : 1 ≤ c.rank := by
    cases c <;> simp_all
  have hnot := fun q : Pointer => h.not_reasoned (q := q) fun r hr => h.roots r (hroot r hr)
  rcases hmarked.weakly p ⟨_, hc, hrank⟩ with hreason | hreason
  · exact hnot (.gc p) hp hreason
  · exact hnot (.weak p) hp hreason

/-! ### Through a cycle -/

/-- Since the events `old`, the boxes of `D` that have not been freed have stayed lost; and all of
them have been freed if a cycle has ended. -/
def Waits (old : List Event) (D : Set GcBox) (cx : Context) (roots : List Pointer) : Prop :=
  ∃ new, cx.metrics = new ++ old ∧ ((.finished ∈ new ∧ ∀ p ∈ D, .freed p ∈ new) ∨
    (.finished ∉ new ∧ Lost cx roots {p | p ∈ D ∧ .freed p ∉ new}))

variable {old : List Event}

/-- Events that free nothing, where the boxes stay lost. -/
theorem Waits.keep (h : Waits old D cx roots) {roots' : List Pointer} {e : List Event}
    (hmetrics : cx'.metrics = e ++ cx.metrics) (hevents : .finished ∉ e ∧ ∀ p, .freed p ∉ e)
    (hlost : ∀ D, Lost cx roots D → Lost cx' roots' D) : Waits old D cx' roots' := by
  obtain ⟨new, hnew, hcases⟩ := h
  refine ⟨e ++ new, by rw [hmetrics, hnew, List.append_assoc], ?_⟩
  rcases hcases with ⟨hfinished, hfreed⟩ | ⟨hnot, hwait⟩
  · exact Or.inl ⟨List.mem_append_right _ hfinished,
      fun p hp => List.mem_append_right _ (hfreed p hp)⟩
  · refine Or.inr ⟨by simp [hevents.1, hnot], ?_⟩
    have hsame : {p | p ∈ D ∧ Event.freed p ∉ e ++ new} =
        {p | p ∈ D ∧ Event.freed p ∉ new} := by
      ext p
      simp [hevents.2 p]
    rw [hsame]
    exact hlost _ hwait

theorem mem_fateEvents {p : GcBox} {b : GcBoxInner} {e : Event} (h : e ∈ b.fateEvents p) :
    e = .freed p ∨ e = .dropped p := by
  cases hc : b.color <;> cases hl : b.isLive <;> simp_all [GcBoxInner.fateEvents, or_comm]

/-- The sweep frees a lost box when it meets it, and leaves the others lost. -/
theorem Waits.sweptOne {rest swept' : List GcBox} {p : GcBox} {b : GcBoxInner}
    (h : Waits old D cx roots) (hlayout : Layout cx swept (p :: rest)) (hphase : cx.phase = .sweep)
    (hp : cx.heap p = some b) (hswept : SweptOne swept rest p b cx cx' swept') :
    Waits old D cx' roots := by
  obtain ⟨new, hnew, hcases⟩ := h
  refine ⟨b.fateEvents p ++ new, by rw [hswept.metrics, hnew, List.append_assoc], ?_⟩
  rcases hcases with ⟨hfinished, hfreed⟩ | ⟨hnot, hlost⟩
  · exact Or.inl ⟨List.mem_append_right _ hfinished,
      fun r hr => List.mem_append_right _ (hfreed r hr)⟩
  · have hevents : .finished ∉ b.fateEvents p := fun h => by simpa using mem_fateEvents h
    refine Or.inr ⟨by simp [hevents, hnot], ?_⟩
    -- a lost box that is still there is another one, since a white box is freed
    have hothers : ∀ r, r ∈ D ∧ .freed r ∉ b.fateEvents p ++ new →
        r ≠ p ∧ r ∈ D ∧ Event.freed r ∉ new := by
      rintro r ⟨hr, hfreed⟩
      have hr' : Event.freed r ∉ new := fun hmem => hfreed (List.mem_append_right _ hmem)
      refine ⟨fun heq => hfreed ?_, hr, hr'⟩
      obtain ⟨br, hbr, hwhite⟩ := hlost.white r ⟨hr, hr'⟩
      subst heq
      obtain rfl := Option.some.inj (hp.symm.trans hbr)
      simp [GcBoxInner.fateEvents, hwhite]
    refine ⟨fun r hr => ?_, fun q hq hmem => hlost.roots q hq (hothers _ hmem).2,
      fun r br hr hnotMem q hq hmem => ?_, fun _ _ _ hl r hr => ?_⟩
    · obtain ⟨hne, hr⟩ := hothers r hr
      obtain ⟨br, hbr, hwhite⟩ := hlost.white r hr
      obtain ⟨b', hb', hagree⟩ := hswept.other hne hbr
      exact ⟨b', hb', hagree.color.trans hwhite⟩
    · have hq' := (hothers _ hmem).2
      rcases hswept.before hr with ⟨hne, b', hb', hagree⟩ | ⟨rfl, b', hb', hagree⟩
      · refine hlost.values r b' hb' (fun hr' => hnotMem ⟨hr'.1, ?_⟩) q (hagree.value ▸ hq) hq'
        have hnone : .freed r ∉ b.fateEvents p := fun h => hne (by simpa using mem_fateEvents h)
        simp [hnone, hr'.2]
      · -- the box is kept, so it is not white, and not lost
        have hvalue : b'.value = b.value ∧ b.color ≠ .white := by
          cases hc : b.color <;> simp [GcBoxInner.fate, hc] at hb' <;> simp [← hb']
        refine hlost.values r b hp (fun hr' => ?_) q (hvalue.1 ▸ hagree.value ▸ hq) hq'
        obtain ⟨br', hbr', hwhite⟩ := hlost.white r hr'
        obtain rfl := Option.some.inj (hp.symm.trans hbr')
        exact hvalue.2 hwhite
    · obtain ⟨hne, hr⟩ := hothers r hr
      rw [hswept.layout.unswept_unique hl]
      exact List.mem_of_ne_of_mem hne (hlost.unswept hphase _ _ hlayout r hr)

/-- **A turn of the collector.** -/
theorem Turns.waits (hturn : Turns root cx cx') (h : Waits old D cx roots)
    (hroot : ∀ q ∈ root, q ∈ roots) : Waits old D cx' roots := by
  obtain ⟨hsound, hstep, rfl⟩ := hturn
  have hlayout := hsound.layout
  cases hstep with
  | wake => exact h.keep (e := []) rfl (by simp) fun _ hlost =>
      ⟨hlost.white, hlost.roots, hlost.values, fun hsweep => absurd hsweep (by simp [Turn.context])⟩
  | mark _ hmarked | panic _ hmarked =>
      exact h.keep (e := []) hmarked.metrics (by simp) fun _ hlost =>
        hlost.markedOne hroot hlayout hmarked
  | marked => exact h
  | startSweep hphase hgray hstop =>
      refine h.keep (e := []) rfl (by simp) fun _ hlost =>
        ⟨hlost.white, hlost.roots, hlost.values, fun _ _ _ hl p hp => ?_⟩
      have hnext := (hsound.startSweep hphase hgray).layout
      obtain ⟨b, hb, -⟩ := hlost.white p hp
      rw [hnext.unswept_unique hl]
      exact (hnext.mem p).2 ⟨b, hb⟩
  | atSweep => exact h
  | sweep hphase _ hunswept hp hswept =>
      subst hunswept
      exact h.sweptOne hlayout hphase hp hswept
  | finish hphase _ hunswept =>
      -- the sweep has met everything, so nothing is lost any more
      have hend : Waits old D cx.endCycle roots := by
        obtain ⟨new, hnew, hcases⟩ := h
        refine ⟨.finished :: new, by simp [endCycle, hnew], Or.inl ⟨by simp, fun p hp => ?_⟩⟩
        rcases hcases with ⟨-, hfreed⟩ | ⟨-, hlost⟩
        · exact List.mem_cons_of_mem _ (hfreed p hp)
        · by_contra hnot
          have hmem := hlost.unswept hphase _ _ hlayout p ⟨hp, by simpa using hnot⟩
          rw [hunswept] at hmem
          simp at hmem
      split
      · exact hend
      · exact hend

end Context

namespace Arena

open Context

variable {a : Arena} {swept unswept : List GcBox} {D : Set GcBox}

/-- A callback comes by nothing that is lost. -/
theorem ComesBy.not_lost (h : a.context.Lost (a.root ++ a.held) D) {q : Pointer}
    (hq : a.ComesBy q) : q.box ∉ D := by
  have hheld : ∀ q ∈ a.held, q.box ∉ D := fun q hq => h.roots q (List.mem_append_right _ hq)
  cases hq with
  | root hq => exact h.roots q (List.mem_append_left _ hq)
  | value hp hb hq => exact h.values _ _ hb (hheld _ hp) q hq
  | @downgrade p hp => exact hheld (.gc p) hp
  | @upgrade p hp => exact hheld (.weak p) hp

/-- What a callback holds behind a step is not lost, if it was not or comes from there. -/
theorem not_lost_hold {q : Pointer} (hq : q.box ∉ D) (h : ∀ r ∈ a.root ++ a.held, r.box ∉ D) :
    ∀ r ∈ a.root ++ (a.hold q).held, r.box ∉ D := by
  intro r hr
  rcases List.mem_append.1 hr with hr | hr
  · exact h r (List.mem_append_left _ hr)
  · rcases mem_held_hold _ q r hr with rfl | hr
    · exact hq
    · exact h r (List.mem_append_right _ hr)

/-- **A step of a callback leaves lost what is lost.** -/
theorem ActStep.lost {a' : Arena} (hstep : ActStep a swept unswept a')
    (hsound : a.Sound swept unswept) (h : a.context.Lost (a.root ++ a.held) D) :
    a'.context.Lost (a'.root ++ a'.held) D := by
  have hlayout := hsound.context.layout
  obtain ⟨swept', hsound'⟩ := hstep.sound hsound
  have hlayout' := hsound'.context.layout
  have hheld : ∀ q ∈ a.held, q.box ∉ D := fun q hq => h.roots q (List.mem_append_right _ hq)
  have hmutates : ∀ {targets : List Pointer} {cx : Context}, (∀ q ∈ targets, q.box ∉ D) →
      Mutates a.root swept unswept targets a.context cx → ∀ roots : List Pointer,
      (∀ q ∈ roots, q.box ∉ D) → cx.Lost roots D := by
    intro targets cx htargets hmutates roots hroots
    refine h.recolors hlayout hmutates.toRecolors (fun p hp b hb hwhite => ?_) hroots
    rcases hmutates.white p b hb hwhite with hsame | hmem | hmem
    · exact ⟨b, hsame, hwhite⟩
    · exact absurd hp (htargets _ hmem)
    · exact absurd hp (htargets _ hmem)
  cases hstep with
  | stay => exact h
  | hold _ hfrom =>
      exact ⟨h.white, not_lost_hold (hfrom.not_lost h) h.roots, h.values,
        h.unswept⟩
  | @allocate p needsTrace value hfresh hvalue _ =>
      have hp : p ∉ D := fun hp => by
        obtain ⟨b, hb, -⟩ := h.white p hp
        exact absurd (hfresh.symm.trans hb) (by simp)
      refine h.keep hlayout hlayout' rfl
        (fun r _ b hb hwhite => ⟨b, allocate_old hfresh hb, hwhite⟩) (fun r b hr hnot q hq => ?_)
        (not_lost_hold hp h.roots)
      rcases allocate_box hr with ⟨-, rfl⟩ | ⟨-, hb⟩
      · exact hheld q (hvalue q hq)
      · exact h.values r b hb hnot q hq
  | barrier htargets hm _ =>
      refine hmutates (fun q hq => hheld q (htargets q hq)) hm _ fun q hq => h.roots q ?_
      rwa [held_permit] at hq
  | @resurrect p _ hp hm =>
      refine hmutates (fun q hq => ?_) hm _ h.roots
      obtain rfl := List.mem_singleton.1 hq
      exact hp.elim (hheld (.gc p)) (hheld (.weak p))
  | @resurrectWeak p _ hp _ hm =>
      refine hmutates (fun q hq => ?_) hm _
        (not_lost_hold (q := .gc p) (hheld (.weak p) hp) h.roots)
      obtain rfl := List.mem_singleton.1 hq
      exact hheld (.weak p) hp
  | @write p b value hp hvalue _ =>
      refine h.keep hlayout hlayout' rfl (fun r _ br hr hwhite => ⟨_, write_box hp hr, hwhite⟩)
        (fun r br hr hnot q hq => ?_) h.roots
      obtain ⟨br', hbr', rfl⟩ := write_before hp hr
      have hq' : q ∈ if r = p then value else br'.value := hq
      split at hq'
      · next heq =>
          subst heq
          rcases hvalue q hq' with hold | ⟨hq'', -⟩
          · exact h.values r b hp hnot q hold
          · exact hheld q hq''
      · exact h.values r br' hbr' hnot q hq'
  | storeRoot _ hroot =>
      refine ⟨h.white, fun q hq => ?_, h.values, h.unswept⟩
      rcases List.mem_append.1 hq with hq | hq
      · exact (hroot q hq).elim (hheld q) fun hq => h.roots q (List.mem_append_left _ hq)
      · exact hheld q hq
  | @enter kind _ _ =>
      have hheap : (if kind = .mutateRoot then a.context.rootBarrier else a.context).heap =
          a.context.heap := by
        split <;> simp
      refine h.keep hlayout hlayout' (by dsimp only; split <;> simp)
        (fun r _ b hb hwhite => ⟨b, by rw [hheap, hb], hwhite⟩)
        (fun r b hr => h.values r b (hheap ▸ hr))
        fun q hq => h.roots q (List.mem_append_left _ (by simpa [held] using hq))
  | leave =>
      exact ⟨h.white, fun q hq => h.roots q (List.mem_append_left _ (by simpa [held] using hq)),
        h.values, h.unswept⟩

/-- Of what is freed, a callback says nothing. -/
theorem ActStep.events {a' : Arena} (hstep : ActStep a swept unswept a') :
    ∃ events, a'.context.metrics = events ++ a.context.metrics ∧
      .finished ∉ events ∧ ∀ p, .freed p ∉ events := by
  cases hstep with
  | @allocate p => exact ⟨[.allocated p], rfl, by simp, by simp⟩
  | barrier _ hm => exact ⟨[], hm.metrics, by simp, by simp⟩
  | resurrect _ hm => exact ⟨[], hm.metrics, by simp, by simp⟩
  | resurrectWeak _ _ hm => exact ⟨[], hm.metrics, by simp, by simp⟩
  | enter => exact ⟨[], by dsimp only; split <;> simp, by simp, by simp⟩
  | _ => exact ⟨[], rfl, by simp, by simp⟩

/-- While the collector sleeps, what nothing leads to is lost. -/
theorem waits_of_sleep (h : a.Reachable) (hsleep : a.context.phase = .sleep) :
    Waits a.context.metrics {p | ¬ Reached a.graph.merged p ∧ ∃ b, a.context.heap p = some b}
      a.context (a.root ++ a.held) := by
  obtain ⟨swept, unswept, hs⟩ := reachable_isSound h
  have hnot : a.context.phase ≠ .sweep := by rw [hsleep]; decide
  have hlayout := hs.context.layout
  refine ⟨[], rfl, Or.inr ⟨by simp, ⟨?_, ?_, ?_, fun hsweep => absurd hsweep hnot⟩⟩⟩
  · rintro p ⟨⟨-, b, hb⟩, -⟩
    have hmem := (hlayout.mem p).2 ⟨b, hb⟩
    rw [hlayout.unswept_eq hnot, List.append_nil] at hmem
    exact ⟨b, hb, hs.context.marks.settled (by rw [hsleep]; decide) p hmem b hb⟩
  · rintro (p | p) hq ⟨⟨hp, -⟩, -⟩
    · exact hp (.root (Or.inl hq))
    · exact hp (.root (Or.inr hq))
  · intro p b hb hp
    have hreached : Reached a.graph.merged p := by
      by_contra hnot
      exact hp ⟨⟨hnot, b, hb⟩, by simp⟩
    rintro (q | q) hq ⟨⟨hnot, -⟩, -⟩
    · exact hnot (.edge hreached (Or.inl ⟨b, hb, hq⟩))
    · exact hnot (.edge hreached (Or.inr ⟨b, hb, hq⟩))

/-- **Garbage is freed by the end of the cycle**: what nothing leads to while the collector sleeps
has been freed when a cycle has ended, whatever happens in between. -/
theorem garbage_reclaimed {a' : Arena} (h : a.Reachable) (hsleep : a.context.phase = .sleep)
    (hrun : Relation.ReflTransGen Steps a a') :
    ∃ new, a'.context.metrics = new ++ a.context.metrics ∧ (.finished ∈ new →
      ∀ p b, a.context.heap p = some b → ¬ Reached a.graph.merged p → .freed p ∈ new) := by
  have hwaits : Waits a.context.metrics {p | ¬ Reached a.graph.merged p ∧
      ∃ b, a.context.heap p = some b} a'.context (a'.root ++ a'.held) := by
    refine run_induction (P := fun a' => Waits _ _ a'.context (a'.root ++ a'.held))
      (reachable_isSound h) (waits_of_sleep h hsleep)
      (fun _ _ _ _ hs hact hwaits => ?_) (fun _ _ hturn hwaits => ?_) hrun
    · obtain ⟨events, hmetrics, hevents⟩ := hact.events
      exact hwaits.keep hmetrics hevents fun _ => hact.lost hs
    · exact hturn.waits hwaits fun q hq => List.mem_append_left _ hq
  obtain ⟨new, hnew, hcases⟩ := hwaits
  refine ⟨new, hnew, fun hfinished p b hb hp => ?_⟩
  rcases hcases with ⟨-, hfreed⟩ | ⟨hnot, -⟩
  · exact hfreed p ⟨hp, b, hb⟩
  · exact absurd hfinished hnot

/-- Two values that no root leads to. -/
def pairGarbage : Arena := { pairAllocated with session := none }

/-- They are freed by a cycle. -/
theorem garbage_reclaimed_pair :
    ∃ a', pairGarbage.perform 9 (.collect .stop .finishCycle fun _ => ⟨true, none⟩) = .done a' ∧
      .freed 1 ∈ a'.context.metrics := by
  obtain ⟨a', hdone, hmetrics⟩ : ∃ a', pairGarbage.perform 9
      (.collect .stop .finishCycle fun _ => ⟨true, none⟩) = .done a' ∧
      a'.context.metrics = [.finished, .freed 1, .dropped 1, .freed 2, .dropped 2] ++
        pairGarbage.context.metrics := ⟨_, rfl, rfl⟩
  have hreachable : pairGarbage.Reachable := by
    refine pairAllocated_reachable.tail ⟨.leave, 0, ?_, Or.inl rfl⟩
    exact rfl
  obtain ⟨new, hnew, hfreed⟩ :=
    garbage_reclaimed hreachable rfl (.single ⟨.collect _ _ _, 9, (rfl : _ = _), Or.inl hdone⟩)
  obtain rfl := List.append_cancel_right (hnew.symm.trans hmetrics)
  refine ⟨a', hdone, ?_⟩
  rw [hnew]
  refine List.mem_append_left _ (hfreed (by simp) 1 _ rfl fun hreached => ?_)
  have hnone : pairGarbage.root ++ pairGarbage.held = [] := rfl
  refine reached_subset (S := ∅) (fun _ hq => ?_) (fun _ hq => hq.elim) hreached
  simp [graph, Context.graph, Graph.merged, hnone] at hq

end Arena

end Tcvm.Dmm
