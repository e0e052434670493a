/-
Each value is dropped once, and each box is freed once.

The metrics are told of every allocation, drop and deallocation.  Read for one address, what they
are told goes round: a box is allocated, its value is dropped, the box is freed, and only then may
the address be used again.  When the context is dropped, every box that was ever allocated has been
through all of it.

* `Stage`, `stageOf` — where the events of an address leave it, if they are in order;
* `Context.Recorded` — the events are in order, and leave the address where the memory has it;
* `Context.dropAll_spec` — the walk along the list of all boxes, when the context is dropped;
* `Arena.reachable_lifetimes` — **no value is dropped twice, no box is freed twice or with its value
  in it**, and nothing is left behind when the arena is dropped.
-/

import Tcvm.GcSafety

namespace Tcvm.Dmm

open ListSegment

/-! ### The events of an address -/

/-- An address holds no box, a box with its value, or a box whose value is dropped. -/
inductive Stage
  | absent
  | live
  | dropped
  deriving DecidableEq, Repr

/-- What an event makes of the stage of `p`; out of order it is none. -/
def Stage.next (p : GcBox) (s : Stage) : Event → Option Stage
  | .allocated q => if q = p then if s = .absent then some .live else none else some s
  | .dropped q => if q = p then if s = .live then some .dropped else none else some s
  | .freed q => if q = p then if s = .dropped then some .absent else none else some s
  | .finished => some s

/-- Where the events, the last one first, leave the address `p`. -/
def stageOf (p : GcBox) : List Event → Option Stage
  | [] => some .absent
  | e :: older => (stageOf p older).bind fun s => s.next p e

theorem stageOf_cons {p : GcBox} {e : Event} {older : List Event} {s : Stage}
    (h : stageOf p older = some s) : stageOf p (e :: older) = s.next p e := by
  rw [stageOf, h]
  rfl

/-- What has happened to an address in order has happened as often as it should. -/
theorem count_of_stageOf {p : GcBox} {events : List Event} {s : Stage}
    (h : stageOf p events = some s) :
    events.count (.allocated p) = events.count (.freed p) + (if s = .absent then 0 else 1) ∧
      events.count (.dropped p) = events.count (.freed p) + (if s = .dropped then 1 else 0) := by
  induction events generalizing s with
  | nil =>
      obtain rfl : Stage.absent = s := Option.some.inj h
      simp
  | cons e older ih =>
      obtain ⟨s', hs', hnext⟩ := Option.bind_eq_some_iff.1 h
      obtain ⟨hallocated, hdropped⟩ := ih hs'
      cases e with
      | finished =>
          obtain rfl : s' = s := Option.some.inj hnext
          simp [hallocated, hdropped]
      | allocated q | dropped q | freed q =>
          by_cases heq : q = p
          · subst heq
            cases s' <;> simp_all [Stage.next]
            subst hnext
            simp
          · have hs : s' = s := by simpa [Stage.next, heq] using hnext
            subst hs
            simp [heq, hallocated, hdropped]

namespace Context

/-- Where the memory has the address `p`. -/
def stage (cx : Context) (p : GcBox) : Stage :=
  match cx.heap p with
  | none => .absent
  | some b => if b.isLive then .live else .dropped

/-- The events are in order, and leave every address where the memory has it. -/
def Recorded (cx : Context) : Prop := ∀ p, stageOf p cx.metrics = some (cx.stage p)

variable {cx cx' : Context} {root : List Pointer} {swept rest : List GcBox}

/-- The stage of an address is seen in its box alone. -/
theorem stage_eq {p : GcBox} {b : GcBoxInner} (hp : cx.heap p = some b) :
    cx.stage p = if b.isLive then .live else .dropped := by
  rw [stage, hp]

theorem stage_absent {p : GcBox} (hp : cx.heap p = none) : cx.stage p = .absent := by
  rw [stage, hp]

/-- A memory with the same boxes, as far as they are live, and the same events. -/
theorem Recorded.same (h : Recorded cx) (hmetrics : cx'.metrics = cx.metrics)
    (hstage : ∀ p, cx'.stage p = cx.stage p) : Recorded cx' := by
  intro p
  rw [hmetrics, hstage]
  exact h p

theorem Recorded.recolors (h : Recorded cx) (hrec : Recolors cx cx') : Recorded cx' := by
  refine h.same hrec.metrics fun p => ?_
  cases hp : cx.heap p with
  | none =>
      have hsame := hrec.boxes p
      rw [hp] at hsame
      rw [stage_absent hp, stage_absent (Option.map_eq_none_iff.1 hsame)]
  | some b =>
      obtain ⟨c, hc⟩ := hrec.box hp
      rw [stage_eq hp, stage_eq hc]

theorem Recorded.allocate (h : Recorded cx) {p : GcBox} {needsTrace : Bool}
    {value : List Pointer} (hfresh : cx.heap p = none) :
    Recorded (cx.allocate p needsTrace value) := by
  intro q
  have hold := h q
  refine (stageOf_cons hold).trans ?_
  rcases eq_or_ne p q with rfl | hne
  · rw [stage_absent hfresh, stage_eq ((allocate_heap p).trans (if_pos rfl))]
    simp [Stage.next]
  · have hsame : (cx.allocate p needsTrace value).stage q = cx.stage q := by
      simp only [stage, allocate_heap]
      rw [if_neg hne.symm]
    rw [hsame]
    simp [Stage.next, hne]

theorem Recorded.write (h : Recorded cx) {p : GcBox} {b : GcBoxInner} {value : List Pointer}
    (hp : cx.heap p = some b) : Recorded (cx.setBox p { b with value := value }) := by
  refine h.same rfl fun q => ?_
  cases hq : cx.heap q with
  | none =>
      have hne : q ≠ p := fun heq => by rw [heq, hp] at hq; simp at hq
      rw [stage_absent hq, stage_absent (by rw [setBox_heap, if_neg hne, hq])]
  | some bq => rw [stage_eq hq, stage_eq (write_box hp hq)]

/-- A box that the sweep meets goes through what its fate says. -/
theorem fate_next {p q : GcBox} {b : GcBoxInner} {events : List Event}
    (h : stageOf q events = some (if b.isLive then .live else .dropped)) (heq : q = p) :
    stageOf q (b.fateEvents p ++ events) =
      some ((b.fate.map fun b' => if b'.isLive then Stage.live else .dropped).getD .absent) := by
  subst heq
  cases hlive : b.isLive <;> cases hcolor : b.color <;>
    simp_all [GcBoxInner.fateEvents, GcBoxInner.fate, stageOf, Stage.next]

/-- The events of another box do not count. -/
theorem fateEvents_other {p q : GcBox} {b : GcBoxInner} {events : List Event} (hne : q ≠ p) :
    stageOf q (b.fateEvents p ++ events) = stageOf q events := by
  have hskip : ∀ s : Stage, s.next q (.freed p) = some s ∧ s.next q (.dropped p) = some s := by
    intro s
    simp [Stage.next, hne.symm]
  cases hs : stageOf q events <;> cases hlive : b.isLive <;> cases hcolor : b.color <;>
    simp_all [GcBoxInner.fateEvents, stageOf]

theorem Recorded.sweptOne (h : Recorded cx) {p : GcBox} {b : GcBoxInner} {swept' : List GcBox}
    (hp : cx.heap p = some b) (hswept : SweptOne swept rest p b cx cx' swept') :
    Recorded cx' := by
  intro q
  rw [hswept.metrics]
  have hheap := hswept.heap q
  rcases eq_or_ne q p with heq | hne
  · have hold := h q
    rw [stage_eq (heq ▸ hp : cx.heap q = some b)] at hold
    rw [fate_next hold heq]
    rw [if_pos heq] at hheap
    cases hq : cx'.heap q with
    | none =>
        rw [hq] at hheap
        rw [stage_absent hq, Option.map_eq_none_iff.1 hheap.symm]
        rfl
    | some bq =>
        rw [hq] at hheap
        obtain ⟨b', hb', hunlinked⟩ := Option.map_eq_some_iff.1 hheap.symm
        rw [stage_eq hq, hb', ← (GcBoxInner.agrees hunlinked).isLive]
        rfl
  · rw [fateEvents_other hne, h q]
    rw [if_neg hne] at hheap
    cases hq : cx.heap q with
    | none =>
        rw [hq] at hheap
        rw [stage_absent hq, stage_absent (Option.map_eq_none_iff.1 hheap)]
    | some bq =>
        obtain ⟨b', hb', hagree⟩ := hswept.other hne hq
        rw [stage_eq hq, stage_eq hb', hagree.isLive]

/-- The collector keeps the record. -/
theorem Recorded.turns (h : Recorded cx) (hturn : Turns root cx cx') : Recorded cx' := by
  obtain ⟨hsound, hstep, rfl⟩ := hturn
  cases hstep with
  | wake => exact h.same rfl fun _ => rfl
  | mark _ hmarked | panic _ hmarked => exact h.recolors hmarked.toRecolors
  | startSweep => exact h.same rfl fun _ => rfl
  | sweep _ _ _ hp hswept => exact h.sweptOne hp hswept
  | finish =>
      have hend : Recorded cx.endCycle := fun p => (stageOf_cons (h p)).trans rfl
      split
      · exact hend
      · exact hend
  | _ => exact h

/-! ### The end of the context -/

/-- **The walk of `DropAll`** along the list of all boxes drops and frees each of them. -/
theorem dropAll_spec {l : List GcBox} {head : Option GcBox} (hseg : Segment cx.nextOf head l none)
    (hmem : ∀ p, p ∈ l ↔ ∃ b, cx.heap p = some b) (h : Recorded cx) (rounds : ℕ) :
    (rounds < l.length ∧ dropAll rounds head cx = .timeout) ∨
      ∃ cx', dropAll rounds head cx = .done cx' ∧ (∀ p, cx'.heap p = none) ∧ Recorded cx' := by
  induction l generalizing cx head rounds with
  | nil =>
      obtain rfl : head = none := hseg
      refine Or.inr ⟨cx, by cases rounds <;> rfl, fun p => ?_, h⟩
      cases hp : cx.heap p with
      | none => rfl
      | some b => exact absurd ((hmem p).2 ⟨b, hp⟩) (by simp)
  | cons p l ih =>
      have hnodup := hseg.nodup
      obtain ⟨rfl, hrest⟩ := hseg
      obtain ⟨b, hb⟩ := (hmem p).1 (List.mem_cons_self ..)
      cases rounds with
      | zero => exact Or.inl ⟨Nat.succ_pos _, rfl⟩
      | succ rounds =>
          have hnotMem : p ∉ l := (List.nodup_cons.1 hnodup).1
          generalize hnext : (if b.isLive then cx.dropInPlace p else cx).dealloc p = cx₁
          have hheap : ∀ q, cx₁.heap q = if q = p then none else cx.heap q := by
            intro q
            rw [← hnext]
            cases b.isLive <;> simp
          have hmetrics : cx₁.metrics =
              .freed p :: ((if b.isLive then [.dropped p] else []) ++ cx.metrics) := by
            rw [← hnext]
            cases b.isLive <;> simp [dealloc, dropInPlace]
          have hseg₁ : Segment cx₁.nextOf b.next l none := by
            rw [nextOf_eq hb] at hrest
            refine hrest.congr fun q hq => ?_
            simp only [nextOf, hheap]
            rw [if_neg fun heq : q = p => hnotMem (heq ▸ hq)]
          have hmem₁ : ∀ q, q ∈ l ↔ ∃ b, cx₁.heap q = some b := by
            intro q
            rw [hheap]
            split
            · next heq =>
                subst heq
                simpa using hnotMem
            · next hne => simpa [hne] using hmem q
          have hrecorded : Recorded cx₁ := by
            intro q
            have hold := h q
            rw [hmetrics]
            rcases eq_or_ne q p with rfl | hne
            · rw [stage_eq hb] at hold
              rw [stage_absent ((hheap q).trans (if_pos rfl))]
              cases hlive : b.isLive <;> simp_all [stageOf, Stage.next]
            · have hsame : cx₁.stage q = cx.stage q := by
                simp only [stage, hheap]
                rw [if_neg hne]
              rw [hsame]
              cases hlive : b.isLive <;> simp_all [stageOf, Stage.next, hne.symm]
          have hstep : dropAll (rounds + 1) (some p) cx = dropAll rounds b.next cx₁ := by
            simp only [dropAll, hb, hnext]
          rw [hstep]
          rcases ih hseg₁ hmem₁ hrecorded rounds with ⟨hlt, hout⟩ | hdone
          · exact Or.inl ⟨Nat.succ_lt_succ hlt, hout⟩
          · exact Or.inr hdone

end Context

namespace Arena

variable {a : Arena}

open Context

/-- Steps of callbacks keep the record. -/
theorem ActStep.recorded {a' : Arena} {swept unswept : List GcBox}
    (hstep : ActStep a swept unswept a') (hrec : a.context.Recorded) : a'.context.Recorded := by
  cases hstep with
  | allocate hfresh _ _ => exact hrec.allocate hfresh
  | barrier _ hmutates _ | resurrect _ hmutates | resurrectWeak _ _ hmutates =>
      exact hrec.recolors hmutates.toRecolors
  | write hp _ _ => exact hrec.write hp
  | @enter kind _ _ =>
      cases kind with
      | mutateRoot => exact hrec.same (by simp) fun p => by simp [stage]
      | _ => exact hrec
  | _ => exact hrec

/-- No value is dropped twice, and no box is freed twice or with its value in it, in any run. -/
theorem reachable_recorded (h : a.Reachable) : a.context.Recorded :=
  run_induction (P := fun a => a.context.Recorded) new_isSound (fun _ => rfl)
    (fun _ _ _ _ _ hstep hrec => hstep.recorded hrec) (fun _ _ hturn hrec => hrec.turns hturn) h

/-- **Each value is dropped once, and each box is freed once**: in any run the events of an address
are in order, and when the arena is dropped, at any time, nothing is left behind. -/
theorem reachable_lifetimes (h : a.Reachable) :
    (∀ p, stageOf p a.context.metrics = some (a.context.stage p)) ∧
      (∀ rounds, a.context.drop rounds ≠ .fault) ∧
      ∃ rounds cx, a.context.drop rounds = .done cx ∧ ∀ p, cx.heap p = none ∧
        stageOf p cx.metrics = some .absent ∧
        cx.metrics.count (.allocated p) = cx.metrics.count (.dropped p) ∧
        cx.metrics.count (.allocated p) = cx.metrics.count (.freed p) := by
  obtain ⟨swept, unswept, hsound⟩ := reachable_isSound h
  have hlayout := hsound.context.layout
  have hseg := segment_append.2 ⟨a.context.sweep, hlayout.front, hlayout.rest⟩
  have hrecorded : ({ a.context with phase := .drop } : Context).Recorded :=
    (reachable_recorded h).same rfl fun _ => rfl
  have hspec := fun rounds => @dropAll_spec { a.context with phase := .drop } _ _
    hseg hlayout.mem hrecorded rounds
  refine ⟨reachable_recorded h, fun rounds hfault => ?_, (swept ++ unswept).length, ?_⟩
  · rcases hspec rounds with ⟨-, hout⟩ | ⟨cx, hout, -⟩
    · exact absurd (hfault.symm.trans hout) (by simp)
    · exact absurd (hfault.symm.trans hout) (by simp)
  · rcases hspec (swept ++ unswept).length with ⟨hlt, -⟩ | ⟨cx, hout, hempty, hrec⟩
    · exact absurd hlt (lt_irrefl _)
    · refine ⟨cx, hout, fun p => ?_⟩
      have hstage := hrec p
      rw [stage_absent (hempty p)] at hstage
      obtain ⟨hallocated, hdropped⟩ := count_of_stageOf hstage
      simp only [if_true, Nat.add_zero, reduceCtorEq, if_false] at hallocated hdropped
      exact ⟨hempty p, hstage, hallocated.trans hdropped.symm, hallocated⟩

/-- An arena with a value that points to another. -/
theorem reachable_lifetimes_pair :
    stageOf 1 pairArena.context.metrics = some .live ∧
      ∃ rounds cx, pairArena.context.drop rounds = .done cx ∧
        stageOf 1 cx.metrics = some .absent := by
  obtain ⟨hstage, -, rounds, cx, hdrop, hleft⟩ := reachable_lifetimes pairArena_reachable
  exact ⟨hstage 1, rounds, cx, hdrop, (hleft 1).2.1⟩

end Arena

end Tcvm.Dmm
