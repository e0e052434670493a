/-
Sweeping.

The sweep meets the boxes in the order of the list.  What becomes of a box depends on its colour
alone: a white box is taken off the list and freed, a box that only weak pointers were found for is
kept without its value, a black box is kept and turned white.  Nothing that is safe to hold is lost.

* `GcBoxInner.fate`, `GcBoxInner.fateEvents` — what becomes of a box;
* `Context.unlink_spec` — a box is taken off the list;
* `Context.SweptOne`, `Context.sweepOne_spec` — **one unit of sweeping**;
* `Context.SweptOne.safe`, `Context.SweptOne.strong` — what may be held stays, and nothing is added.
-/

import Tcvm.GcInvariant

namespace Tcvm.Dmm

open ListSegment

/-- What the sweep makes of a box. -/
def GcBoxInner.fate (b : GcBoxInner) : Option GcBoxInner :=
  match b.color with
  | .white => none
  | .whiteWeak => some { b with color := .white, isLive := false }
  | .black => some { b with color := .white }
  | .gray => some b

/-- What the metrics are told of it. -/
def GcBoxInner.fateEvents (p : GcBox) (b : GcBoxInner) : List Event :=
  match b.color with
  | .white => .freed p :: if b.isLive then [.dropped p] else []
  | .whiteWeak => if b.isLive then [.dropped p] else []
  | .black | .gray => []

/-- A box without its link. -/
def GcBoxInner.unlinked (b : GcBoxInner) : GcBoxInner := { b with next := none }

/-- The boxes differ in their links only. -/
structure GcBoxInner.Agrees (b' b : GcBoxInner) : Prop where
  color : b'.color = b.color
  needsTrace : b'.needsTrace = b.needsTrace
  isLive : b'.isLive = b.isLive
  value : b'.value = b.value

theorem GcBoxInner.agrees {b' b : GcBoxInner} (h : b'.unlinked = b.unlinked) : b'.Agrees b := by
  cases b
  cases b'
  simp only [GcBoxInner.unlinked, GcBoxInner.mk.injEq] at h
  exact ⟨h.2.1, h.2.2.1, h.2.2.2.1, h.2.2.2.2⟩

namespace Context

/-! ### Memories that agree but for the links -/

/-- The memories hold the same boxes, linked in another way. -/
def SameBoxes (heap heap' : GcBox → Option GcBoxInner) : Prop :=
  ∀ p, (heap' p).map GcBoxInner.unlinked = (heap p).map GcBoxInner.unlinked

theorem SameBoxes.box {heap heap' : GcBox → Option GcBoxInner} (h : SameBoxes heap heap')
    {p : GcBox} {b : GcBoxInner} (hp : heap p = some b) :
    ∃ b', heap' p = some b' ∧ b'.Agrees b := by
  have hsame := h p
  rw [hp] at hsame
  obtain ⟨b', hb', hunlinked⟩ := Option.map_eq_some_iff.1 hsame
  exact ⟨b', hb', GcBoxInner.agrees hunlinked⟩

theorem SameBoxes.symm {heap heap' : GcBox → Option GcBoxInner} (h : SameBoxes heap heap') :
    SameBoxes heap' heap := fun p => (h p).symm

/-- A box is relinked. -/
theorem sameBoxes_relink {cx : Context} {p : GcBox} {b : GcBoxInner} (hp : cx.heap p = some b)
    (next : Option GcBox) : SameBoxes cx.heap (cx.setBox p { b with next := next }).heap := by
  intro q
  rw [setBox_heap]
  split
  · next heq =>
      rw [heq, hp]
      rfl
  · rfl

/-! ### A box is taken off the list -/

variable {cx : Context} {root : List Pointer} {swept rest : List GcBox}

/-- The head of the unswept boxes is the box that the sweep is at. -/
theorem Layout.head {p : GcBox} (h : Layout cx swept (p :: rest)) : cx.sweep = some p := h.rest.1

/-- **A box is taken off the list**, and the list goes on behind it. -/
theorem unlink_spec {p : GcBox} {b : GcBoxInner} (h : Layout cx swept (p :: rest))
    (hphase : cx.phase = .sweep) (hp : cx.heap p = some b) :
    ∃ cx', ({ cx with sweep := b.next } : Context).unlink p b.next = some cx' ∧
      SameBoxes cx.heap cx'.heap ∧ cx'.heap p = some b ∧
      Segment cx'.nextOf cx'.all swept b.next ∧ Segment cx'.nextOf b.next rest none ∧
      cx' = { cx with heap := cx'.heap, all := cx'.all, sweep := b.next } := by
  have hnodup := h.nodup
  obtain ⟨hsweep, hrest⟩ := h.rest
  rw [nextOf_eq hp] at hrest
  have hfront := h.front
  rw [hsweep] at hfront
  have hprev := h.prev
  rw [if_pos hphase] at hprev
  cases hlast : swept.getLast? with
  | none =>
      -- the box is the first of all
      obtain rfl : swept = [] := List.getLast?_eq_none_iff.1 hlast
      rw [hlast] at hprev
      have hall : cx.all = some p := hfront
      exact ⟨{ cx with sweep := b.next, all := b.next }, by simp [unlink, hprev, hall],
        fun _ => rfl, hp, rfl, hrest, rfl⟩
  | some r =>
      obtain ⟨front, rfl⟩ := List.getLast?_eq_some_iff.1 hlast
      rw [hlast] at hprev
      obtain ⟨br, hr⟩ := (h.mem r).1 (by simp)
      have hnext : ∀ q, ((cx.setBox r { br with next := b.next }).nextOf q) =
          if q = r then b.next else cx.nextOf q := by
        intro q
        simp only [nextOf, setBox_heap]
        split <;> rfl
      -- the box in front of it occurs once on the list
      have hsplit : (front ++ r :: p :: rest).Nodup := by simpa using hnodup
      have hdistinct := List.nodup_middle.1 hsplit
      have hnotMem : r ∉ front ++ p :: rest := (List.nodup_cons.1 hdistinct).1
      have hne : r ≠ p := fun heq => hnotMem (by simp [heq])
      refine ⟨{ cx.setBox r { br with next := b.next } with sweep := b.next },
        by simp [unlink, hprev, hr, setBox], sameBoxes_relink hr b.next, ?_, ?_, ?_, rfl⟩
      · show (cx.setBox r _).heap p = _
        rw [setBox_heap, if_neg hne.symm, hp]
      · refine hfront.relink ?_ fun q hq => ?_
        · exact (hnext r).trans (if_pos rfl)
        · exact (hnext q).trans (if_neg fun heq => hnotMem (by simp [← heq, hq]))
      · refine hrest.congr fun q hq => ?_
        exact (hnext q).trans (if_neg fun heq => hnotMem (by simp [← heq, hq]))

/-! ### One unit of sweeping -/

/-- What one unit of sweeping does, at the box `b` at `p`. -/
structure SweptOne (swept rest : List GcBox) (p : GcBox) (b : GcBoxInner) (cx cx' : Context)
    (swept' : List GcBox) : Prop where
  layout : Layout cx' swept' rest
  swept_eq : swept' = if b.color = .white then swept else swept ++ [p]
  heap : ∀ q, (cx'.heap q).map GcBoxInner.unlinked =
    (if q = p then b.fate else cx.heap q).map GcBoxInner.unlinked
  phase : cx'.phase = .sweep
  gray : cx'.gray = cx.gray
  grayAgain : cx'.grayAgain = cx.grayAgain
  rootNeedsTrace : cx'.rootNeedsTrace = cx.rootNeedsTrace
  metrics : cx'.metrics = b.fateEvents p ++ cx.metrics

/-- No box is gray during the sweep. -/
theorem Marks.not_gray (h : Marks cx root swept none) (hphase : cx.phase ≠ .mark) {p : GcBox}
    {b : GcBoxInner} (hp : cx.heap p = some b) : b.color ≠ .gray := by
  intro hgray
  have hmem := (h.grays p).2 ⟨b, hp, hgray⟩
  obtain ⟨hqueue, hagain⟩ := h.quiet hphase
  rw [hqueue, hagain] at hmem
  simp at hmem

/-- A box that is kept goes to the boxes behind the sweep. -/
theorem Layout.advance {p : GcBox} {b c : GcBoxInner} {m : List Event}
    (h : Layout cx swept (p :: rest)) (hphase : cx.phase = .sweep) (hp : cx.heap p = some b)
    (hnext : c.next = b.next) :
    Layout { cx.setBox p c with sweep := b.next, sweepPrev := some p, metrics := m }
      (swept ++ [p]) rest := by
  obtain ⟨hsweep, hrest⟩ := h.rest
  rw [nextOf_eq hp] at hrest
  have hlinks : ∀ q, (cx.setBox p c).nextOf q = cx.nextOf q := by
    intro q
    simp only [nextOf, setBox_heap]
    split
    · next heq => rw [heq, hp]; exact hnext
    · rfl
  refine ⟨?_, hrest.congr fun q _ => hlinks q, fun q => ?_, ?_, fun hne => absurd hphase hne⟩
  · refine segment_append.2 ⟨some p, ?_, rfl, ?_⟩
    · have hfront := h.front
      rw [hsweep] at hfront
      exact hfront.congr fun q _ => hlinks q
    · exact (hlinks p).trans (nextOf_eq hp)
  · show _ ↔ ∃ b'', (cx.setBox p c).heap q = some b''
    rw [setBox_heap, List.append_assoc, List.singleton_append, h.mem q]
    split
    · next heq => exact ⟨fun _ => ⟨_, rfl⟩, fun _ => ⟨b, heq ▸ hp⟩⟩
    · rfl
  · simp [setBox, hphase]

/-- **One unit of sweeping** does not fail. -/
theorem sweepOne_spec {p : GcBox} {b : GcBoxInner} (h : Layout cx swept (p :: rest))
    (hmarks : Marks cx root swept none) (hphase : cx.phase = .sweep) (hp : cx.heap p = some b) :
    ∃ cx' swept', cx.sweepOne = some (.goOn, cx') ∧ SweptOne swept rest p b cx cx' swept' := by
  have hsweep := h.head
  cases hcolor : b.color with
  | white =>
      obtain ⟨cx₁, hunlink, hsame, hp₁, hfront, hrest, hcx₁⟩ := unlink_spec h hphase hp
      have hnotMem : p ∉ swept ++ rest :=
        (List.nodup_cons.1 (List.nodup_middle.1 h.nodup)).1
      have hresult : (if b.isLive then cx₁.dropInPlace p else cx₁).dealloc p =
          { cx with
            heap := Function.update cx₁.heap p none
            all := cx₁.all
            sweep := b.next
            metrics := b.fateEvents p ++ cx.metrics } := by
        rw [hcx₁]
        cases hlive : b.isLive <;>
          simp [dealloc, dropInPlace, GcBoxInner.fateEvents, hcolor, hlive]
      have hheap : ∀ q, Function.update cx₁.heap p none q =
          if q = p then none else cx₁.heap q := fun q => Function.update_apply ..
      have hlinks : ∀ l : List GcBox, p ∉ l → ∀ q ∈ l,
          (Function.update cx₁.heap p none q).bind GcBoxInner.next = cx₁.nextOf q := by
        intro l hl q hq
        rw [hheap, if_neg fun heq : q = p => hl (heq ▸ hq)]
        rfl
      have hprev : cx.sweepPrev = swept.getLast? := by
        rw [h.prev, if_pos hphase]
      refine ⟨(if b.isLive then cx₁.dropInPlace p else cx₁).dealloc p, swept, ?_, ?_⟩
      · simp only [sweepOne, hsweep, hp, Option.bind_eq_bind, Option.bind_some, hcolor]
        rw [hunlink]
        rfl
      · rw [hresult]
        refine ⟨⟨?_, ?_, fun q => ?_, ?_, fun hne => absurd hphase hne⟩, by rw [if_pos hcolor],
          fun q => ?_, hphase, rfl, rfl, rfl, rfl⟩
        · exact hfront.congr (hlinks swept fun hmem => hnotMem (List.mem_append_left _ hmem))
        · exact hrest.congr (hlinks rest fun hmem => hnotMem (List.mem_append_right _ hmem))
        · -- the boxes that are left are the others of the list
          have hmem := h.mem q
          show _ ↔ ∃ b', Function.update cx₁.heap p none q = some b'
          rw [hheap]
          split
          · next heq =>
              subst heq
              simpa using hnotMem
          · next hne =>
              have hold : (∃ b', cx₁.heap q = some b') ↔ ∃ b', cx.heap q = some b' :=
                ⟨fun hq => hq.elim fun _ hq => (hsame.symm.box hq).imp fun _ => And.left,
                  fun hq => hq.elim fun _ hq => (hsame.box hq).imp fun _ => And.left⟩
              rw [hold, ← hmem]
              simp [hne]
        · simp [hphase, hprev]
        · show (Function.update cx₁.heap p none q).map _ = _
          rw [hheap]
          split
          · simp [GcBoxInner.fate, hcolor]
          · exact hsame q
  | whiteWeak =>
      have hlayout := h.advance hphase hp (c := { b with color := .white, isLive := false })
        (m := b.fateEvents p ++ cx.metrics) rfl
      refine ⟨_, swept ++ [p], ?_, hlayout, by rw [if_neg (by rw [hcolor]; decide)], fun q => ?_,
        hphase, rfl, rfl, rfl, rfl⟩
      · cases hlive : b.isLive <;>
          simp [sweepOne, hsweep, hp, hcolor, hlive, setBox, dropInPlace, GcBoxInner.fateEvents]
      · show ((cx.setBox p _).heap q).map _ = _
        rw [setBox_heap]
        split
        · simp [GcBoxInner.fate, hcolor]
        · rfl
  | black =>
      have hlayout := h.advance hphase hp (c := { b with color := .white })
        (m := cx.metrics) rfl
      refine ⟨_, swept ++ [p], ?_, hlayout, by rw [if_neg (by rw [hcolor]; decide)], fun q => ?_,
        hphase, rfl, rfl, rfl, by simp [GcBoxInner.fateEvents, hcolor]⟩
      · simp [sweepOne, hsweep, hp, hcolor, setBox, setColor]
      · show ((cx.setBox p _).heap q).map _ = _
        rw [setBox_heap]
        split
        · simp [GcBoxInner.fate, hcolor]
        · rfl
  | gray => exact absurd hcolor (hmarks.not_gray (by rw [hphase]; decide) hp)

/-! ### What may be held stays -/

namespace SweptOne

variable {cx' : Context} {swept' : List GcBox} {p : GcBox} {b : GcBoxInner}

/-- A box behind the step was there, or is the box that was met. -/
theorem before (h : SweptOne swept rest p b cx cx' swept') {q : GcBox} {bq : GcBoxInner}
    (hq : cx'.heap q = some bq) :
    (q ≠ p ∧ ∃ b', cx.heap q = some b' ∧ b'.Agrees bq) ∨
      (q = p ∧ ∃ b', b.fate = some b' ∧ b'.Agrees bq) := by
  have hsame := h.heap q
  rw [hq] at hsame
  rcases eq_or_ne q p with heq | hne
  · rw [if_pos heq] at hsame
    obtain ⟨b', hb', hunlinked⟩ := Option.map_eq_some_iff.1 hsame.symm
    exact Or.inr ⟨heq, b', hb', GcBoxInner.agrees hunlinked⟩
  · rw [if_neg hne] at hsame
    obtain ⟨b', hb', hunlinked⟩ := Option.map_eq_some_iff.1 hsame.symm
    exact Or.inl ⟨hne, b', hb', GcBoxInner.agrees hunlinked⟩

/-- Another box stays. -/
theorem other (h : SweptOne swept rest p b cx cx' swept') {q : GcBox} (hne : q ≠ p)
    {bq : GcBoxInner} (hq : cx.heap q = some bq) :
    ∃ b', cx'.heap q = some b' ∧ b'.Agrees bq := by
  have hsame := h.heap q
  rw [if_neg hne, hq] at hsame
  obtain ⟨b', hb', hunlinked⟩ := Option.map_eq_some_iff.1 hsame
  exact ⟨b', hb', GcBoxInner.agrees hunlinked⟩

/-- The box that was met is what the sweep makes of it. -/
theorem self (h : SweptOne swept rest p b cx cx' swept') {c : GcBoxInner}
    (hfate : b.fate = some c) : ∃ b'', cx'.heap p = some b'' ∧ b''.Agrees c := by
  have hsame := h.heap p
  rw [if_pos rfl, hfate] at hsame
  obtain ⟨b'', hb'', hunlinked⟩ := Option.map_eq_some_iff.1 hsame
  exact ⟨b'', hb'', GcBoxInner.agrees hunlinked⟩

/-- **What is safe to hold stays safe.** -/
theorem safe (h : SweptOne swept rest p b cx cx' swept') (hp : cx.heap p = some b)
    {q : Pointer} (hq : cx.Safe (p :: rest) q) : cx'.Safe rest q := by
  cases q with
  | gc r =>
      obtain ⟨br, hr, hlive, hcolor⟩ := hq
      rcases eq_or_ne r p with rfl | hne
      · obtain rfl := Option.some.inj (hp.symm.trans hr)
        have hblack := hcolor (List.mem_cons_self ..)
        obtain ⟨b'', hb'', hagree⟩ :=
          h.self (c := { b with color := .white }) (by simp [GcBoxInner.fate, hblack])
        have hnotMem := List.disjoint_of_nodup_append h.layout.nodup (a := r)
          (by rw [h.swept_eq, hblack]; simp)
        exact ⟨b'', hb'', hagree.isLive.trans hlive,
          fun hmem => absurd hmem hnotMem⟩
      · obtain ⟨b', hb', hagree⟩ := h.other hne hr
        exact ⟨b', hb', hagree.isLive.trans hlive, fun hmem =>
          hagree.color.trans (hcolor (List.mem_cons_of_mem _ hmem))⟩
  | weak r =>
      obtain ⟨br, hr, hcolor⟩ := hq
      rcases eq_or_ne r p with rfl | hne
      · obtain rfl := Option.some.inj (hp.symm.trans hr)
        have hwhite := hcolor (List.mem_cons_self ..)
        have hnotMem := List.disjoint_of_nodup_append h.layout.nodup (a := r)
          (by rw [h.swept_eq, if_neg hwhite]; simp)
        have hfate : ∃ b', b.fate = some b' := by
          cases hc : b.color <;> simp_all [GcBoxInner.fate]
        obtain ⟨b', hb'⟩ := hfate
        obtain ⟨b'', hb'', -⟩ := h.self hb'
        exact ⟨b'', hb'', fun hmem => absurd hmem hnotMem⟩
      · obtain ⟨b', hb', hagree⟩ := h.other hne hr
        refine ⟨b', hb', fun hmem => ?_⟩
        have hc : b'.color = br.color := hagree.color
        rw [hc]
        exact hcolor (List.mem_cons_of_mem _ hmem)

/-- A box that may be held strongly could be so before, with the same value. -/
theorem strong (h : SweptOne swept rest p b cx cx' swept') (hp : cx.heap p = some b)
    (hgray : b.color ≠ .gray) {q : GcBox} {bq : GcBoxInner} (hq : cx'.heap q = some bq)
    (hstrong : cx'.Strong rest q) :
    cx.Strong (p :: rest) q ∧ ∃ b', cx.heap q = some b' ∧ b'.value = bq.value := by
  obtain ⟨bq', hbq', hlive, hcolor⟩ := hstrong
  obtain rfl := Option.some.inj (hq.symm.trans hbq')
  rcases h.before hq with ⟨hne, b', hb', hagree⟩ | ⟨rfl, b', hb', hagree⟩
  · refine ⟨⟨b', hb', hagree.isLive.trans hlive, fun hmem => ?_⟩, b', hb',
      hagree.value⟩
    rcases List.mem_cons.1 hmem with heq | hmem
    · exact absurd heq hne
    · exact hagree.color.trans (hcolor hmem)
  · have hlive' : b'.isLive = true := hagree.isLive.trans hlive
    have hvalue : b'.value = bq.value := hagree.value
    cases hc : b.color with
    | white => simp [GcBoxInner.fate, hc] at hb'
    | whiteWeak =>
        simp only [GcBoxInner.fate, hc, Option.some.injEq] at hb'
        rw [← hb'] at hlive'
        simp at hlive'
    | black =>
        simp only [GcBoxInner.fate, hc, Option.some.injEq] at hb'
        rw [← hb'] at hlive' hvalue
        exact ⟨⟨b, hp, hlive', fun _ => hc⟩, b, hp, hvalue⟩
    | gray => exact absurd hc hgray

/-- A value that is safe still holds pointers that are safe. -/
theorem closed (h : SweptOne swept rest p b cx cx' swept') (hp : cx.heap p = some b)
    (hgray : b.color ≠ .gray) (hclosed : Closed cx (p :: rest)) : Closed cx' rest where
  value := by
    intro q bq hq hstrong r hr
    obtain ⟨hstrong', b', hb', hvalue⟩ := h.strong hp hgray hq hstrong
    exact h.safe hp (hclosed.value q b' hb' hstrong' r (hvalue ▸ hr))
  leaf := by
    intro q bq hq hleaf
    rcases h.before hq with ⟨-, b', hb', hagree⟩ | ⟨-, b', hb', hagree⟩
    · have hneeds : b'.needsTrace = bq.needsTrace := hagree.needsTrace
      have hvalue : b'.value = bq.value := hagree.value
      rw [← hvalue]
      exact hclosed.leaf q b' hb' (hneeds.trans hleaf)
    · have hneeds : b'.needsTrace = bq.needsTrace := hagree.needsTrace
      have hvalue : b'.value = bq.value := hagree.value
      have hsame : b'.needsTrace = b.needsTrace ∧ b'.value = b.value := by
        cases hc : b.color <;> simp [GcBoxInner.fate, hc] at hb' <;> simp [← hb']
      rw [← hvalue, hsame.2]
      exact hclosed.leaf p b hp (hsame.1.symm.trans (hneeds.trans hleaf))

/-- The colours stay in order: behind the sweep everything is white. -/
theorem marks (h : SweptOne swept rest p b cx cx' swept') (hp : cx.heap p = some b)
    (hphase : cx.phase = .sweep) (hmarks : Marks cx root swept none) :
    Marks cx' root swept' none := by
  have hnot : cx.phase ≠ .mark := by rw [hphase]; decide
  have hphase' := h.phase
  have hgray := hmarks.not_gray hnot hp
  -- no box turns gray or black
  have hfate : ∀ b', b.fate = some b' → b'.color = .white := by
    intro b' hb'
    cases hc : b.color <;> simp_all [GcBoxInner.fate]
    · exact hb' ▸ rfl
    · exact hb' ▸ rfl
  have hcolors : ∀ q bq, cx'.heap q = some bq → bq.color = .white ∨
      ∃ b', cx.heap q = some b' ∧ b'.Agrees bq := by
    intro q bq hq
    rcases h.before hq with ⟨-, hb'⟩ | ⟨-, b', hb', hagree⟩
    · exact Or.inr hb'
    · exact Or.inl (hagree.color.symm.trans (hfate b' hb'))
  obtain ⟨hqueue, hagain⟩ := hmarks.quiet hnot
  refine ⟨fun q => ?_, ?_, fun q bq hq hrank => ?_, fun _ => ?_, fun _ q hmem bq hq => ?_,
    fun hmark => absurd (hphase'.symm.trans hmark) (by decide),
    fun hmark => absurd (hphase'.symm.trans hmark) (by decide),
    fun hsleep => absurd (hphase'.symm.trans hsleep) (by decide), by rw [hphase']; decide⟩
  · rw [h.gray, h.grayAgain, hqueue, hagain]
    constructor
    · simp
    · rintro ⟨bq, hq, hcolor⟩
      rcases hcolors q bq hq with hwhite | ⟨b', hb', hagree⟩
      · rw [hwhite] at hcolor
        exact absurd hcolor (by decide)
      · exact absurd (hagree.color.trans hcolor)
          (hmarks.not_gray hnot hb')
  · rw [h.gray, h.grayAgain]
    exact hmarks.nodup
  · rcases hcolors q bq hq with hwhite | ⟨b', hb', hagree⟩
    · rw [hwhite] at hrank
      exact absurd hrank (by simp)
    · have hcolor : b'.color = bq.color := hagree.color
      have hlive : b'.isLive = bq.isLive := hagree.isLive
      rw [← hlive]
      exact hmarks.live q b' hb' (hcolor ▸ hrank)
  · rw [h.gray, h.grayAgain]
    exact ⟨hqueue, hagain⟩
  · rcases h.before hq with ⟨hne, b', hb', hagree⟩ | ⟨-, b', hb', hagree⟩
    · have hmem' : q ∈ swept := by
        rw [h.swept_eq] at hmem
        split at hmem
        · exact hmem
        · simpa [hne] using hmem
      exact hagree.color.symm.trans
        (hmarks.settled hnot q hmem' b' hb')
    · exact hagree.color.symm.trans (hfate b' hb')

end SweptOne

end Context

end Tcvm.Dmm
