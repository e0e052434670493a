/-
Callbacks keep the invariant.

A callback reads, allocates, upgrades weak pointers and writes values, and calls the barriers in
between.  What a barrier is called for stays true until the callback ends, since nothing in a
callback turns a box white, or black before its value is shaded.

* `Context.Sound.allocate`, `Context.Sound.write` — a new box, and a value that is written;
* `Context.Mutates` — what a barrier does to the colours;
* `Context.backwardBarrier_spec` and its like — **what each barrier is worth**;
* `Context.upgrade_spec` — a weak pointer that is upgraded is safe to hold.
-/

import Tcvm.GcMarking
import Tcvm.GcSweeping

namespace Tcvm.Dmm

open ListSegment

namespace Context

variable {cx cx' : Context} {root : List Pointer} {swept unswept : List GcBox}

/-! ### A new box -/

section Allocate

variable {p : GcBox} {needsTrace : Bool} {value : List Pointer}

theorem allocate_heap (r : GcBox) : (cx.allocate p needsTrace value).heap r = if r = p then
    some ⟨cx.all, .white, needsTrace, true, value⟩ else cx.heap r := setBox_heap ..

/-- The boxes that were there stay. -/
theorem allocate_old (hfresh : cx.heap p = none) {r : GcBox} {b : GcBoxInner}
    (hr : cx.heap r = some b) : (cx.allocate p needsTrace value).heap r = some b := by
  rw [allocate_heap, if_neg fun heq => by rw [heq, hfresh] at hr; simp at hr]
  exact hr

/-- A box is the new one, which is white, or was there. -/
theorem allocate_box {r : GcBox} {b : GcBoxInner}
    (hr : (cx.allocate p needsTrace value).heap r = some b) :
    (r = p ∧ b = ⟨cx.all, .white, needsTrace, true, value⟩) ∨ (r ≠ p ∧ cx.heap r = some b) := by
  rw [allocate_heap] at hr
  split at hr
  · next heq => exact Or.inl ⟨heq, (Option.some.inj hr).symm⟩
  · next hne => exact Or.inr ⟨hne, hr⟩

/-- What is safe stays safe when a box is added. -/
theorem Safe.allocate (hfresh : cx.heap p = none) {q : Pointer} (hq : cx.Safe unswept q) :
    (cx.allocate p needsTrace value).Safe unswept q := by
  cases q with
  | gc r =>
      obtain ⟨b, hb, hlive, hcolor⟩ := hq
      exact ⟨b, allocate_old hfresh hb, hlive, hcolor⟩
  | weak r =>
      obtain ⟨b, hb, hcolor⟩ := hq
      exact ⟨b, allocate_old hfresh hb, hcolor⟩

theorem Shaded.allocate (hfresh : cx.heap p = none) {q : Pointer} (hq : cx.Shaded q) :
    (cx.allocate p needsTrace value).Shaded q :=
  Darkens.shaded (fun _ b hr => ⟨b, allocate_old hfresh hr, min_le_left ..⟩) hq

theorem Layout.notMem (h : Layout cx swept unswept) (hfresh : cx.heap p = none) :
    p ∉ swept ++ unswept := by
  intro hmem
  obtain ⟨b, hb⟩ := (h.mem p).1 hmem
  rw [hfresh] at hb
  simp at hb

/-- **A new box goes to the front of the list**, behind the sweep.  When the sweep has kept no box
yet, it is the box that the sweep links to what comes next. -/
theorem Layout.allocate (h : Layout cx swept unswept) (hfresh : cx.heap p = none) :
    Layout (cx.allocate p needsTrace value) (p :: swept) unswept := by
  have hnotMem := h.notMem hfresh
  have hlinks : ∀ l : List GcBox, p ∉ l →
      ∀ r ∈ l, (cx.allocate p needsTrace value).nextOf r = cx.nextOf r := by
    intro l hl r hr
    simp only [nextOf, allocate_heap]
    rw [if_neg fun heq : r = p => hl (heq ▸ hr)]
  refine ⟨⟨rfl, ?_⟩, ?_, fun r => ?_, ?_, h.idle⟩
  · rw [nextOf_eq ((allocate_heap p).trans (if_pos rfl))]
    exact h.front.congr (hlinks swept fun hmem => hnotMem (List.mem_append_left _ hmem))
  · exact h.rest.congr (hlinks unswept fun hmem => hnotMem (List.mem_append_right _ hmem))
  · rw [List.cons_append, List.mem_cons, h.mem r, allocate_heap]
    split
    · next heq => exact ⟨fun _ => ⟨_, rfl⟩, fun _ => Or.inl heq⟩
    · next hne => simp [hne]
  · have hprev := h.prev
    show (if cx.phase = .sweep ∧ cx.sweepPrev = none then some p else cx.sweepPrev) =
      if cx.phase = .sweep then (p :: swept).getLast? else none
    by_cases hphase : cx.phase = .sweep
    · rw [if_pos hphase] at hprev
      rw [if_pos hphase, hprev]
      cases hlast : swept.getLast? with
      | none =>
          obtain rfl := List.getLast?_eq_none_iff.1 hlast
          simp [hphase]
      | some r => simp [List.getLast?_cons, hlast]
    · rw [if_neg hphase] at hprev
      simp [hphase, hprev]

/-- The new box is white, in all phases. -/
theorem Marks.allocate (h : Marks cx root swept none) (hfresh : cx.heap p = none) :
    Marks (cx.allocate p needsTrace value) root (p :: swept) none := by
  refine ⟨fun r => ?_, h.nodup, fun r b hr hrank => ?_, h.quiet, fun hne r hmem b hr => ?_,
    fun hphase r b hr hcolor hne q hq => ?_,
    fun hphase hroots q hq => (h.root hphase hroots q hq).allocate hfresh, h.rest, h.open'⟩
  · refine (h.grays r).trans ⟨fun ⟨b, hb, hcolor⟩ => ⟨b, allocate_old hfresh hb, hcolor⟩, ?_⟩
    rintro ⟨b, hb, hcolor⟩
    rcases allocate_box hb with ⟨-, rfl⟩ | ⟨-, hb'⟩
    · exact absurd hcolor (by simp)
    · exact ⟨b, hb', hcolor⟩
  · rcases allocate_box hr with ⟨-, rfl⟩ | ⟨-, hb'⟩
    · rfl
    · exact h.live r b hb' hrank
  · rcases allocate_box hr with ⟨-, rfl⟩ | ⟨hr', hb'⟩
    · rfl
    · exact h.settled hne r (List.mem_of_ne_of_mem hr' hmem) b hb'
  · rcases allocate_box hr with ⟨-, rfl⟩ | ⟨-, hb'⟩
    · exact absurd hcolor (by simp)
    · exact (h.tricolor hphase r b hb' hcolor hne q hq).allocate hfresh

/-- **A new box** keeps the invariant, and it is safe to hold. -/
theorem Sound.allocate (h : Sound cx root swept unswept) (hfresh : cx.heap p = none)
    (hvalue : ∀ q ∈ value, cx.Safe unswept q) (hleaf : needsTrace = false → value = []) :
    Sound (cx.allocate p needsTrace value) root (p :: swept) unswept ∧
      (cx.allocate p needsTrace value).Safe unswept (.gc p) := by
  refine ⟨⟨h.layout.allocate hfresh, h.marks.allocate hfresh, ⟨fun r b hr hs q hq => ?_,
    fun r b hr hneeds => ?_⟩, fun q hq => (h.root q hq).allocate hfresh⟩,
    ⟨_, (allocate_heap p).trans (if_pos rfl), rfl, fun hmem =>
      absurd (List.mem_append_right _ hmem) (h.layout.notMem hfresh)⟩⟩
  · rcases allocate_box hr with ⟨-, rfl⟩ | ⟨hne, hb'⟩
    · exact (hvalue q hq).allocate hfresh
    · obtain ⟨b', hb'', hlive, hcolor⟩ := hs
      rw [allocate_heap, if_neg hne] at hb''
      exact (h.closed.value r b hb' ⟨b', hb'', hlive, hcolor⟩ q hq).allocate hfresh
  · rcases allocate_box hr with ⟨-, rfl⟩ | ⟨-, hb'⟩
    · exact hleaf hneeds
    · exact h.closed.leaf r b hb' hneeds

end Allocate

/-! ### A value is written -/

section Write

variable {p : GcBox} {b : GcBoxInner} {value : List Pointer}

/-- Only the value at `p` has changed. -/
theorem write_box (hp : cx.heap p = some b) {r : GcBox} {br : GcBoxInner}
    (hr : cx.heap r = some br) :
    (cx.setBox p { b with value := value }).heap r =
      some { br with value := if r = p then value else br.value } := by
  rw [setBox_heap]
  split
  · next heq =>
      obtain rfl : b = br := Option.some.inj (hp.symm.trans (heq ▸ hr))
      rfl
  · exact hr

theorem write_before (hp : cx.heap p = some b) {r : GcBox} {br : GcBoxInner}
    (hr : (cx.setBox p { b with value := value }).heap r = some br) :
    ∃ br', cx.heap r = some br' ∧
      br = { br' with value := if r = p then value else br'.value } := by
  have hold : ∃ br', cx.heap r = some br' := by
    rw [setBox_heap] at hr
    split at hr
    · next heq => exact ⟨b, heq ▸ hp⟩
    · exact ⟨br, hr⟩
  obtain ⟨br', hbr'⟩ := hold
  exact ⟨br', hbr', Option.some.inj (hr.symm.trans (write_box hp hbr'))⟩

/-- What is safe does not depend on the values. -/
theorem Safe.write (hp : cx.heap p = some b) {q : Pointer} (hq : cx.Safe unswept q) :
    (cx.setBox p { b with value := value }).Safe unswept q := by
  cases q with
  | gc r =>
      obtain ⟨br, hr, hlive, hcolor⟩ := hq
      exact ⟨_, write_box hp hr, hlive, hcolor⟩
  | weak r =>
      obtain ⟨br, hr, hcolor⟩ := hq
      exact ⟨_, write_box hp hr, hcolor⟩

theorem Shaded.write (hp : cx.heap p = some b) {q : Pointer} (hq : cx.Shaded q) :
    (cx.setBox p { b with value := value }).Shaded q :=
  Darkens.shaded (fun _ _ hr => ⟨_, write_box hp hr, min_le_left ..⟩) hq

theorem Granted.write (hp : cx.heap p = some b) {r : GcBox} {q : Pointer}
    (h : cx.Granted r q) : (cx.setBox p { b with value := value }).Granted r q := by
  rcases h with ⟨br, hr, hgranted⟩ | hshaded
  · exact Or.inl ⟨_, write_box hp hr, hgranted⟩
  · exact Or.inr (hshaded.write hp)

/-- **A value is written**: what it holds is safe, and shaded if its box is black. -/
theorem Sound.write (h : Sound cx root swept unswept) (hp : cx.heap p = some b)
    (hvalue : cx.Strong unswept p → ∀ q ∈ value, cx.Safe unswept q)
    (hleaf : b.needsTrace = false → value = [])
    (hshaded : cx.phase = .mark → b.color = .black → ∀ q ∈ value, cx.Shaded q) :
    Sound (cx.setBox p { b with value := value }) root swept unswept := by
  have hlinks : ∀ r, (cx.setBox p { b with value := value }).nextOf r = cx.nextOf r := by
    intro r
    simp only [nextOf, setBox_heap]
    split
    · next heq => rw [heq, hp]; rfl
    · rfl
  refine ⟨⟨h.layout.front.congr fun r _ => hlinks r, h.layout.rest.congr fun r _ => hlinks r,
      fun r => (h.layout.mem r).trans ⟨fun hr => hr.elim fun _ hr => ⟨_, write_box hp hr⟩,
        fun hr => hr.elim fun _ hr => (write_before hp hr).imp fun _ => And.left⟩,
      h.layout.prev, h.layout.idle⟩,
    ⟨fun r => ?_, h.marks.nodup, fun r br hr hrank => ?_, h.marks.quiet,
      fun hne r hmem br hr => ?_, fun hphase r br hr hcolor hne q hq => ?_,
      fun hphase hroots q hq => (h.marks.root hphase hroots q hq).write hp, h.marks.rest,
      h.marks.open'⟩, ⟨fun r br hr hs q hq => ?_, fun r br hr hneeds => ?_⟩,
    fun q hq => (h.root q hq).write hp⟩
  · refine (h.marks.grays r).trans ⟨?_, ?_⟩
    · rintro ⟨br, hr, hcolor⟩
      exact ⟨_, write_box hp hr, hcolor⟩
    · rintro ⟨br, hr, hcolor⟩
      obtain ⟨br', hr', rfl⟩ := write_before hp hr
      exact ⟨br', hr', hcolor⟩
  · obtain ⟨br', hr', rfl⟩ := write_before hp hr
    exact h.marks.live r br' hr' hrank
  · obtain ⟨br', hr', rfl⟩ := write_before hp hr
    exact h.marks.settled hne r hmem br' hr'
  · obtain ⟨br', hr', rfl⟩ := write_before hp hr
    refine Shaded.write hp ?_
    split at hq
    · next heq =>
        obtain rfl : b = br' := Option.some.inj (hp.symm.trans (heq ▸ hr'))
        exact hshaded hphase hcolor q hq
    · exact h.marks.tricolor hphase r br' hr' hcolor hne q hq
  · obtain ⟨br', hr', rfl⟩ := write_before hp hr
    have hstrong : cx.Strong unswept r := by
      obtain ⟨br'', hr'', hlive, hcolor⟩ := hs
      obtain rfl := Option.some.inj (hr.symm.trans hr'')
      exact ⟨br', hr', hlive, hcolor⟩
    refine Safe.write hp ?_
    split at hq
    · next heq => exact hvalue (heq ▸ hstrong) q hq
    · exact h.closed.value r br' hr' hstrong q hq
  · obtain ⟨br', hr', rfl⟩ := write_before hp hr
    show (if r = p then value else br'.value) = []
    split
    · next heq =>
        obtain rfl : b = br' := Option.some.inj (hp.symm.trans (heq ▸ hr'))
        exact hleaf hneeds
    · exact h.closed.leaf r br' hr' hneeds

end Write

/-! ### Barriers -/

/-- What an operation on the colours does inside a callback: it keeps the invariant, and what was
safe and granted stays so.  Of the white boxes it shades the ends of the targets only. -/
structure Mutates (root : List Pointer) (swept unswept : List GcBox) (targets : List Pointer)
    (cx cx' : Context) : Prop extends Recolors cx cx' where
  sound : Sound cx' root swept unswept
  safe : ∀ q, cx.Safe unswept q → cx'.Safe unswept q
  granted : ∀ p q, cx.Granted p q → cx'.Granted p q
  rootNeedsTrace : cx'.rootNeedsTrace = cx.rootNeedsTrace
  white : ∀ p b, cx.heap p = some b → b.color = .white →
    cx'.heap p = some b ∨ .gc p ∈ targets ∨ .weak p ∈ targets

theorem Sound.same (h : Sound cx root swept unswept) (targets : List Pointer) :
    Mutates root swept unswept targets cx cx :=
  ⟨Recolors.refl cx, h, fun _ => id, fun _ _ => id, rfl, fun _ _ hb _ => Or.inl hb⟩

/-- A trace, inside a callback. -/
theorem Sound.traces (h : Sound cx root swept unswept) (hphase : cx.phase = .mark)
    {targets : List Pointer} (hmarks : Marks cx' root swept none)
    (htraces : Traces targets cx cx') : Mutates root swept unswept targets cx cx' := by
  obtain rfl := h.layout.unswept_eq (by rw [hphase]; decide)
  refine ⟨htraces.toRecolors, ⟨htraces.layout h.layout, hmarks, htraces.closed h.closed,
    fun q hq => htraces.safe (h.root q hq)⟩, fun q => htraces.safe, fun p q hgranted => ?_,
    htraces.rootNeedsTrace, fun p b hb hwhite => ?_⟩
  · rcases hgranted with ⟨b, hb, hcolor⟩ | hshaded
    · obtain ⟨c, hc, -, hleaf, -⟩ := htraces.darker p b hb
      refine Or.inl ⟨_, hc, ?_⟩
      by_cases hblack : c = .black
      · rcases hleaf hblack with hblack' | hneeds
        · exact Or.inr (hcolor.resolve_left (fun hne => hne hblack'))
        · exact Or.inr hneeds
      · exact Or.inl hblack
    · exact Or.inr (htraces.darkens.shaded hshaded)
  · obtain ⟨c, hc, -, -, hwhy⟩ := htraces.darker p b hb
    rcases hwhy with heq | hgc | ⟨hweak, -⟩
    · exact Or.inl (by rw [hc, heq])
    · exact Or.inr (Or.inl hgc)
    · exact Or.inr (Or.inr hweak)

/-- A black box that turns gray again, inside a callback. -/
theorem Sound.grayAgain (h : Sound cx root swept unswept) (hphase : cx.phase = .mark) {p : GcBox}
    {b : GcBoxInner} (hp : cx.heap p = some b) (hcolor : b.color = .black)
    (targets : List Pointer) :
    ∃ cx', cx.makeGrayAgain p = some cx' ∧ Mutates root swept unswept targets cx cx' ∧
      cx'.heap p = some { b with color := .gray } := by
  obtain rfl := h.layout.unswept_eq (by rw [hphase]; decide)
  obtain ⟨cx', hagain, hmarks, hrec, hroots, hheap⟩ :=
    makeGrayAgain_spec h.marks hphase hp hcolor (o := none) (fun _ _ hne => hne)
  have hself := (hheap p).trans (if_pos rfl)
  refine ⟨cx', hagain, ⟨hrec, ⟨hrec.layout h.layout, hmarks, hrec.closed h.closed,
    fun q hq => hrec.safe (h.root q hq)⟩, fun q => hrec.safe, fun r q hgranted => ?_, hroots,
    fun r br hr hwhite => Or.inl ?_⟩, hself⟩
  · rcases hgranted with ⟨br, hr, hbr⟩ | hshaded
    · rcases eq_or_ne r p with rfl | hne
      · exact Or.inl ⟨_, hself, Or.inl (by simp)⟩
      · exact Or.inl ⟨br, by rw [hheap, if_neg hne, hr], hbr⟩
    · exact Or.inr ((darkens_of_shaded hheap (by simp)).shaded hshaded)
  · rw [hheap, if_neg fun heq => ?_, hr]
    rw [heq, hp] at hr
    obtain rfl := Option.some.inj hr
    exact absurd (hcolor.symm.trans hwhite) (by decide)

section Barriers

variable (h : Sound cx root swept unswept)

include h

/-- **The backward barrier**: the parent may adopt the child, or any child if none is given. -/
theorem backwardBarrier_spec {parent : GcBox} {child : Option GcBox}
    (hparent : cx.Strong unswept parent) (hchild : ∀ c ∈ child, cx.Strong unswept c)
    (targets : List Pointer) :
    ∃ cx', cx.backwardBarrier parent child = some cx' ∧
      Mutates root swept unswept targets cx cx' ∧ (cx.phase = .mark → ∀ p q,
        (child.elim (.parent parent) (.pair parent) : Permit).covers p q → cx'.Granted p q) := by
  obtain ⟨b, hb, -, -⟩ := hparent
  -- in each case the permit is about the parent
  have hcovers : ∀ p q, (child.elim (.parent parent) (.pair parent) : Permit).covers p q →
      parent = p ∧ ∀ c ∈ child, q = .gc c := by
    intro p q hcovers
    cases child with
    | none => exact ⟨hcovers, by simp⟩
    | some c =>
        refine ⟨hcovers.1, fun c' hc' => ?_⟩
        obtain rfl := Option.some.inj hc'
        exact hcovers.2
  by_cases hblack : cx.phase = .mark ∧ b.color = .black
  · obtain ⟨hphase, hcolor⟩ := hblack
    obtain ⟨cx', hagain, hmutates, hself⟩ := h.grayAgain hphase hb hcolor targets
    have hgranted : ∀ q, cx'.Granted parent q := fun q => Or.inl ⟨_, hself, Or.inl (by simp)⟩
    cases child with
    | none =>
        refine ⟨cx', by simp [backwardBarrier, hb, hphase, hcolor, hagain], hmutates,
          fun _ p q hc => ?_⟩
        obtain ⟨rfl, -⟩ := hcovers p q hc
        exact hgranted q
    | some c =>
        obtain ⟨bc, hbc, -, -⟩ := hchild c rfl
        by_cases hwhite : bc.color = .white ∨ bc.color = .whiteWeak
        · refine ⟨cx', ?_, hmutates, fun _ p q hc => ?_⟩
          · rw [backwardBarrier, hb]
            simp [hphase, hcolor, hbc, hwhite, hagain]
          · obtain ⟨rfl, -⟩ := hcovers p q hc
            exact hgranted q
        · refine ⟨cx, ?_, h.same targets, fun _ p q hc => ?_⟩
          · rw [backwardBarrier, hb]
            simp [hphase, hbc, hwhite]
          · -- the child is gray or black already
            obtain ⟨rfl, hq⟩ := hcovers p q hc
            obtain rfl := hq c rfl
            refine Or.inr ⟨bc, hbc, ?_⟩
            by_contra hrank
            exact hwhite (GcColor.white_of_rank hrank)
  · refine ⟨cx, by simp [backwardBarrier, hb, hblack], h.same targets, fun hphase p q hc => ?_⟩
    obtain ⟨rfl, -⟩ := hcovers p q hc
    exact Or.inl ⟨b, hb, Or.inl fun hcolor => hblack ⟨hphase, hcolor⟩⟩

/-- **The backward barrier of a weak child.** -/
theorem backwardBarrierWeak_spec {parent child : GcBox} (hparent : cx.Strong unswept parent)
    (hchild : cx.Weak unswept child) (targets : List Pointer) :
    ∃ cx', cx.backwardBarrierWeak parent child = some cx' ∧
      Mutates root swept unswept targets cx cx' ∧ (cx.phase = .mark → ∀ p q,
        (Permit.pairWeak parent child).covers p q → cx'.Granted p q) := by
  obtain ⟨b, hb, -, -⟩ := hparent
  by_cases hblack : cx.phase = .mark ∧ b.color = .black
  · obtain ⟨hphase, hcolor⟩ := hblack
    obtain ⟨bc, hbc, -⟩ := hchild
    by_cases hwhite : bc.color = .white
    · obtain ⟨cx', hagain, hmutates, hself⟩ := h.grayAgain hphase hb hcolor targets
      refine ⟨cx', by simp [backwardBarrierWeak, hb, hphase, hcolor, hbc, hwhite, hagain],
        hmutates, fun _ p q hc => ?_⟩
      obtain ⟨rfl, -⟩ := hc
      exact Or.inl ⟨_, hself, Or.inl (by simp)⟩
    · refine ⟨cx, by simp [backwardBarrierWeak, hb, hphase, hbc, hwhite],
        h.same targets, fun _ p q hc => ?_⟩
      obtain ⟨rfl, rfl⟩ := hc
      refine Or.inr ⟨bc, hbc, ?_⟩
      cases hc : bc.color <;> simp_all
  · refine ⟨cx, by simp [backwardBarrierWeak, hb, hblack], h.same targets,
      fun hphase p q hc => ?_⟩
    obtain ⟨rfl, -⟩ := hc
    exact Or.inl ⟨b, hb, Or.inl fun hcolor => hblack ⟨hphase, hcolor⟩⟩

/-- What both forward barriers do: the child is traced unless the parent is there and not black.
The permit covers no other parent than the one that is there, and no other child. -/
theorem forward_spec {parent : Option GcBox} (hparent : ∀ p ∈ parent, cx.Strong unswept p)
    {child : Pointer} (hchild : cx.Safe unswept child) {permit : Permit}
    (hpermit : ∀ p q, permit.covers p q → (∀ p' ∈ parent, p' = p) ∧ q = child) :
    ∃ cx', (if cx.phase = .mark then do
        if ← cx.parentIsBlack parent then cx.tracePointer child else some cx
      else some cx) = some cx' ∧ Mutates root swept unswept [child] cx cx' ∧
        (cx.phase = .mark → ∀ p q, permit.covers p q → cx'.Granted p q) := by
  by_cases hphase : cx.phase = .mark
  · have hunswept := h.layout.unswept_eq (by rw [hphase]; decide)
    subst hunswept
    obtain ⟨cx', htrace, hmarks, htraces, hshaded⟩ :=
      tracePointer_spec h.marks hphase h.closed hchild
    have hmutates := h.traces hphase hmarks htraces
    have htraced : ∀ p q, permit.covers p q → cx'.Granted p q := by
      intro p q hc
      obtain ⟨-, rfl⟩ := hpermit p q hc
      exact Or.inr hshaded
    cases parent with
    | none => exact ⟨cx', by simpa [hphase, parentIsBlack] using htrace, hmutates, fun _ => htraced⟩
    | some p =>
        obtain ⟨b, hb, -, -⟩ := hparent p rfl
        by_cases hcolor : b.color = .black
        · exact ⟨cx', by simpa [hphase, parentIsBlack, hb, hcolor] using htrace, hmutates,
            fun _ => htraced⟩
        · refine ⟨cx, by simp [hphase, parentIsBlack, hb, hcolor], h.same _, fun _ p' q hc => ?_⟩
          obtain rfl := (hpermit p' q hc).1 p rfl
          exact Or.inl ⟨b, hb, Or.inl hcolor⟩
  · exact ⟨cx, by simp [hphase], h.same _, fun hmark => absurd hmark hphase⟩

/-- **The forward barrier**: the child may be adopted by the parent, or by any if none is given. -/
theorem forwardBarrier_spec {parent : Option GcBox} {child : GcBox}
    (hparent : ∀ p ∈ parent, cx.Strong unswept p) (hchild : cx.Strong unswept child) :
    ∃ cx', cx.forwardBarrier parent child = some cx' ∧
      Mutates root swept unswept [.gc child] cx cx' ∧ (cx.phase = .mark → ∀ p q,
        (parent.elim (.child child) fun p => .pair p child : Permit).covers p q →
          cx'.Granted p q) := by
  refine forward_spec h hparent (show cx.Safe unswept (.gc child) from hchild) fun p q hc => ?_
  cases parent with
  | none => exact ⟨by simp, hc⟩
  | some p' => exact ⟨by simpa using hc.1, hc.2⟩

/-- **The forward barrier of a weak child.** -/
theorem forwardBarrierWeak_spec {parent : Option GcBox} {child : GcBox}
    (hparent : ∀ p ∈ parent, cx.Strong unswept p) (hchild : cx.Weak unswept child) :
    ∃ cx', cx.forwardBarrierWeak parent child = some cx' ∧
      Mutates root swept unswept [.weak child] cx cx' ∧ (cx.phase = .mark → ∀ p q,
        (parent.elim (.childWeak child) fun p => .pairWeak p child : Permit).covers p q →
          cx'.Granted p q) := by
  refine forward_spec h hparent (show cx.Safe unswept (.weak child) from hchild) fun p q hc => ?_
  cases parent with
  | none => exact ⟨by simp, hc⟩
  | some p' => exact ⟨by simpa using hc.1, hc.2⟩

end Barriers

/-! ### Weak pointers -/

/-- **A weak pointer that is upgraded is safe to hold**: during the sweep its box has been met, or
was found by a strong pointer. -/
theorem upgrade_spec (h : Sound cx root swept unswept) {p : GcBox} (hp : cx.Weak unswept p) :
    ∃ ok, cx.upgrade p = some ok ∧ (ok = true → cx.Strong unswept p) := by
  obtain ⟨b, hb, hcolor⟩ := hp
  by_cases hlive : b.isLive = false
  · exact ⟨false, by simp [upgrade, hb, hlive], by simp⟩
  · by_cases hsweep : cx.phase = .sweep ∧ b.color = .whiteWeak
    · exact ⟨false, by simp [upgrade, hb, hlive, hsweep], by simp⟩
    · refine ⟨true, by simp [upgrade, hb, hlive, hsweep], fun _ => ⟨b, hb, by simpa using hlive,
        fun hmem => ?_⟩⟩
      have hphase : cx.phase = .sweep := by
        by_contra hne
        rw [h.layout.unswept_eq hne] at hmem
        simp at hmem
      have hgray := h.marks.not_gray (by rw [hphase]; decide) hb
      cases hc : b.color with
      | white => exact absurd hc (hcolor hmem)
      | whiteWeak => exact absurd ⟨hphase, hc⟩ hsweep
      | gray => exact absurd hc hgray
      | black => rfl

/-! ### The root -/

@[simp] theorem rootBarrier_heap : cx.rootBarrier.heap = cx.heap := by
  rw [rootBarrier]
  split <;> rfl

@[simp] theorem rootBarrier_phase : cx.rootBarrier.phase = cx.phase := by
  rw [rootBarrier]
  split <;> rfl

@[simp] theorem rootBarrier_metrics : cx.rootBarrier.metrics = cx.metrics := by
  rw [rootBarrier]
  split <;> rfl

/-- The root barrier makes the root be traced again. -/
theorem Sound.rootBarrier (h : Sound cx root swept unswept) :
    cx.rootBarrier.Sound root swept unswept := by
  rw [Context.rootBarrier]
  split
  · next hphase =>
      exact ⟨⟨h.layout.front, h.layout.rest, h.layout.mem, h.layout.prev, h.layout.idle⟩,
        ⟨h.marks.grays, h.marks.nodup, h.marks.live, h.marks.quiet, h.marks.settled,
          h.marks.tricolor, fun _ hroots => absurd hroots (by simp), fun _ => rfl,
          h.marks.open'⟩, ⟨h.closed.value, h.closed.leaf⟩, h.root⟩
  · exact h

end Context

end Tcvm.Dmm
