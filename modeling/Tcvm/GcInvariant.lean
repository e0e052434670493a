/-
The invariant of an arena.

All boxes are on one list, and a sweep has a front part behind it and the rest before it.  While
the collector marks, a black box points to nothing that is white.  While it sweeps, a box that the
sweep has yet to meet and that is not black is lost, and nothing that a program can come by points
to it.  Both say the same of a pointer that is safe to hold: its box is there, its value is not
dropped, and the sweep will not take it.

* `Context.Layout` — the list of all boxes, cut at the sweep;
* `Context.Strong`, `Context.Weak`, `Context.Safe` — what may be held;
* `Context.Shaded`, `Context.Marks` — the colours and the two queues;
* `Context.Closed` — what may be held holds nothing else;
* `Context.Sound`, `Arena.Sound` — **the invariant**, of a context and of an arena.
-/

import Mathlib.Data.Finset.Card
import Tcvm.GcArena
import Tcvm.ListSegment

namespace Tcvm.Dmm

open ListSegment

/-- From white to black. -/
def GcColor.rank : GcColor → ℕ
  | white => 0
  | whiteWeak => 1
  | gray => 2
  | black => 3

@[simp] theorem GcColor.rank_white : GcColor.white.rank = 0 := rfl
@[simp] theorem GcColor.rank_whiteWeak : GcColor.whiteWeak.rank = 1 := rfl
@[simp] theorem GcColor.rank_gray : GcColor.gray.rank = 2 := rfl
@[simp] theorem GcColor.rank_black : GcColor.black.rank = 3 := rfl

theorem GcColor.rank_le (c : GcColor) : c.rank ≤ 3 := by
  cases c <;> decide

/-- A colour that is neither gray nor black is one of the two whites. -/
theorem GcColor.white_of_rank {c : GcColor} (h : ¬ 2 ≤ c.rank) : c = .white ∨ c = .whiteWeak := by
  cases c <;> simp_all

namespace Context

/-! ### The memory -/

section Memory

variable (cx : Context) (p q : GcBox) (b : GcBoxInner)

@[simp] theorem setBox_heap :
    (cx.setBox p b).heap q = if q = p then some b else cx.heap q := by
  simp only [setBox, Function.update_apply]

@[simp] theorem setColor_heap (c : GcColor) :
    (cx.setColor p b c).heap q = if q = p then some { b with color := c } else cx.heap q :=
  setBox_heap ..

@[simp] theorem setColor_gray (c : GcColor) : (cx.setColor p b c).gray = cx.gray := rfl

@[simp] theorem setColor_grayAgain (c : GcColor) :
    (cx.setColor p b c).grayAgain = cx.grayAgain := rfl

@[simp] theorem dealloc_heap :
    (cx.dealloc p).heap q = if q = p then none else cx.heap q := by
  simp only [dealloc, Function.update_apply]

@[simp] theorem dropInPlace_heap : (cx.dropInPlace p).heap = cx.heap := rfl

end Memory

/-- The link of the box at `p`. -/
def nextOf (cx : Context) (p : GcBox) : Option GcBox := (cx.heap p).bind GcBoxInner.next

theorem nextOf_eq {cx : Context} {p : GcBox} {b : GcBoxInner} (h : cx.heap p = some b) :
    cx.nextOf p = b.next := by
  rw [nextOf, h]
  rfl

/-! ### The list of all boxes -/

/-- All boxes are on the list, those that the sweep has met (all of them, when there is none)
before those that it has yet to meet.  The last box behind the sweep is `sweep_prev`. -/
structure Layout (cx : Context) (swept unswept : List GcBox) : Prop where
  front : Segment cx.nextOf cx.all swept cx.sweep
  rest : Segment cx.nextOf cx.sweep unswept none
  mem : ∀ p, p ∈ swept ++ unswept ↔ ∃ b, cx.heap p = some b
  prev : cx.sweepPrev = if cx.phase = .sweep then swept.getLast? else none
  idle : cx.phase ≠ .sweep → cx.sweep = none

section Layout

variable {cx : Context} {swept unswept : List GcBox}

theorem Layout.nodup (h : Layout cx swept unswept) : (swept ++ unswept).Nodup :=
  (segment_append.2 ⟨cx.sweep, h.front, h.rest⟩).nodup

/-- Nothing is unswept when there is no sweep. -/
theorem Layout.unswept_eq (h : Layout cx swept unswept) (hphase : cx.phase ≠ .sweep) :
    unswept = [] := by
  have hrest := h.rest
  rw [h.idle hphase] at hrest
  exact hrest.eq_nil

end Layout

/-! ### What may be held -/

/-- A strong pointer to `p` is safe: its value is there, and the sweep will not drop it. -/
def Strong (cx : Context) (unswept : List GcBox) (p : GcBox) : Prop :=
  ∃ b, cx.heap p = some b ∧ b.isLive = true ∧ (p ∈ unswept → b.color = .black)

/-- A weak pointer to `p` is safe: its box is there, and the sweep will not free it. -/
def Weak (cx : Context) (unswept : List GcBox) (p : GcBox) : Prop :=
  ∃ b, cx.heap p = some b ∧ (p ∈ unswept → b.color ≠ .white)

def Safe (cx : Context) (unswept : List GcBox) : Pointer → Prop
  | .gc p => cx.Strong unswept p
  | .weak p => cx.Weak unswept p

theorem Strong.weak {cx : Context} {unswept : List GcBox} {p : GcBox}
    (h : cx.Strong unswept p) : cx.Weak unswept p := by
  obtain ⟨b, hb, -, hcolor⟩ := h
  exact ⟨b, hb, fun hmem => by rw [hcolor hmem]; decide⟩

/-- A value that is safe holds pointers that are safe, and a value that needs no trace holds
none. -/
structure Closed (cx : Context) (unswept : List GcBox) : Prop where
  value : ∀ p b, cx.heap p = some b → cx.Strong unswept p → ∀ q ∈ b.value, cx.Safe unswept q
  leaf : ∀ p b, cx.heap p = some b → b.needsTrace = false → b.value = []

/-! ### The colours -/

/-- Marking has reached the end of the pointer. -/
def Shaded (cx : Context) : Pointer → Prop
  | .gc p => ∃ b, cx.heap p = some b ∧ 2 ≤ b.color.rank
  | .weak p => ∃ b, cx.heap p = some b ∧ 1 ≤ b.color.rank

/-- The colours and the queues.  The box that is being traced, the `hole`, is black before its
value is shaded. -/
structure Marks (cx : Context) (root : List Pointer) (swept : List GcBox)
    (hole : Option GcBox) : Prop where
  grays : ∀ p, p ∈ cx.gray ++ cx.grayAgain ↔ ∃ b, cx.heap p = some b ∧ b.color = .gray
  nodup : (cx.gray ++ cx.grayAgain).Nodup
  live : ∀ p b, cx.heap p = some b → 2 ≤ b.color.rank → b.isLive = true
  quiet : cx.phase ≠ .mark → cx.gray = [] ∧ cx.grayAgain = []
  settled : cx.phase ≠ .mark → ∀ p ∈ swept, ∀ b, cx.heap p = some b → b.color = .white
  tricolor : cx.phase = .mark → ∀ p b, cx.heap p = some b → b.color = .black → some p ≠ hole →
    ∀ q ∈ b.value, cx.Shaded q
  root : cx.phase = .mark → cx.rootNeedsTrace = false → ∀ q ∈ root, cx.Shaded q
  rest : cx.phase = .sleep → cx.rootNeedsTrace = true
  open' : cx.phase ≠ .drop

/-! ### Steps that only change colours -/

end Context

/-- A box without its colour. -/
def GcBoxInner.blank (b : GcBoxInner) : GcBoxInner := { b with color := .white }

/-- Boxes that differ in their colours only. -/
theorem GcBoxInner.eq_of_blank {b b' : GcBoxInner} (h : b'.blank = b.blank) :
    b' = { b with color := b'.color } := by
  cases b
  cases b'
  simp_all [GcBoxInner.blank]

namespace Context

/-- Only colours and queues have changed. -/
structure Recolors (cx cx' : Context) : Prop where
  phase : cx'.phase = cx.phase
  all : cx'.all = cx.all
  sweep : cx'.sweep = cx.sweep
  sweepPrev : cx'.sweepPrev = cx.sweepPrev
  metrics : cx'.metrics = cx.metrics
  boxes : ∀ p, (cx'.heap p).map GcBoxInner.blank = (cx.heap p).map GcBoxInner.blank

namespace Recolors

variable {cx cx' cx'' : Context} {swept : List GcBox} {p : GcBox}

theorem refl (cx : Context) : Recolors cx cx := ⟨rfl, rfl, rfl, rfl, rfl, fun _ => rfl⟩

theorem symm (h : Recolors cx cx') : Recolors cx' cx :=
  ⟨h.phase.symm, h.all.symm, h.sweep.symm, h.sweepPrev.symm, h.metrics.symm,
    fun p => (h.boxes p).symm⟩

theorem trans (h : Recolors cx cx') (h' : Recolors cx' cx'') : Recolors cx cx'' :=
  ⟨h'.phase.trans h.phase, h'.all.trans h.all, h'.sweep.trans h.sweep,
    h'.sweepPrev.trans h.sweepPrev, h'.metrics.trans h.metrics,
    fun p => (h'.boxes p).trans (h.boxes p)⟩

/-- A box stays, but for its colour. -/
theorem box (h : Recolors cx cx') {b : GcBoxInner} (hb : cx.heap p = some b) :
    ∃ c, cx'.heap p = some { b with color := c } := by
  have hsame := h.boxes p
  rw [hb] at hsame
  obtain ⟨b', hb', hblank⟩ := Option.map_eq_some_iff.1 hsame
  exact ⟨b'.color, by rw [hb', ← GcBoxInner.eq_of_blank hblank]⟩

theorem nextOf (h : Recolors cx cx') (p : GcBox) : cx'.nextOf p = cx.nextOf p := by
  have hsame := h.boxes p
  simp only [Context.nextOf]
  cases hb : cx.heap p with
  | none =>
      rw [hb] at hsame
      rw [Option.map_eq_none_iff.1 hsame]
  | some b =>
      obtain ⟨c, hb'⟩ := h.box hb
      rw [hb']
      rfl

theorem exists_box (h : Recolors cx cx') (p : GcBox) :
    (∃ b, cx'.heap p = some b) ↔ ∃ b, cx.heap p = some b :=
  ⟨fun ⟨_, hb⟩ => (h.symm.box hb).elim fun _ hb' => ⟨_, hb'⟩,
    fun ⟨_, hb⟩ => (h.box hb).elim fun _ hb' => ⟨_, hb'⟩⟩

/-- The list of all boxes is as it was. -/
theorem layout (h : Recolors cx cx') {unswept : List GcBox} (hlayout : Layout cx swept unswept) :
    Layout cx' swept unswept where
  front := by
    rw [h.all, h.sweep]
    exact hlayout.front.congr fun p _ => h.nextOf p
  rest := by
    rw [h.sweep]
    exact hlayout.rest.congr fun p _ => h.nextOf p
  mem := fun p => (hlayout.mem p).trans (h.exists_box p).symm
  prev := by
    rw [h.sweepPrev, h.phase]
    exact hlayout.prev
  idle := fun hphase => by
    rw [h.sweep]
    exact hlayout.idle (h.phase ▸ hphase)

/-! Where nothing is unswept, what may be held does not depend on the colours. -/

theorem safe (h : Recolors cx cx') {q : Pointer} (hq : cx.Safe [] q) : cx'.Safe [] q := by
  cases q with
  | gc p =>
      obtain ⟨b, hb, hlive, -⟩ := hq
      obtain ⟨c, hb'⟩ := h.box hb
      exact ⟨_, hb', hlive, by simp⟩
  | weak p =>
      obtain ⟨b, hb, -⟩ := hq
      obtain ⟨c, hb'⟩ := h.box hb
      exact ⟨_, hb', by simp⟩

theorem closed (h : Recolors cx cx') (hclosed : Closed cx []) : Closed cx' [] where
  value := by
    intro p b' hb' hstrong q hq
    obtain ⟨c, hb⟩ := h.symm.box hb'
    have hstrong' : cx.Safe [] (.gc p) := h.symm.safe (q := .gc p) hstrong
    exact h.safe (hclosed.value p _ hb hstrong' q hq)
  leaf := by
    intro p b' hb' hleaf
    obtain ⟨c, hb⟩ := h.symm.box hb'
    have hempty := hclosed.leaf p _ hb hleaf
    exact hempty

end Recolors

/-! ### The invariant -/

/-- **The invariant of a context**, whose list of boxes is cut at the sweep. -/
structure Sound (cx : Context) (root : List Pointer) (swept unswept : List GcBox) : Prop where
  layout : cx.Layout swept unswept
  marks : cx.Marks root swept none
  closed : cx.Closed unswept
  root : ∀ q ∈ root, cx.Safe unswept q

/-- What a barrier that a callback has called is worth: the parent is not black, or has no pointers
to adopt, or the child is shaded. -/
def Granted (cx : Context) (p : GcBox) (q : Pointer) : Prop :=
  (∃ b, cx.heap p = some b ∧ (b.color ≠ .black ∨ b.needsTrace = false)) ∨ cx.Shaded q

end Context

/-- **The invariant of an arena**, with what its callback holds. -/
structure Arena.Sound (a : Arena) (swept unswept : List GcBox) : Prop where
  context : a.context.Sound a.root swept unswept
  held : ∀ q ∈ a.held, a.context.Safe unswept q
  granted : a.context.phase = .mark → ∀ permit ∈ a.permits, ∀ p q, permit.covers p q →
    a.context.Granted p q
  rooted : a.Runs .mutateRoot → a.context.phase = .mark → a.context.rootNeedsTrace = true
  finalizing : a.Runs .finalize → a.context.phase = .mark

end Tcvm.Dmm
