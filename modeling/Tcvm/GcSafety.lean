/-
An arena never loses what a program can reach.

The graph of an arena has its root, and what the running callback holds, as roots; strong pointers
are its strong edges.  Whatever the program and the collector have done, in whatever order, the
values that the graph reaches have not been dropped, the boxes of its weak pointers have not been
freed, and nothing that may happen next is a fault.

* `Arena.graph` — what a program can come by;
* `Arena.reachable_safe` — **nothing that can be reached is lost, in any run**.
-/

import Tcvm.GcCallbacks
import Tcvm.MarkedGraph

namespace Tcvm.Dmm

open MarkedGraph

/-- The pointers of the boxes, and those that the roots are. -/
def Context.graph (cx : Context) (roots : List Pointer) : Graph GcBox where
  root := fun p => .gc p ∈ roots
  weakRoot := fun p => .weak p ∈ roots
  edge := fun p q => ∃ b, cx.heap p = some b ∧ .gc q ∈ b.value
  weakEdge := fun p q => ∃ b, cx.heap p = some b ∧ .weak q ∈ b.value

namespace Arena

variable {a : Arena} {swept unswept : List GcBox}

/-- What a program can come by: the root, and what the running callback holds, are the roots. -/
def graph (a : Arena) : Graph GcBox := a.context.graph (a.root ++ a.held)

/-- What is reached is safe to hold. -/
theorem Sound.reached (h : a.Sound swept unswept) {p : GcBox} (hp : Reached a.graph p) :
    a.context.Strong unswept p := by
  refine reached_subset (S := {p | a.context.Strong unswept p}) (fun q hq => ?_)
    (fun q hq r hr => ?_) hp
  · rcases List.mem_append.1 hq with hroot | hheld
    · exact h.context.root _ hroot
    · exact h.held _ hheld
  · obtain ⟨b, hb, hmem⟩ := hr
    exact h.context.closed.value q b hb hq _ hmem

theorem Sound.weaklyReached (h : a.Sound swept unswept) {p : GcBox}
    (hp : WeaklyReached a.graph p) : a.context.Weak unswept p := by
  rcases hp with hroot | ⟨q, hq, b, hb, hmem⟩
  · rcases List.mem_append.1 hroot with hroot | hheld
    · exact h.context.root _ hroot
    · exact h.held _ hheld
  · exact h.context.closed.value q b hb (h.reached hq) _ hmem

/-- **Nothing that can be reached is lost, in any run**: its value is there, the boxes of weak
pointers are there, and whatever may happen next happens without a fault. -/
theorem reachable_safe (h : a.Reachable) :
    (∀ p, Reached a.graph p → ∃ b, a.context.heap p = some b ∧ b.isLive = true) ∧
      (∀ p, WeaklyReached a.graph p → ∃ b, a.context.heap p = some b) ∧
      ∀ action, a.Permits action → ∀ rounds, a.perform rounds action ≠ .fault := by
  have hsound := reachable_isSound h
  refine ⟨fun p hp => ?_, fun p hp => ?_, fun action hpermits rounds hfault => ?_⟩
  · obtain ⟨swept, unswept, hsound⟩ := hsound
    obtain ⟨b, hb, hlive, -⟩ := hsound.reached hp
    exact ⟨b, hb, hlive⟩
  · obtain ⟨swept, unswept, hsound⟩ := hsound
    obtain ⟨b, hb, -⟩ := hsound.weaklyReached hp
    exact ⟨b, hb⟩
  · have hspec := perform_spec hsound hpermits rounds
    rw [hfault] at hspec
    exact hspec

/-! A program that allocates a value and one that points to it, and makes that the root. -/

/-- The arena behind the first two steps of the program. -/
def pairAllocated : Arena :=
  let first := { new with context := new.context.allocate 1 false [] }.hold (.gc 1)
  { first with context := first.context.allocate 2 true [.gc 1] }.hold (.gc 2)

/-- The arena of the program. -/
def pairArena : Arena :=
  { pairAllocated with root := [.gc 2], session := none }

theorem pairAllocated_reachable : pairAllocated.Reachable := by
  refine .tail (.tail .refl ⟨.allocate 1 false [], 0, ?_, Or.inl rfl⟩)
    ⟨.allocate 2 true [.gc 1], 0, ?_, Or.inl rfl⟩
  · exact ⟨rfl, rfl, by simp, by simp⟩
  · exact ⟨rfl, rfl, by decide, by simp⟩

theorem pairArena_reachable : pairArena.Reachable := by
  refine .tail (.tail pairAllocated_reachable ⟨.storeRoot [.gc 2], 0, ?_, Or.inl rfl⟩)
    ⟨.leave, 0, ?_, Or.inl rfl⟩
  · exact ⟨rfl, by decide⟩
  · exact rfl

/-- What is behind the root is kept by a cycle. -/
theorem reachable_safe_pair :
    ∃ a, pairArena.perform 9 (.collect .stop .finishCycle fun _ => ⟨true, none⟩) = .done a ∧
      .finished ∈ a.context.metrics ∧
      (∃ b, a.context.heap 1 = some b ∧ b.isLive = true) ∧
      ∀ action, a.Permits action → ∀ rounds, a.perform rounds action ≠ .fault := by
  obtain ⟨a, hdone, hroot, hvalue, hfinished⟩ : ∃ a,
      pairArena.perform 9 (.collect .stop .finishCycle fun _ => ⟨true, none⟩) = .done a ∧
        .gc 2 ∈ a.root ∧ (∃ b, a.context.heap 2 = some b ∧ .gc 1 ∈ b.value) ∧
          .finished ∈ a.context.metrics :=
    ⟨_, rfl, by decide, ⟨_, rfl, by decide⟩, by decide⟩
  obtain ⟨hlive, -, hpermits⟩ :=
    reachable_safe (pairArena_reachable.tail ⟨.collect _ _ _, 9, (rfl : _ = _), Or.inl hdone⟩)
  have hreached : Reached a.graph 2 := .root (List.mem_append_left _ hroot)
  exact ⟨a, hdone, hfinished, hlive 1 (hreached.edge hvalue), hpermits⟩

end Arena

end Tcvm.Dmm
