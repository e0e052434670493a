/-
Segments of an intrusive linked list.

Each cell knows its successor, and the cells have no other order.  A segment is the chain of cells
from one pointer up to another, as a list.  What a program does to such a list is said here once,
for any cells: nothing depends on what else a cell holds.

* `Segment` — the cells from a head pointer up to an end pointer;
* `segment_append` — segments in a row;
* `Segment.congr` — a segment depends on its own cells only;
* `Segment.relink` — the last cell of a segment is pointed elsewhere;
* `Segment.nodup` — **a segment that ends holds each cell once**.
-/

import Mathlib.Data.List.Nodup

namespace ListSegment

variable {α : Type*} {next next' : α → Option α}

/-- The cells from the pointer `h` up to the pointer `e`. -/
def Segment (next : α → Option α) : Option α → List α → Option α → Prop
  | h, [], e => h = e
  | h, a :: l, e => h = some a ∧ Segment next (next a) l e

@[simp] theorem segment_nil {h e : Option α} : Segment next h [] e ↔ h = e := Iff.rfl

@[simp] theorem segment_cons {h e : Option α} {a : α} {l : List α} :
    Segment next h (a :: l) e ↔ h = some a ∧ Segment next (next a) l e := Iff.rfl

/-- Two segments in a row meet at a pointer. -/
theorem segment_append {l₁ l₂ : List α} {h e : Option α} :
    Segment next h (l₁ ++ l₂) e ↔ ∃ m, Segment next h l₁ m ∧ Segment next m l₂ e := by
  induction l₁ generalizing h with
  | nil => simp
  | cons a l₁ ih =>
      rw [List.cons_append, segment_cons, ih]
      constructor
      · rintro ⟨rfl, m, hfirst, hsecond⟩
        exact ⟨m, ⟨rfl, hfirst⟩, hsecond⟩
      · rintro ⟨m, ⟨rfl, hfirst⟩, hsecond⟩
        exact ⟨rfl, m, hfirst, hsecond⟩

/-- A segment depends on the successors of its own cells only. -/
theorem Segment.congr {l : List α} {h e : Option α} (hseg : Segment next h l e)
    (hsame : ∀ a ∈ l, next' a = next a) : Segment next' h l e := by
  induction l generalizing h with
  | nil => exact hseg
  | cons a l ih =>
      obtain ⟨rfl, hrest⟩ := hseg
      refine ⟨rfl, ?_⟩
      rw [hsame a (List.mem_cons_self ..)]
      exact ih hrest fun b hb => hsame b (List.mem_cons_of_mem _ hb)

/-- A segment without cells starts where it ends. -/
theorem Segment.eq_nil {l : List α} (hseg : Segment next none l none) : l = [] := by
  cases l with
  | nil => rfl
  | cons a l => exact absurd hseg.1 (by simp)

/-- The last cell of a segment is pointed elsewhere, and the others stay. -/
theorem Segment.relink {l : List α} {a : α} {h e e' : Option α}
    (hseg : Segment next h (l ++ [a]) e) (hlast : next' a = e')
    (hsame : ∀ b ∈ l, next' b = next b) : Segment next' h (l ++ [a]) e' := by
  obtain ⟨m, hfront, rfl, -⟩ := segment_append.1 hseg
  exact segment_append.2 ⟨some a, hfront.congr hsame, rfl, hlast⟩

/-! ### A segment that ends -/

/-- The list that starts at a pointer is determined. -/
theorem Segment.unique {l l' : List α} {h : Option α} (hseg : Segment next h l none)
    (hseg' : Segment next h l' none) : l = l' := by
  induction l generalizing h l' with
  | nil =>
      obtain rfl : h = none := hseg
      exact hseg'.eq_nil.symm
  | cons a l ih =>
      obtain ⟨rfl, hrest⟩ := hseg
      cases l' with
      | nil => exact absurd hseg' (by simp)
      | cons b l' =>
          obtain ⟨hb, hrest'⟩ := hseg'
          obtain rfl := Option.some.inj hb
          rw [ih hrest hrest']

/-- Behind a cell of the list the list goes on from its successor. -/
theorem Segment.behind {l : List α} {a : α} {h : Option α} (hseg : Segment next h l none)
    (ha : a ∈ l) : ∃ before after, l = before ++ a :: after ∧
      Segment next (next a) after none := by
  obtain ⟨before, after, rfl⟩ := List.append_of_mem ha
  obtain ⟨m, -, -, hafter⟩ := segment_append.1 hseg
  exact ⟨before, after, rfl, hafter⟩

/-- **A segment that ends holds each cell once**: behind its second occurrence a cell would have
to be followed by less than behind its first. -/
theorem Segment.nodup {l : List α} {h : Option α} (hseg : Segment next h l none) : l.Nodup := by
  induction l generalizing h with
  | nil => exact List.nodup_nil
  | cons a l ih =>
      obtain ⟨rfl, hrest⟩ := hseg
      refine List.nodup_cons.2 ⟨fun hmem => ?_, ih hrest⟩
      obtain ⟨before, after, hsplit, hafter⟩ := hrest.behind hmem
      -- the list behind `a` would be a proper part of itself
      have hsame := congrArg List.length (hrest.unique hafter)
      rw [hsplit] at hsame
      simp at hsame
      omega

end ListSegment
