/-
**Forests with weak edges to the children and strong links to the parents.**

A transition tree that shares nodes without keeping them alive points to its children through weak
edges: a node that nothing else refers to may be reclaimed, and its edge is then refused and later
replaced.  What saves the sharing is the link back: a node keeps its parent, so whoever holds a
node holds its whole way to the root, and no edge on that way can be replaced.

Main definitions:

* `WeakForest` — the root, the labelled edges, the parent links and what has been reclaimed;
* `WeakForest.walk` — the node that a list of labels leads to;
* `WeakForest.Spared` — neither the node nor any of its ancestors has been reclaimed;
* `WeakForest.KeepsEdges` — an edge to a node that has not been reclaimed is still there.

Main results:

* `WeakForest.walk_keeps` — **a walk to a spared node is never redirected**;
* `WeakForest.Spared.child`, `WeakForest.Spared.agree` — sparedness along an edge, and in a forest
  that agrees on the ancestors.
-/

import Mathlib.Data.List.Induction
import Mathlib.Logic.Relation

/-- A rooted forest with labelled weak edges and parent links. -/
structure WeakForest (Node Label : Type*) where
  root : Node
  edge : Node → Label → Option Node
  parent : Node → Option Node
  /-- The nodes the collector has reclaimed. -/
  reclaimed : Node → Bool

namespace WeakForest

variable {Node Label : Type*} {F F' : WeakForest Node Label}

/-! ### Walks -/

/-- The node that a list of labels leads to from the root. -/
def walk (F : WeakForest Node Label) (labels : List Label) : Option Node :=
  labels.foldl (fun n l => n.bind fun n => F.edge n l) (some F.root)

@[simp] theorem walk_nil : F.walk [] = some F.root := rfl

theorem walk_snoc (labels : List Label) (l : Label) :
    F.walk (labels ++ [l]) = (F.walk labels).bind fun n => F.edge n l := by
  simp only [walk, List.foldl_append, List.foldl_cons, List.foldl_nil]

/-- The last edge of a walk. -/
theorem walk_snoc_eq_some {labels : List Label} {l : Label} {n : Node}
    (h : F.walk (labels ++ [l]) = some n) : ∃ p, F.walk labels = some p ∧ F.edge p l = some n := by
  rw [walk_snoc] at h
  exact Option.bind_eq_some_iff.1 h

/-! ### Ancestors -/

/-- `a` is `n` or one of its ancestors. -/
def Above (F : WeakForest Node Label) (n a : Node) : Prop :=
  Relation.ReflTransGen (fun s p => F.parent s = some p) n a

theorem Above.of_parent {n p a : Node} (hp : F.parent n = some p) (ha : F.Above p a) :
    F.Above n a :=
  Relation.ReflTransGen.head hp ha

/-- The ancestors of a node other than the node itself are those of its parent. -/
theorem Above.cases {n a : Node} (h : F.Above n a) :
    a = n ∨ ∃ p, F.parent n = some p ∧ F.Above p a := by
  rcases Relation.ReflTransGen.cases_head h with heq | ⟨p, hp, hpa⟩
  · exact Or.inl heq.symm
  · exact Or.inr ⟨p, hp, hpa⟩

/-- Neither the node nor any of its ancestors has been reclaimed. -/
def Spared (F : WeakForest Node Label) (n : Node) : Prop :=
  ∀ a, F.Above n a → F.reclaimed a = false

theorem Spared.self {n : Node} (h : F.Spared n) : F.reclaimed n = false :=
  h n Relation.ReflTransGen.refl

theorem Spared.parent {n p : Node} (h : F.Spared n) (hp : F.parent n = some p) : F.Spared p :=
  fun a ha => h a (Above.of_parent hp ha)

/-- A node below a spared parent is spared unless it has been reclaimed itself. -/
theorem Spared.child {n p : Node} (h : F.Spared p) (hp : F.parent n = some p)
    (hn : F.reclaimed n = false) : F.Spared n := by
  intro a ha
  rcases Above.cases ha with rfl | ⟨q, hq, hqa⟩
  · exact hn
  · obtain rfl : p = q := Option.some.inj (hp.symm.trans hq)
    exact h a hqa

/-- A spared node is spared in every forest that agrees on a set of nodes closed under parents. -/
theorem Spared.agree {n : Node} (S : Node → Prop) (hn : S n) (h : F.Spared n)
    (hclosed : ∀ s p, S s → F.parent s = some p → S p)
    (hparent : ∀ s, S s → F'.parent s = F.parent s)
    (hreclaimed : ∀ s, S s → F.reclaimed s = false → F'.reclaimed s = false) : F'.Spared n := by
  -- an ancestor in the new forest is one in the old forest, and in the set
  have hback : ∀ a, F'.Above n a → F.Above n a ∧ S a := by
    intro a ha
    induction ha with
    | refl => exact ⟨Relation.ReflTransGen.refl, hn⟩
    | tail _ hp ih =>
        obtain ⟨habove, hs⟩ := ih
        rw [hparent _ hs] at hp
        exact ⟨habove.tail hp, hclosed _ _ hs hp⟩
  intro a ha
  obtain ⟨habove, hs⟩ := hback a ha
  exact hreclaimed a hs (h a habove)

/-! ### Walks survive -/

/-- The target of an edge knows where it came from. -/
def Linked (F : WeakForest Node Label) : Prop :=
  ∀ p l n, F.edge p l = some n → F.parent n = some p

/-- The root is the same, and an edge to a node that has not been reclaimed is still there. -/
structure KeepsEdges (F F' : WeakForest Node Label) : Prop where
  root : F'.root = F.root
  edge : ∀ p l n, F.edge p l = some n → F.reclaimed n = false → F'.edge p l = some n

/-- **A walk to a spared node is never redirected**: every node on the way is an ancestor of its
end, so none of its edges has been replaced. -/
theorem walk_keeps (hlinked : F.Linked) (hkeeps : F.KeepsEdges F') (labels : List Label) :
    ∀ n, F.walk labels = some n → F.Spared n → F'.walk labels = some n := by
  induction labels using List.reverseRecOn with
  | nil =>
      intro n hwalk _
      rw [walk_nil] at hwalk ⊢
      rw [hkeeps.root]
      exact hwalk
  | append_singleton labels l ih =>
      intro n hwalk hspared
      obtain ⟨p, hp, hedge⟩ := walk_snoc_eq_some hwalk
      have hp' : F'.walk labels = some p := ih p hp (hspared.parent (hlinked p l n hedge))
      rw [walk_snoc, hp']
      exact hkeeps.edge p l n hedge hspared.self

end WeakForest
