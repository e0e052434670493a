/-
Reachability in a graph with two kinds of edges.

A strong edge leads on: what it leads to is reached, with all that is behind it.  A weak edge leads
no further than its end.  Both kinds start from the roots.

* `Reached`, `WeaklyReached` — what the strong edges reach, and the ends of weak edges from there;
* `Graph.merged` — the graph in which weak edges lead on as well;
* `reached_subset` — **a closed set that holds the roots holds what is reached**.
-/

import Mathlib.Data.Set.Basic

namespace MarkedGraph

variable {α : Type*}

/-- A graph with roots, whose edges are strong or weak. -/
structure Graph (α : Type*) where
  root : α → Prop
  weakRoot : α → Prop
  edge : α → α → Prop
  weakEdge : α → α → Prop

/-- The nodes that the strong edges lead to from the roots. -/
inductive Reached (G : Graph α) : α → Prop
  | root {a : α} (h : G.root a) : Reached G a
  | edge {a b : α} (ha : Reached G a) (h : G.edge a b) : Reached G b

/-- The end of a weak edge from a root or from a node that is reached. -/
def WeaklyReached (G : Graph α) (b : α) : Prop :=
  G.weakRoot b ∨ ∃ a, Reached G a ∧ G.weakEdge a b

/-- The graph in which every edge is strong. -/
def Graph.merged (G : Graph α) : Graph α where
  root := fun a => G.root a ∨ G.weakRoot a
  weakRoot := fun _ => False
  edge := fun a b => G.edge a b ∨ G.weakEdge a b
  weakEdge := fun _ _ => False

variable {G : Graph α} {S : Set α}

/-- **A set that holds the roots and is closed under the strong edges holds what is reached.** -/
theorem reached_subset (hroot : ∀ a, G.root a → a ∈ S)
    (hclosed : ∀ a ∈ S, ∀ b, G.edge a b → b ∈ S) {a : α} (h : Reached G a) : a ∈ S := by
  induction h with
  | root h => exact hroot _ h
  | edge _ h ih => exact hclosed _ ih _ h

end MarkedGraph
