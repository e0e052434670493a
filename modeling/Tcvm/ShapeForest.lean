/-
**The transition tree is a forest with weak edges.**

A shape keeps the shape it was derived from, and knows its children only through weak edges that
are replaced when the child has been reclaimed.  This module reads the heap of
`Tcvm/ShapeTree.lean` as a forest of `Tcvm/WeakForest.lean`, whose labels are the changes a table
can go through, and proves of every operation on tables that it keeps the edges to the shapes that
have not been reclaimed.  What happens to the shape of the table itself is one of three things: it
stays, it goes to the child of one change, or the table migrates to a dictionary shape.

Main definitions:

* `Change`, `Heap.forest` — the changes of a table, and the shapes as a forest;
* `ForestOk` — edges and parent links agree, and lead where they should;
* `Heap.Evolves` — the edges that matter, the parent links, the caches and the sentinels are kept;
* `Move`, `Heap.Reshapes` — what an operation on a table does to its shape.

Main results:

* `transitionAddProp_derives`, `transitionSetMetatable_derives` — a transition leads along its
  edge, to a shape that is alive;
* `rawSet_reshapes`, `setMetatable_reshapes` — **what a write and a new metatable do to a shape**.
-/

import Tcvm.TableRuns
import Tcvm.WeakForest

namespace Tcvm

/-! ### The forest -/

/-- What changes the shape of a table: a new string key, or a metatable. -/
inductive Change
  | key (k : LuaString)
  | metatable (mt : Option TableId)
  deriving DecidableEq

/-- The shapes as a forest.  The edge of a metatable is the one under its cache. -/
def Heap.forest (h : Heap) : WeakForest ShapeId Change :=
  { root := h.emptyShape
    edge := fun p c =>
      match c with
      | Change.key k => (h.shapes p).byProp.lookup k
      | Change.metatable none => (h.shapes p).byMt.lookup none
      | Change.metatable (some m) =>
          (h.tables m).mtCache.bind fun c => (h.shapes p).byMt.lookup (some c)
    parent := fun s => (h.shapes s).parent
    reclaimed := h.collected }

/-- Edges lead to allocated shapes that link back, a parent is older than its children, and only
allocated shapes are reclaimed. -/
structure ForestOk (h : Heap) : Prop where
  propEdge : ∀ p k s, (h.shapes p).byProp.lookup k = some s →
    (h.shapes s).parent = some p ∧ s < h.nextShape
  mtEdge : ∀ p c s, (h.shapes p).byMt.lookup c = some s →
    (h.shapes s).parent = some p ∧ s < h.nextShape
  parent_lt : ∀ s p, (h.shapes s).parent = some p → p < s
  collected_lt : ∀ s, h.collected s = true → s < h.nextShape

/-- The target of an edge is allocated and links back. -/
theorem ForestOk.edge {h : Heap} (hf : ForestOk h) {p s : ShapeId} {c : Change}
    (hedge : h.forest.edge p c = some s) :
    (h.shapes s).parent = some p ∧ s < h.nextShape := by
  cases c with
  | key k => exact hf.propEdge p k s hedge
  | metatable mt =>
      cases mt with
      | none => exact hf.mtEdge p none s hedge
      | some m =>
          obtain ⟨c, -, hlookup⟩ := Option.bind_eq_some_iff.1 hedge
          exact hf.mtEdge p (some c) s hlookup

theorem ForestOk.linked {h : Heap} (hf : ForestOk h) : h.forest.Linked :=
  fun _ _ _ hedge => (hf.edge hedge).1

/-- The dictionary shape of a metatable cache. -/
def Heap.IsSentinel (h : Heap) (s : ShapeId) : Option MtCacheId → Prop
  | some c => (h.mtCaches c).dictSentinel = some s
  | none => s = h.emptyDictSentinel

/-- What every operation keeps: the edges to the shapes that have not been reclaimed, the parent
links, the caches of tables and the dictionary sentinels. -/
structure Heap.Evolves (h h' : Heap) : Prop where
  ok : ForestOk h'
  nextShape : h.nextShape ≤ h'.nextShape
  propEdge : ∀ p k s, p < h.nextShape → (h.shapes p).byProp.lookup k = some s →
    h.collected s = false → (h'.shapes p).byProp.lookup k = some s
  mtEdge : ∀ p c s, p < h.nextShape → (h.shapes p).byMt.lookup c = some s →
    h.collected s = false → (h'.shapes p).byMt.lookup c = some s
  parent : ∀ s < h.nextShape, (h'.shapes s).parent = (h.shapes s).parent
  collected : h'.collected = h.collected
  emptyShape : h'.emptyShape = h.emptyShape
  emptyDict : h'.emptyDictSentinel = h.emptyDictSentinel
  nextMtCache : h.nextMtCache ≤ h'.nextMtCache
  sentinel : ∀ c s, c < h.nextMtCache → (h.mtCaches c).dictSentinel = some s →
    (h'.mtCaches c).dictSentinel = some s
  caches : KeepsCaches h h'

namespace Heap.Evolves

theorem refl {h : Heap} (hf : ForestOk h) : h.Evolves h :=
  ⟨hf, Nat.le_refl _, fun _ _ _ _ hl _ => hl, fun _ _ _ _ hl _ => hl, fun _ _ => rfl, rfl, rfl,
    rfl, Nat.le_refl _, fun _ _ _ hs => hs, KeepsCaches.refl h⟩

theorem trans {a b c : Heap} (h₁ : a.Evolves b) (h₂ : b.Evolves c) : a.Evolves c := by
  refine ⟨h₂.ok, Nat.le_trans h₁.nextShape h₂.nextShape, ?_, ?_, ?_,
    h₂.collected.trans h₁.collected, h₂.emptyShape.trans h₁.emptyShape,
    h₂.emptyDict.trans h₁.emptyDict, Nat.le_trans h₁.nextMtCache h₂.nextMtCache, ?_,
    h₁.caches.trans h₂.caches⟩
  · intro p k s hp hl hs
    exact h₂.propEdge p k s (Nat.lt_of_lt_of_le hp h₁.nextShape) (h₁.propEdge p k s hp hl hs)
      (by rw [h₁.collected]; exact hs)
  · intro p c s hp hl hs
    exact h₂.mtEdge p c s (Nat.lt_of_lt_of_le hp h₁.nextShape) (h₁.mtEdge p c s hp hl hs)
      (by rw [h₁.collected]; exact hs)
  · intro s hs
    rw [h₂.parent s (Nat.lt_of_lt_of_le hs h₁.nextShape), h₁.parent s hs]
  · intro c s hc hs
    exact h₂.sentinel c s (Nat.lt_of_lt_of_le hc h₁.nextMtCache) (h₁.sentinel c s hc hs)

/-- Nothing about the shapes has changed, and no table or cache has lost anything. -/
theorem of_shapes {h h' : Heap} (hf : ForestOk h) (hshapes : h'.shapes = h.shapes)
    (hnext : h'.nextShape = h.nextShape) (hcollected : h'.collected = h.collected)
    (hempty : h'.emptyShape = h.emptyShape) (hdict : h'.emptyDictSentinel = h.emptyDictSentinel)
    (hmt : h.nextMtCache ≤ h'.nextMtCache)
    (hsentinel : ∀ c s, c < h.nextMtCache → (h.mtCaches c).dictSentinel = some s →
      (h'.mtCaches c).dictSentinel = some s)
    (hcaches : KeepsCaches h h') : h.Evolves h' := by
  refine ⟨⟨?_, ?_, ?_, ?_⟩, Nat.le_of_eq hnext.symm, ?_, ?_, ?_, hcollected, hempty, hdict, hmt,
    hsentinel, hcaches⟩
  · rw [hshapes, hnext]; exact hf.propEdge
  · rw [hshapes, hnext]; exact hf.mtEdge
  · rw [hshapes]; exact hf.parent_lt
  · rw [hcollected, hnext]; exact hf.collected_lt
  · intro p k s _ hl _
    rw [hshapes]
    exact hl
  · intro p c s _ hl _
    rw [hshapes]
    exact hl
  · intro s _
    rw [hshapes]

/-- A table is replaced by one with the same cache. -/
theorem setTable {h : Heap} (hf : ForestOk h) {t : TableId} {d : TableState}
    (hown : d.mtCache = (h.tables t).mtCache) : h.Evolves (h.setTable t d) :=
  of_shapes hf rfl rfl rfl rfl rfl (Nat.le_refl _) (fun _ _ _ hs => hs)
    (KeepsCaches.setTable h hown)

/-- The bit of a metamethod is mirrored. -/
theorem maybeUpdateMtBit {h : Heap} (hf : ForestOk h) (t : TableId) (key : LuaString)
    (v : Value) : h.Evolves (h.maybeUpdateMtBit t key v) := by
  have hcaches := maybeUpdateMtBit_keepsCaches h t key v
  unfold Heap.maybeUpdateMtBit at hcaches ⊢
  split
  case h_1 c bit hc hbit =>
    rw [hc, hbit] at hcaches
    refine of_shapes hf rfl rfl rfl rfl rfl (Nat.le_refl _) ?_ hcaches
    intro c' s _ hs
    by_cases hne : c' = c
    · subst hne
      simp only [Heap.setMtCache, Function.update_self]
      exact hs
    · simp only [Heap.setMtCache, Function.update_of_ne hne]
      exact hs
  case h_2 => exact refl hf

/-- An allocated shape without edges, under a parent that exists. -/
theorem allocShape {h : Heap} (hf : ForestOk h) {d : ShapeData} (hprop : d.byProp = ∅)
    (hmt : d.byMt = ∅) (hparent : ∀ p, d.parent = some p → p < h.nextShape) :
    h.Evolves (h.allocShape d).2 := by
  have hself : (h.allocShape d).2.shapes h.nextShape = d := shapes_allocShape h d
  have hold : ∀ s, s ≠ h.nextShape → (h.allocShape d).2.shapes s = h.shapes s := by
    intro s hne
    simp only [Heap.allocShape, Heap.setShape, Function.update_of_ne hne]
  refine ⟨⟨?_, ?_, ?_, ?_⟩, Nat.le_succ _, ?_, ?_, ?_, rfl, rfl, rfl, Nat.le_refl _,
    fun _ _ _ hs => hs, KeepsCaches.of_tables rfl⟩
  · intro p k s hl
    by_cases hp : p = h.nextShape
    · rw [hp, hself, hprop] at hl
      simp at hl
    · rw [hold p hp] at hl
      obtain ⟨hback, hlt⟩ := hf.propEdge p k s hl
      rw [hold s (Nat.ne_of_lt hlt)]
      exact ⟨hback, Nat.lt_succ_of_lt hlt⟩
  · intro p c s hl
    by_cases hp : p = h.nextShape
    · rw [hp, hself, hmt] at hl
      simp at hl
    · rw [hold p hp] at hl
      obtain ⟨hback, hlt⟩ := hf.mtEdge p c s hl
      rw [hold s (Nat.ne_of_lt hlt)]
      exact ⟨hback, Nat.lt_succ_of_lt hlt⟩
  · intro s p hback
    by_cases hs : s = h.nextShape
    · rw [hs, hself] at hback
      rw [hs]
      exact hparent p hback
    · rw [hold s hs] at hback
      exact hf.parent_lt s p hback
  · intro s hs
    exact Nat.lt_succ_of_lt (hf.collected_lt s hs)
  · intro p k s hp hl _
    rw [hold p (Nat.ne_of_lt hp)]
    exact hl
  · intro p c s hp hl _
    rw [hold p (Nat.ne_of_lt hp)]
    exact hl
  · intro s hs
    rw [hold s (Nat.ne_of_lt hs)]

/-- The edges of one shape are rewritten: the new ones link back, and those to shapes that have
not been reclaimed stay. -/
theorem setShape {h : Heap} (hf : ForestOk h) {p : ShapeId} {d : ShapeData}
    (hparent : d.parent = (h.shapes p).parent)
    (hprop : ∀ k s, d.byProp.lookup k = some s →
      (h.shapes s).parent = some p ∧ s < h.nextShape)
    (hmt : ∀ c s, d.byMt.lookup c = some s → (h.shapes s).parent = some p ∧ s < h.nextShape)
    (hkeepProp : ∀ k s, (h.shapes p).byProp.lookup k = some s → h.collected s = false →
      d.byProp.lookup k = some s)
    (hkeepMt : ∀ c s, (h.shapes p).byMt.lookup c = some s → h.collected s = false →
      d.byMt.lookup c = some s) : h.Evolves (h.setShape p d) := by
  have hself : (h.setShape p d).shapes p = d := Function.update_self _ _ _
  have hold : ∀ s, s ≠ p → (h.setShape p d).shapes s = h.shapes s :=
    fun s hne => Function.update_of_ne hne _ _
  have hback : ∀ s, ((h.setShape p d).shapes s).parent = (h.shapes s).parent := by
    intro s
    by_cases hs : s = p
    · rw [hs, hself, hparent]
    · rw [hold s hs]
  refine ⟨⟨?_, ?_, ?_, hf.collected_lt⟩, Nat.le_refl _, ?_, ?_, fun s _ => hback s, rfl, rfl, rfl,
    Nat.le_refl _, fun _ _ _ hs => hs, KeepsCaches.of_tables rfl⟩
  · intro q k s hl
    rw [hback]
    by_cases hq : q = p
    · subst hq
      rw [hself] at hl
      exact hprop k s hl
    · rw [hold q hq] at hl
      exact hf.propEdge q k s hl
  · intro q c s hl
    rw [hback]
    by_cases hq : q = p
    · subst hq
      rw [hself] at hl
      exact hmt c s hl
    · rw [hold q hq] at hl
      exact hf.mtEdge q c s hl
  · intro s q hs
    rw [hback] at hs
    exact hf.parent_lt s q hs
  · intro q k s _ hl hs
    by_cases hq : q = p
    · subst hq
      rw [hself]
      exact hkeepProp k s hl hs
    · rw [hold q hq]
      exact hl
  · intro q c s _ hl hs
    by_cases hq : q = p
    · subst hq
      rw [hself]
      exact hkeepMt c s hl hs
    · rw [hold q hq]
      exact hl

/-- A child is allocated under `p` and the edges of `p` are rewritten: the new ones are old ones or
lead to the child. -/
theorem adopt {h : Heap} (hf : ForestOk h) {p : ShapeId} {d e : ShapeData} (hp : p < h.nextShape)
    (hdprop : d.byProp = ∅) (hdmt : d.byMt = ∅) (hdparent : d.parent = some p)
    (hparent : e.parent = (h.shapes p).parent)
    (hprop : ∀ k s, e.byProp.lookup k = some s →
      s = h.nextShape ∨ (h.shapes p).byProp.lookup k = some s)
    (hmt : ∀ c s, e.byMt.lookup c = some s → s = h.nextShape ∨ (h.shapes p).byMt.lookup c = some s)
    (hkeepProp : ∀ k s, (h.shapes p).byProp.lookup k = some s → h.collected s = false →
      e.byProp.lookup k = some s)
    (hkeepMt : ∀ c s, (h.shapes p).byMt.lookup c = some s → h.collected s = false →
      e.byMt.lookup c = some s) :
    h.Evolves ((h.allocShape d).2.setShape p e) := by
  have halloc : h.Evolves (h.allocShape d).2 := by
    refine allocShape hf hdprop hdmt ?_
    intro q hq
    obtain rfl := Option.some.inj (hdparent.symm.trans hq)
    exact hp
  have hnew : (h.allocShape d).2.shapes h.nextShape = d := shapes_allocShape h d
  have hold : ∀ s, s ≠ h.nextShape → (h.allocShape d).2.shapes s = h.shapes s := by
    intro s hne
    simp only [Heap.allocShape, Heap.setShape, Function.update_of_ne hne]
  have hsame : (h.allocShape d).2.shapes p = h.shapes p := hold p (Nat.ne_of_lt hp)
  -- an edge links back, whether it leads to the child or was there before
  have hchild : ((h.allocShape d).2.shapes h.nextShape).parent = some p ∧
      h.nextShape < (h.allocShape d).2.nextShape := by
    rw [hnew]
    exact ⟨hdparent, Nat.lt_succ_self _⟩
  refine halloc.trans (setShape halloc.ok ?_ ?_ ?_ ?_ ?_)
  · rw [hsame, hparent]
  · intro k s hl
    rcases hprop k s hl with rfl | hl
    · exact hchild
    · exact halloc.ok.propEdge p k s (by rw [hsame]; exact hl)
  · intro c s hl
    rcases hmt c s hl with rfl | hl
    · exact hchild
    · exact halloc.ok.mtEdge p c s (by rw [hsame]; exact hl)
  · intro k s hl hs
    rw [hsame] at hl
    exact hkeepProp k s hl hs
  · intro c s hl hs
    rw [hsame] at hl
    exact hkeepMt c s hl hs

/-- **Every edge to a shape that has not been reclaimed is kept.** -/
theorem keepsEdges {h h' : Heap} (hf : ForestOk h) (he : h.Evolves h') :
    h.forest.KeepsEdges h'.forest := by
  refine ⟨he.emptyShape, ?_⟩
  intro p c s hedge hs
  have hp : p < h.nextShape := by
    obtain ⟨hback, hlt⟩ := hf.edge hedge
    exact Nat.lt_trans (hf.parent_lt s p hback) hlt
  cases c with
  | key k => exact he.propEdge p k s hp hedge hs
  | metatable mt =>
      cases mt with
      | none => exact he.mtEdge p none s hp hedge hs
      | some m =>
          obtain ⟨c, hc, hlookup⟩ := Option.bind_eq_some_iff.1 hedge
          have hedge' := he.mtEdge p (some c) s hp hlookup hs
          show ((h'.tables m).mtCache.bind fun c => (h'.shapes p).byMt.lookup (some c)) = some s
          rw [he.caches m c hc]
          exact hedge'

end Heap.Evolves

/-! ### The transitions -/

/-- An edge is reused while its target is alive; otherwise whatever it led to is gone. -/
theorem upgrade_cases (h : Heap) (e : Option ShapeId) :
    (∃ s, e.bind h.upgrade = some s ∧ e = some s ∧ h.collected s = false) ∨
      (e.bind h.upgrade = none ∧ ∀ s, e = some s → h.collected s = true) := by
  cases e with
  | none => exact Or.inr ⟨rfl, fun s hs => absurd hs (by simp)⟩
  | some s =>
      cases hs : h.collected s with
      | false => exact Or.inl ⟨s, by simp [Heap.upgrade, hs], rfl, hs⟩
      | true =>
          refine Or.inr ⟨by simp [Heap.upgrade, hs], fun s' hs' => ?_⟩
          obtain rfl := Option.some.inj hs'
          exact hs

/-- A shape that is about to be allocated has not been reclaimed. -/
theorem ForestOk.fresh {h : Heap} (hf : ForestOk h) : h.collected h.nextShape = false := by
  cases hc : h.collected h.nextShape with
  | false => rfl
  | true => exact absurd (hf.collected_lt _ hc) (Nat.lt_irrefl _)

/-- **Adding a property leads along the edge of its key**, to a shape that is alive. -/
theorem transitionAddProp_derives {h : Heap} (hf : ForestOk h) {p : ShapeId} (key : LuaString)
    (hp : p < h.nextShape) :
    h.Evolves (h.transitionAddProp p key).2 ∧
      ((h.transitionAddProp p key).2.shapes p).byProp.lookup key =
        some (h.transitionAddProp p key).1 ∧
      h.collected (h.transitionAddProp p key).1 = false := by
  unfold Heap.transitionAddProp
  rcases upgrade_cases h ((h.shapes p).byProp.lookup key) with
    ⟨s, hbind, hedge, halive⟩ | ⟨hbind, hgone⟩
  · rw [hbind]
    exact ⟨Heap.Evolves.refl hf, hedge, halive⟩
  · rw [hbind]
    refine ⟨Heap.Evolves.adopt hf hp rfl rfl rfl rfl ?_ (fun _ _ hl => Or.inr hl) ?_
      (fun _ _ hl _ => hl), ?_, hf.fresh⟩
    · intro k s hl
      by_cases hk : k = key
      · subst hk
        rw [AList.lookup_insert] at hl
        exact Or.inl (Option.some.inj hl).symm
      · rw [AList.lookup_insert_ne hk] at hl
        exact Or.inr hl
    · -- the edge that is replaced led to a shape that is gone
      intro k s hl hs
      have hk : k ≠ key := by
        rintro rfl
        exact absurd (hgone s hl) (by rw [hs]; simp)
      rw [AList.lookup_insert_ne hk]
      exact hl
    · simp only [Heap.setShape, Function.update_self]
      exact AList.lookup_insert _

/-- The dictionary sentinel of a cache is a sentinel, and finding it keeps everything. -/
theorem dictSentinelOf_evolves {h : Heap} (hf : ForestOk h) (c : Option MtCacheId) :
    h.Evolves (h.dictSentinelOf c).2 ∧
      (h.dictSentinelOf c).2.IsSentinel (h.dictSentinelOf c).1 c := by
  cases c with
  | none => exact ⟨Heap.Evolves.refl hf, rfl⟩
  | some c =>
      show h.Evolves (h.ensureDictSentinel c).2 ∧
        ((h.ensureDictSentinel c).2.mtCaches c).dictSentinel = some (h.ensureDictSentinel c).1
      unfold Heap.ensureDictSentinel
      split
      case h_1 s hs => exact ⟨Heap.Evolves.refl hf, hs⟩
      case h_2 hnone =>
        have halloc : h.Evolves (h.allocShape (ShapeData.dictSentinel (some c))).2 := by
          refine Heap.Evolves.allocShape hf rfl rfl ?_
          intro p hp
          exact absurd hp (by simp [ShapeData.dictSentinel])
        refine ⟨halloc.trans (Heap.Evolves.of_shapes halloc.ok rfl rfl rfl rfl rfl
          (Nat.le_refl _) ?_ (KeepsCaches.of_tables rfl)), ?_⟩
        · intro c' s _ hs
          by_cases hc : c' = c
          · subst hc
            exact absurd (hnone.symm.trans hs) (by simp)
          · simp only [Heap.setMtCache, Function.update_of_ne hc]
            exact hs
        · simp only [Heap.setMtCache, Function.update_self]

/-- **A new metatable leads along the edge of its cache**, to a shape that is alive. -/
theorem transitionSetMetatable_derives {h : Heap} (hf : ForestOk h) {p : ShapeId}
    (c : Option MtCacheId) (hp : p < h.nextShape) (hfast : (h.shapes p).isDict = false) :
    h.Evolves (h.transitionSetMetatable p c).2 ∧
      ((h.transitionSetMetatable p c).2.shapes p).byMt.lookup c =
        some (h.transitionSetMetatable p c).1 ∧
      h.collected (h.transitionSetMetatable p c).1 = false := by
  unfold Heap.transitionSetMetatable
  rw [if_neg (by rw [hfast]; simp)]
  rcases upgrade_cases h ((h.shapes p).byMt.lookup c) with
    ⟨s, hbind, hedge, halive⟩ | ⟨hbind, hgone⟩
  · rw [hbind]
    exact ⟨Heap.Evolves.refl hf, hedge, halive⟩
  · rw [hbind]
    refine ⟨Heap.Evolves.adopt hf hp rfl rfl rfl rfl (fun _ _ hl => Or.inr hl) ?_
      (fun _ _ hl _ => hl) ?_, ?_, hf.fresh⟩
    · intro c' s hl
      by_cases hc : c' = c
      · subst hc
        rw [AList.lookup_insert] at hl
        exact Or.inl (Option.some.inj hl).symm
      · rw [AList.lookup_insert_ne hc] at hl
        exact Or.inr hl
    · intro c' s hl hs
      have hc : c' ≠ c := by
        rintro rfl
        exact absurd (hgone s hl) (by rw [hs]; simp)
      rw [AList.lookup_insert_ne hc]
      exact hl
    · simp only [Heap.setShape, Function.update_self]
      exact AList.lookup_insert _

/-! ### The operations on tables -/

/-- What an operation does to the shape of its table. -/
inductive Move
  | stay
  | derive (c : Change)
  | migrate

/-- The shape of `t` stays, goes along the edge of a change to a shape that is alive, or is the
dictionary shape of its cache. -/
def Heap.Moves (h : Heap) (t : TableId) (h' : Heap) : Move → Prop
  | Move.stay => (h'.tables t).shape = (h.tables t).shape ∧
      (h'.tables t).dict.isSome = (h.tables t).dict.isSome
  | Move.derive c => (h'.tables t).dict = none ∧
      h'.forest.edge (h.tables t).shape c = some (h'.tables t).shape ∧
      h.collected (h'.tables t).shape = false
  | Move.migrate => (h'.tables t).dict.isSome = true ∧
      h'.IsSentinel (h'.tables t).shape (h'.shapeOf t).mtCache

/-- An operation on `t`: the forest is kept, the other tables stay at their shapes, and `t` makes
its move. -/
structure Heap.Reshapes (h : Heap) (t : TableId) (h' : Heap) (m : Move) : Prop where
  evolves : h.Evolves h'
  other : ∀ t', t' ≠ t → h.Moves t' h' Move.stay
  own : h.Moves t h' m

namespace Heap.Reshapes

/-- Nothing happens to any shape of a table. -/
theorem of_tables {h h' : Heap} (he : h.Evolves h') (t : TableId) (htables : h'.tables = h.tables) :
    h.Reshapes t h' Move.stay := by
  have hstay : ∀ t', h.Moves t' h' Move.stay := by
    intro t'
    simp only [Heap.Moves, htables]
    exact ⟨trivial, trivial⟩
  exact ⟨he, fun t' _ => hstay t', hstay t⟩

/-- A table is replaced, after which nothing else happens to the tables or their shapes. -/
theorem of_write {h h₂ : Heap} (h₁ : Heap) {t : TableId} {d : TableState} {m : Move}
    (he : h.Evolves h₂) (htables₁ : h₁.tables = h.tables)
    (htables₂ : h₂.tables = (h₁.setTable t d).tables)
    (hown : h.Moves t h₂ m) : h.Reshapes t h₂ m := by
  refine ⟨he, ?_, hown⟩
  intro t' ht
  simp only [Heap.Moves, htables₂, Heap.setTable, Function.update_of_ne ht, htables₁]
  exact ⟨trivial, trivial⟩

/-- After a table has stayed, it makes its move. -/
theorem after_stay {a b c : Heap} {t : TableId} {m : Move} (h₁ : a.Reshapes t b Move.stay)
    (h₂ : b.Reshapes t c m) : a.Reshapes t c m := by
  have hstay : ∀ t', a.Moves t' b Move.stay → b.Moves t' c Move.stay → a.Moves t' c Move.stay :=
    fun t' h h' => ⟨h'.1.trans h.1, h'.2.trans h.2⟩
  refine ⟨h₁.evolves.trans h₂.evolves,
    fun t' ht => hstay t' (h₁.other t' ht) (h₂.other t' ht), ?_⟩
  cases m with
  | stay => exact hstay t h₁.own h₂.own
  | derive c =>
      obtain ⟨hfast, hedge, halive⟩ := h₂.own
      refine ⟨hfast, ?_, ?_⟩
      · rw [← h₁.own.1]
        exact hedge
      · rw [← h₁.evolves.collected]
        exact halive
  | migrate => exact h₂.own

/-- After a table has made its move, it stays there: the shapes and the sentinels are the same. -/
theorem then_stay {a b c : Heap} {t : TableId} {m : Move} (h₁ : a.Reshapes t b m)
    (h₂ : b.Reshapes t c Move.stay) (hshapes : c.shapes = b.shapes)
    (hsentinel : ∀ s o, b.IsSentinel s o → c.IsSentinel s o) : a.Reshapes t c m := by
  have hstay : ∀ t', a.Moves t' b Move.stay → b.Moves t' c Move.stay → a.Moves t' c Move.stay :=
    fun t' h h' => ⟨h'.1.trans h.1, h'.2.trans h.2⟩
  refine ⟨h₁.evolves.trans h₂.evolves,
    fun t' ht => hstay t' (h₁.other t' ht) (h₂.other t' ht), ?_⟩
  obtain ⟨hshape, hdict⟩ := h₂.own
  cases m with
  | stay => exact hstay t h₁.own h₂.own
  | derive change =>
      obtain ⟨hfast, hedge, halive⟩ := h₁.own
      refine ⟨?_, ?_, ?_⟩
      · rw [hfast] at hdict
        exact Option.isSome_eq_false_iff.1 hdict |> Option.isNone_iff_eq_none.1
      · rw [hshape]
        refine (h₂.evolves.keepsEdges h₁.evolves.ok).edge _ _ _ hedge ?_
        exact (congrFun h₁.evolves.collected _).trans halive
      · rw [hshape]
        exact halive
  | migrate =>
      obtain ⟨hslow, hat⟩ := h₁.own
      refine ⟨hdict.trans hslow, ?_⟩
      have hof : c.shapeOf t = b.shapeOf t := by
        simp only [Heap.shapeOf, hshapes, hshape]
      rw [hof, hshape]
      exact hsentinel _ _ hat

end Heap.Reshapes

variable {h : Heap} {t : TableId}

/-- A table is replaced by one at the same shape. -/
theorem setTable_reshapes (hf : ForestOk h) {d : TableState}
    (hown : d.mtCache = (h.tables t).mtCache) (hshape : d.shape = (h.tables t).shape)
    (hdict : d.dict.isSome = (h.tables t).dict.isSome) :
    h.Reshapes t (h.setTable t d) Move.stay := by
  refine Heap.Reshapes.of_write h (Heap.Evolves.setTable hf hown) rfl rfl ?_
  simp only [Heap.Moves, Heap.setTable, Function.update_self]
  exact ⟨hshape, hdict⟩

theorem maybeUpdateMtBit_reshapes (hf : ForestOk h) (key : LuaString) (v : Value) :
    h.Reshapes t (h.maybeUpdateMtBit t key v) Move.stay :=
  Heap.Reshapes.of_tables (Heap.Evolves.maybeUpdateMtBit hf t key v) t
    (maybeUpdateMtBit_tables h t key v)

/-- A table is replaced by one at the same shape, and the write is mirrored. -/
theorem write_reshapes (hf : ForestOk h) {d : TableState} (key : LuaString) (v : Value)
    (hown : d.mtCache = (h.tables t).mtCache) (hshape : d.shape = (h.tables t).shape)
    (hdict : d.dict.isSome = (h.tables t).dict.isSome) :
    h.Reshapes t ((h.setTable t d).maybeUpdateMtBit t key v) Move.stay := by
  have hset := setTable_reshapes hf hown hshape hdict
  exact hset.after_stay (maybeUpdateMtBit_reshapes hset.evolves.ok key v)

/-- Mirroring a write keeps the sentinels. -/
theorem isSentinel_maybeUpdateMtBit (key : LuaString) (v : Value) {s : ShapeId}
    {o : Option MtCacheId} (hs : h.IsSentinel s o) :
    (h.maybeUpdateMtBit t key v).IsSentinel s o := by
  unfold Heap.maybeUpdateMtBit
  split
  case h_1 c bit hc hbit =>
    cases o with
    | none => exact hs
    | some c' =>
        by_cases hne : c' = c
        · subst hne
          simp only [Heap.IsSentinel, Heap.setMtCache, Function.update_self]
          exact hs
        · simp only [Heap.IsSentinel, Heap.setMtCache, Function.update_of_ne hne]
          exact hs
  case h_2 => exact hs

/-- The write that made the move is mirrored. -/
theorem Heap.Reshapes.then_mirror {h' : Heap} {m : Move} (hr : h.Reshapes t h' m)
    (key : LuaString) (v : Value) : h.Reshapes t (h'.maybeUpdateMtBit t key v) m := by
  refine hr.then_stay (maybeUpdateMtBit_reshapes hr.evolves.ok key v) ?_ ?_
  · exact maybeUpdateMtBit_shapes h' t key v
  · exact fun _ _ hs => isSentinel_maybeUpdateMtBit key v hs

/-- After its move a table is replaced by one at the same shape, and the write is mirrored. -/
theorem Heap.Reshapes.then_write {h' : Heap} {m : Move} (hr : h.Reshapes t h' m) {d : TableState}
    (key : LuaString) (v : Value) (hown : d.mtCache = (h'.tables t).mtCache)
    (hshape : d.shape = (h'.tables t).shape)
    (hdict : d.dict.isSome = (h'.tables t).dict.isSome) :
    h.Reshapes t ((h'.setTable t d).maybeUpdateMtBit t key v) m := by
  refine Heap.Reshapes.then_mirror ?_ key v
  refine hr.then_stay (setTable_reshapes hr.evolves.ok hown hshape hdict) rfl ?_
  intro s o hs
  cases o with
  | none => exact hs
  | some c => exact hs

/-- A table in fast mode migrates to the dictionary shape of its cache. -/
theorem migrateToDict_reshapes (hok : HeapOk h) (hf : ForestOk h) :
    h.Reshapes t (h.migrateToDict t) Move.migrate := by
  obtain ⟨hevolves, hsentinel⟩ := dictSentinelOf_evolves hf (h.shapeOf t).mtCache
  obtain ⟨-, hsame⟩ := dictSentinelOf_spec hok.shapes (h.shapeOf t).mtCache
  have htables := tables_dictSentinelOf h (h.shapeOf t).mtCache
  unfold Heap.migrateToDict
  refine Heap.Reshapes.of_write (h.dictSentinelOf (h.shapeOf t).mtCache).2 ?_ htables rfl ?_
  · refine hevolves.trans (Heap.Evolves.setTable hevolves.ok ?_)
    rw [htables]
  · simp only [Heap.Moves, Heap.setTable, Function.update_self, Option.isSome_some, true_and,
      Heap.shapeOf]
    -- the sentinel of a cache carries this cache
    have hcache : ((h.dictSentinelOf (h.shapeOf t).mtCache).2.shapes
        (h.dictSentinelOf (h.shapeOf t).mtCache).1).mtCache = (h.shapeOf t).mtCache := hsame.mtCache
    unfold Heap.shapeOf at hcache hsentinel
    rw [hcache]
    exact hsentinel

/-- A write to the dictionary. -/
theorem setStringKeyDict_reshapes (hf : ForestOk h) (key : LuaString) (v : Value) :
    h.Reshapes t (h.setStringKeyDict t key v) Move.stay := by
  unfold Heap.setStringKeyDict
  refine write_reshapes hf key v rfl rfl ?_
  rw [Option.isSome_map]

/-- A new key takes the table along the edge of the key. -/
theorem newKey_reshapes (hok : HeapOk h) (hf : ForestOk h) (key : LuaString) (v : Value)
    (hfast : (h.tables t).dict = none) :
    h.Reshapes t
      ((h.transitionAddProp (h.tables t).shape key).2.setTable t
        { h.tables t with
          shape := (h.transitionAddProp (h.tables t).shape key).1
          properties := (h.tables t).properties ++ [v] })
      (Move.derive (Change.key key)) := by
  obtain ⟨hevolves, hedge, halive⟩ := transitionAddProp_derives hf key (hok.tables.shape_lt t)
  have htables := tables_transitionAddProp h (h.tables t).shape key
  refine Heap.Reshapes.of_write (h.transitionAddProp (h.tables t).shape key).2 ?_ htables rfl ?_
  · refine hevolves.trans (Heap.Evolves.setTable hevolves.ok ?_)
    rw [htables]
  · simp only [Heap.Moves, Heap.setTable, Function.update_self]
    exact ⟨hfast, hedge, halive⟩

/-- What a write of a string key does to the shape, case by case. -/
def Heap.moveOf (h : Heap) (t : TableId) (key : LuaString) (v : Value) : Move :=
  if (h.tables t).dict.isSome then Move.stay
  else
    match (h.shapeOf t).findSlot key with
    | some _ => if v.isNil then Move.migrate else Move.stay
    | none =>
        if maxPropertiesFast ≤ (h.shapeOf t).slotCount then Move.migrate
        else Move.derive (Change.key key)

theorem setStringKey_reshapes (hok : HeapOk h) (hf : ForestOk h) (key : LuaString) (v : Value) :
    h.Reshapes t (h.setStringKey t key v) (h.moveOf t key v) := by
  have hmigrate : h.Reshapes t ((h.migrateToDict t).setStringKeyDict t key v) Move.migrate := by
    refine (migrateToDict_reshapes hok hf).then_write key v rfl rfl ?_
    rw [Option.isSome_map]
  unfold Heap.setStringKey Heap.moveOf Heap.shapeOf
  simp only
  split
  case isTrue hdict => exact setStringKeyDict_reshapes hf key v
  case isFalse hdict =>
    have hfast : (h.tables t).dict = none := by simpa using hdict
    cases hslot : (h.shapes (h.tables t).shape).findSlot key with
    | some slot =>
        simp only
        split
        · exact hmigrate
        · exact write_reshapes hf key v rfl rfl rfl
    | none =>
        simp only
        split
        · exact hmigrate
        · exact (newKey_reshapes hok hf key v hfast).then_mirror key v

/-- What a write does to the shape: only string keys reach it. -/
def Heap.rawSetMove (h : Heap) (t : TableId) (key v : Value) : Move :=
  match key with
  | Value.string k => h.moveOf t k v
  | _ => Move.stay

theorem rawSet_reshapes (hok : HeapOk h) (hf : ForestOk h) {key v : Value} {h' : Heap}
    (hset : h.rawSet t key v = some h') : h.Reshapes t h' (h.rawSetMove t key v) := by
  unfold Heap.rawSet at hset
  split at hset
  case h_1 k =>
    obtain rfl := Option.some.inj hset
    exact setStringKey_reshapes hok hf k v
  case h_2 hother =>
    have hmove : h.rawSetMove t key v = Move.stay := by
      unfold Heap.rawSetMove
      split
      · exact absurd rfl (hother _)
      · rfl
    rw [hmove]
    split at hset
    case h_1 index hindex =>
      obtain rfl := Option.some.inj hset
      exact setTable_reshapes hf rfl rfl rfl
    case h_2 hindex =>
      split at hset
      · exact absurd hset (by simp)
      · obtain rfl := Option.some.inj hset
        have hframe : ∃ m, (h.tables t).miscHashSet key v = { h.tables t with miscHash := m } := by
          unfold TableState.miscHashSet
          split
          · split <;> exact ⟨_, rfl⟩
          · exact ⟨_, rfl⟩
        obtain ⟨m, hm⟩ := hframe
        rw [hm]
        exact setTable_reshapes hf rfl rfl rfl

/-! ### Metatables -/

/-- Seeding the cache of a metatable moves no table. -/
theorem ensureMtCache_reshapes (hf : ForestOk h) (m : TableId) :
    h.Reshapes t (h.ensureMtCache m).2 Move.stay := by
  have hcaches := (ensureMtCache_keepsCaches h m).1
  have hstay : ∀ t', h.Moves t' (h.ensureMtCache m).2 Move.stay := by
    intro t'
    unfold Heap.ensureMtCache
    split
    · exact ⟨rfl, rfl⟩
    · by_cases ht : t' = m
      · subst ht
        simp only [Heap.Moves, Heap.setTable, Function.update_self]
        exact ⟨rfl, rfl⟩
      · simp only [Heap.Moves, Heap.setTable, Function.update_of_ne ht]
        exact ⟨rfl, rfl⟩
  refine ⟨?_, fun t' _ => hstay t', hstay t⟩
  unfold Heap.ensureMtCache at hcaches ⊢
  split
  case h_1 c hc => exact Heap.Evolves.refl hf
  case h_2 hnone =>
    rw [hnone] at hcaches
    refine Heap.Evolves.of_shapes hf rfl rfl rfl rfl rfl (Nat.le_succ _) ?_ hcaches
    intro c s hc hs
    simp only [Heap.setTable, Heap.allocMtCache, Heap.setMtCache,
      Function.update_of_ne (Nat.ne_of_lt hc)]
    exact hs

theorem metatableCache_reshapes (hf : ForestOk h) (mt : Option TableId) :
    h.Reshapes t (h.metatableCache mt).2 Move.stay := by
  cases mt with
  | none => exact Heap.Reshapes.of_tables (Heap.Evolves.refl hf) t rfl
  | some m => exact ensureMtCache_reshapes hf m

/-- The edge of a metatable is the one under its cache. -/
theorem edge_metatable {h' : Heap} (hkeeps : KeepsCaches h h') {p s : ShapeId}
    {mt : Option TableId} {c : Option MtCacheId}
    (hcache : c = mt.bind fun m => (h.tables m).mtCache)
    (hseeded : ∀ m, mt = some m → (h.tables m).mtCache.isSome = true)
    (hedge : (h'.shapes p).byMt.lookup c = some s) :
    h'.forest.edge p (Change.metatable mt) = some s := by
  cases mt with
  | none =>
      rw [Option.bind_none] at hcache
      rw [hcache] at hedge
      exact hedge
  | some m =>
      obtain ⟨c', hc'⟩ := Option.isSome_iff_exists.1 (hseeded m rfl)
      rw [Option.bind_some, hc'] at hcache
      rw [hcache] at hedge
      show ((h'.tables m).mtCache.bind fun c => (h'.shapes p).byMt.lookup (some c)) = some s
      rw [hkeeps m c' hc']
      exact hedge

/-- What a new metatable does to the shape: a table in fast mode goes along the edge of the
metatable, a table in dictionary mode to the dictionary shape. -/
theorem setMetatable_reshapes (hok : HeapOk h) (hf : ForestOk h) (mt : Option TableId) :
    h.Reshapes t (h.setMetatable t mt)
      (if (h.tables t).dict.isSome then Move.migrate
        else Move.derive (Change.metatable mt)) := by
  have hstay : h.Reshapes t (h.metatableCache mt).2 Move.stay := metatableCache_reshapes hf mt
  obtain ⟨hok', -, -, -, hcache, hseeded⟩ := metatableCache_spec hok mt
  refine hstay.after_stay ?_
  rw [← hstay.own.2]
  unfold Heap.setMetatable
  simp only
  generalize hr : h.metatableCache mt = r at hok' hcache hseeded hstay ⊢
  have hf' : ForestOk r.2 := hstay.evolves.ok
  have htables := tables_transitionSetMetatable r.2 (r.2.tables t).shape r.1
  rw [htables]
  split
  case isTrue hdict =>
    -- a dictionary table goes to the sentinel of the new cache
    have hisDict : (r.2.shapes (r.2.tables t).shape).isDict = true := by
      rw [← hdict]
      exact (hok'.tables.dict t).symm
    obtain ⟨hevolves, hsentinel⟩ := dictSentinelOf_evolves hf' r.1
    obtain ⟨-, hsame⟩ := dictSentinelOf_spec hok'.shapes r.1
    have hroute : r.2.transitionSetMetatable (r.2.tables t).shape r.1 = r.2.dictSentinelOf r.1 := by
      unfold Heap.transitionSetMetatable
      rw [if_pos hisDict]
    rw [hroute] at htables ⊢
    refine Heap.Reshapes.of_write (r.2.dictSentinelOf r.1).2 ?_ htables rfl ?_
    · refine hevolves.trans (Heap.Evolves.setTable hevolves.ok ?_)
      rw [htables]
    · have hcache : ((r.2.dictSentinelOf r.1).2.shapes (r.2.dictSentinelOf r.1).1).mtCache = r.1 :=
        hsame.mtCache
      simp only [Heap.Moves, Heap.setTable, Function.update_self, Heap.shapeOf]
      refine ⟨hdict, ?_⟩
      rw [hcache]
      exact hsentinel
  case isFalse hdict =>
    have hfast : (r.2.tables t).dict = none := by simpa using hdict
    have hisDict : (r.2.shapes (r.2.tables t).shape).isDict = false := by
      have hdict' := hok'.tables.dict t
      rw [hfast] at hdict'
      exact hdict'.symm
    obtain ⟨hevolves, hedge, halive⟩ :=
      transitionSetMetatable_derives hf' r.1 (hok'.tables.shape_lt t) hisDict
    have hown : KeepsCaches r.2 ((r.2.transitionSetMetatable (r.2.tables t).shape r.1).2.setTable t
        { r.2.tables t with
          shape := (r.2.transitionSetMetatable (r.2.tables t).shape r.1).1
          metatable := mt }) := by
      refine (KeepsCaches.of_tables htables).trans (KeepsCaches.setTable _ ?_)
      rw [htables]
    refine Heap.Reshapes.of_write
      (r.2.transitionSetMetatable (r.2.tables t).shape r.1).2 ?_ htables rfl ?_
    · refine hevolves.trans (Heap.Evolves.setTable hevolves.ok ?_)
      rw [htables]
    · refine ⟨?_, ?_, ?_⟩
      · simp only [Heap.setTable, Function.update_self]
        exact hfast
      · refine (edge_metatable hown hcache hseeded hedge).trans ?_
        simp only [Heap.setTable, Function.update_self]
      · simp only [Heap.setTable, Function.update_self]
        exact halive

end Tcvm
