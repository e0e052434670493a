/-
**Tables that are built alike share their shape.**

The operations of a program and the collector are the steps of a `Life`: a write of any key, also
through an inline cache, a new metatable, and a collection, which drops tables and reclaims shapes
that nothing holds any more.  A ghost history records for every table the new string keys and the
metatables it was given, until it drops to dictionary mode.

The invariant is that the history of a live table, followed through the edges that are there now,
leads to the shape of the table, and that no shape on the way has been reclaimed: the table holds
its shape, the shape its parent, and so on up to the empty shape.  An edge on the way can therefore
not be replaced, and two tables with one history are at one shape.

A metatable that is set again is a change like any other.  It takes a table in fast mode to a child
of its shape, while a table in dictionary mode stays at the dictionary shape of the metatable.

Main definitions:

* `recordSet` — what a write adds to the history of a table;
* `Heap.Held`, `Life.Step`, `Life.Reachable` — what the collector spares, the steps and the runs;
* `Life.Converges`, `Life.KeepsShape` — shared shapes, and a shape that survives its own metatable.

Main results:

* `Built.stay`, `Built.derive` — what one operation makes of the history of a table;
* `Life.Ok.step`, `ok_of_reachable` — the invariant of one step, and of every run;
* `shapes_converge` — **live tables with one history have one shape**, whatever is collected, and
  which tables keep their shape when they are given their own metatable again.
-/

import Tcvm.ShapeForest

namespace Tcvm

/-! ### Histories -/

/-- The string keys of a history, in the order in which they were added. -/
def keysOf (cs : List Change) : List LuaString :=
  cs.filterMap fun
    | Change.key k => some k
    | Change.metatable _ => none

@[simp] theorem keysOf_nil : keysOf [] = [] := rfl

@[simp] theorem keysOf_snoc_key (cs : List Change) (k : LuaString) :
    keysOf (cs ++ [Change.key k]) = keysOf cs ++ [k] := by
  simp [keysOf, List.filterMap_append]

@[simp] theorem keysOf_snoc_metatable (cs : List Change) (mt : Option TableId) :
    keysOf (cs ++ [Change.metatable mt]) = keysOf cs := by
  simp [keysOf, List.filterMap_append]

/-- The history after a write: a new string key is added while there is room for it, and a deleted
key or one too many ends the fast mode. -/
def recordSet (cs : List Change) (key value : Value) : Option (List Change) :=
  match key with
  | Value.string k =>
      if k ∈ keysOf cs then
        if value.isNil then none else some cs
      else if (keysOf cs).length < maxPropertiesFast then some (cs ++ [Change.key k])
      else none
  | _ => some cs

/-- What the history of a table says about the heap: followed from the empty shape through the
edges that are there, it leads to the shape of the table, and nothing on the way is gone. -/
structure Built (h : Heap) (t : TableId) (cs : List Change) : Prop where
  fast : (h.tables t).dict = none
  walk : h.forest.walk cs = some (h.tables t).shape
  keys : (h.shapeOf t).descriptors.map Descriptor.key = keysOf cs
  spared : h.forest.Spared (h.tables t).shape

section Operations

variable {h h' : Heap} {t : TableId} {cs : List Change}

/-- An operation spares what was spared. -/
theorem spared_evolves (hf : ForestOk h) (he : h.Evolves h') {s : ShapeId}
    (hs : s < h.nextShape) (hspared : h.forest.Spared s) : h'.forest.Spared s := by
  refine hspared.agree (· < h.nextShape) hs ?_ ?_ ?_
  · intro a p ha hp
    exact Nat.lt_trans (hf.parent_lt a p hp) ha
  · exact he.parent
  · intro a _ ha
    exact (congrFun he.collected a).trans ha

/-- The old walk is a walk of the new heap. -/
theorem Built.walk_evolves (hf : ForestOk h) (he : h.Evolves h') (hb : Built h t cs) :
    h'.forest.walk cs = some (h.tables t).shape :=
  WeakForest.walk_keeps hf.linked (he.keepsEdges hf) cs _ hb.walk hb.spared

/-- **A table that stays at its shape keeps its history.** -/
theorem Built.stay (hok : HeapOk h) (hf : ForestOk h) (he : h.Evolves h') (hg : h.Grows h')
    (hb : Built h t cs) (hstay : h.Moves t h' Move.stay) : Built h' t cs := by
  obtain ⟨hshape, hdict⟩ := hstay
  have hlt := hok.tables.shape_lt t
  refine ⟨?_, ?_, ?_, ?_⟩
  · rw [hb.fast] at hdict
    simpa using hdict
  · rw [hshape]
    exact hb.walk_evolves hf he
  · have hlayout := hg.layout _ hlt
    simp only [Heap.shapeOf, hshape, hlayout.descriptors]
    exact hb.keys
  · rw [hshape]
    exact spared_evolves hf he hlt hb.spared

/-- The keys of the child of a change. -/
theorem keys_derive (hok' : HeapOk h') {p s : ShapeId} {c : Change}
    (hfast : (h'.shapes p).isDict = false) (hedge : h'.forest.edge p c = some s)
    (hkeys : (h'.shapes p).descriptors.map Descriptor.key = keysOf cs) :
    (h'.shapes s).descriptors.map Descriptor.key = keysOf (cs ++ [c]) := by
  cases c with
  | key k =>
      obtain ⟨-, hadd⟩ := hok'.shapes.propEdge p k s hedge
      rw [hadd.descriptors, List.map_append, hkeys, keysOf_snoc_key]
      rfl
  | metatable mt =>
      rw [keysOf_snoc_metatable, ← hkeys]
      cases mt with
      | none =>
          obtain ⟨-, hres⟩ := hok'.shapes.mtEdge p none s hfast hedge
          rw [hres.descriptors]
      | some m =>
          obtain ⟨c, -, hlookup⟩ := Option.bind_eq_some_iff.1 hedge
          obtain ⟨-, hres⟩ := hok'.shapes.mtEdge p (some c) s hfast hlookup
          rw [hres.descriptors]

/-- **A table that goes along the edge of a change has the change in its history.** -/
theorem Built.derive (hok : HeapOk h) (hok' : HeapOk h') (hf : ForestOk h) (he : h.Evolves h')
    (hg : h.Grows h') (hb : Built h t cs) {c : Change} (hmove : h.Moves t h' (Move.derive c)) :
    Built h' t (cs ++ [c]) := by
  obtain ⟨hfast, hedge, halive⟩ := hmove
  have hlt := hok.tables.shape_lt t
  have hlayout := hg.layout _ hlt
  refine ⟨hfast, ?_, ?_, ?_⟩
  · rw [WeakForest.walk_snoc, hb.walk_evolves hf he]
    exact hedge
  · refine keys_derive hok' ?_ hedge ?_
    · have hdict := hok.tables.dict t
      rw [hb.fast] at hdict
      exact hlayout.isDict.trans hdict.symm
    · rw [hlayout.descriptors]
      exact hb.keys
  · refine (spared_evolves hf he hlt hb.spared).child (he.ok.edge hedge).1 ?_
    exact (congrFun he.collected _).trans halive

/-- A key is in the history of a table when its shape has a slot for it. -/
theorem Built.mem_keysOf (hb : Built h t cs) (k : LuaString) :
    k ∈ keysOf cs ↔ (h.shapeOf t).findSlot k ≠ none := by
  rw [← hb.keys, ne_eq, ShapeData.findSlot_eq_none_iff, List.mem_map]
  push Not
  rfl

/-- The history of a table has as many keys as its shape has slots. -/
theorem Built.length_keysOf (hok : HeapOk h) (hb : Built h t cs) :
    (keysOf cs).length = (h.shapeOf t).slotCount := by
  rw [← hb.keys, List.length_map]
  exact (hok.shapes.shape (h.tables t).shape).length

/-- **A write** takes the history to what is recorded of it. -/
theorem Built.rawSet (hok : HeapOk h) (hf : ForestOk h) (hb : Built h t cs) {key v : Value}
    (hset : h.rawSet t key v = some h') {cs' : List Change}
    (hrecord : recordSet cs key v = some cs') : Built h' t cs' := by
  obtain ⟨hok', -, -, hg⟩ := rawSet_spec hok hset
  obtain ⟨he, -, hown⟩ := rawSet_reshapes hok hf hset
  unfold recordSet at hrecord
  unfold Heap.rawSetMove at hown
  cases key with
  | string k =>
      simp only at hrecord hown
      have hmem := hb.mem_keysOf k
      unfold Heap.moveOf at hown
      rw [if_neg (by rw [hb.fast]; simp)] at hown
      cases hslot : (h.shapeOf t).findSlot k with
      | some slot =>
          -- the key is there: the write is in place, unless it deletes the key
          rw [if_pos (hmem.2 (by rw [hslot]; simp))] at hrecord
          simp only [hslot] at hown
          split at hrecord
          case isTrue => exact absurd hrecord (by simp)
          case isFalse hv =>
            obtain rfl := Option.some.inj hrecord
            rw [if_neg hv] at hown
            exact hb.stay hok hf he hg hown
      | none =>
          rw [if_neg (by rw [hmem, hslot]; simp), hb.length_keysOf hok] at hrecord
          simp only [hslot] at hown
          split at hrecord
          case isFalse => exact absurd hrecord (by simp)
          case isTrue hroom =>
            obtain rfl := Option.some.inj hrecord
            rw [if_neg (Nat.not_le.2 hroom)] at hown
            exact hb.derive hok hok' hf he hg hown
  | _ =>
      obtain rfl := Option.some.inj hrecord
      exact hb.stay hok hf he hg hown

/-- **A metatable**, be it the one the table has, is one more change. -/
theorem Built.setMetatable (hok : HeapOk h) (hf : ForestOk h) (hb : Built h t cs)
    (mt : Option TableId) : Built (h.setMetatable t mt) t (cs ++ [Change.metatable mt]) := by
  obtain ⟨hok', -, hg, -⟩ := setMetatable_spec hok t mt
  obtain ⟨he, -, hown⟩ := setMetatable_reshapes hok hf mt
  rw [if_neg (by rw [hb.fast]; simp)] at hown
  exact hb.derive hok hok' hf he hg hown

/-- A table in dictionary mode is at the dictionary shape of its metatable. -/
def AtSentinel (h : Heap) (t : TableId) : Prop :=
  (h.tables t).dict.isSome = true → h.IsSentinel (h.tables t).shape (h.shapeOf t).mtCache

/-- The cache of a shape that a table is at has been handed out. -/
theorem cache_lt_of_shape (hok : HeapOk h) {c : MtCacheId}
    (hc : (h.shapeOf t).mtCache = some c) : c < h.nextMtCache := by
  rw [hok.tables.cache t] at hc
  obtain ⟨m, -, hm⟩ := Option.bind_eq_some_iff.1 hc
  exact hok.tables.cache_lt m c hm

/-- A sentinel stays the sentinel of its cache. -/
theorem isSentinel_evolves (hok : HeapOk h) (he : h.Evolves h') {s : ShapeId}
    (hs : h.IsSentinel s (h.shapeOf t).mtCache) : h'.IsSentinel s (h.shapeOf t).mtCache := by
  cases hc : (h.shapeOf t).mtCache with
  | none =>
      rw [hc] at hs
      exact Eq.trans hs he.emptyDict.symm
  | some c =>
      rw [hc] at hs
      exact he.sentinel c s (cache_lt_of_shape hok hc) hs

/-- Whatever move a table makes, in dictionary mode it is at the dictionary shape. -/
theorem AtSentinel.moves (hok : HeapOk h) (he : h.Evolves h') (hg : h.Grows h') {m : Move}
    (hat : AtSentinel h t) (hmove : h.Moves t h' m) : AtSentinel h' t := by
  intro hdict
  cases m with
  | stay =>
      obtain ⟨hshape, hsame⟩ := hmove
      have hlayout := hg.layout _ (hok.tables.shape_lt t)
      have hold := isSentinel_evolves hok he (hat (hsame.symm.trans hdict))
      simp only [Heap.shapeOf, hshape, hlayout.mtCache]
      exact hold
  | derive c =>
      rw [hmove.1] at hdict
      exact absurd hdict (by simp)
  | migrate => exact hmove.2

/-- A cache has one dictionary shape. -/
theorem IsSentinel.unique {s s' : ShapeId} {o : Option MtCacheId} (hs : h.IsSentinel s o)
    (hs' : h.IsSentinel s' o) : s = s' := by
  cases o with
  | none => exact Eq.trans hs (Eq.symm hs')
  | some c => exact Option.some.inj (Eq.trans (Eq.symm hs) hs')

/-- **A table keeps its shape under its own metatable exactly in dictionary mode**: in fast mode
the shape goes to a child of itself. -/
theorem setMetatable_own_iff (hok : HeapOk h) (hf : ForestOk h) (hat : AtSentinel h t) :
    ((h.setMetatable t (h.tables t).metatable).tables t).shape = (h.tables t).shape ↔
      (h.tables t).dict.isSome = true := by
  obtain ⟨hok', hstore, -, -⟩ := setMetatable_spec hok t (h.tables t).metatable
  obtain ⟨he, -, hown⟩ := setMetatable_reshapes hok hf (h.tables t).metatable
  constructor
  · intro hshape
    by_contra hdict
    rw [if_neg hdict] at hown
    obtain ⟨-, hedge, -⟩ := hown
    have hlt := he.ok.parent_lt _ _ (he.ok.edge hedge).1
    rw [hshape] at hlt
    exact Nat.lt_irrefl _ hlt
  · intro hdict
    rw [if_pos hdict] at hown
    obtain ⟨-, hnew⟩ := hown
    -- the metatable is the same, so its cache and its dictionary shape are
    have hcache : ((h.setMetatable t (h.tables t).metatable).shapeOf t).mtCache =
        (h.shapeOf t).mtCache := by
      rw [hok'.tables.cache t, hok.tables.cache t]
      have hmeta : ((h.setMetatable t (h.tables t).metatable).tables t).metatable =
          (h.tables t).metatable := by
        have := congrFun (congrArg TableStore.metatable hstore) t
        rw [TableStore.metatable_setMetatable, if_pos rfl] at this
        exact this
      rw [hmeta]
      cases hm : (h.tables t).metatable with
      | none => rfl
      | some m =>
          obtain ⟨c, hc⟩ := Option.isSome_iff_exists.1 (hok.tables.seeded t m hm)
          rw [Option.bind_some, Option.bind_some, hc]
          rw [hm] at he
          exact he.caches m c hc
    rw [hcache] at hnew
    exact IsSentinel.unique hnew (isSentinel_evolves hok he (hat hdict))

end Operations

/-! ### Runs -/

/-- A run of the program so far: the heap, the tables that have not been reclaimed, and what each
of them was built by, until it dropped to dictionary mode.

An address that has not been handed out holds an empty table, so it counts as a live table with an
empty history, and creating a table is choosing such an address. -/
structure Life where
  heap : Heap
  alive : TableId → Bool
  history : TableId → Option (List Change)

/-- What the collector has to spare: the shapes of the state, those of the live tables, and with
every shape its parent. -/
inductive Heap.Held (h : Heap) (alive : TableId → Bool) : ShapeId → Prop
  | empty : h.Held alive h.emptyShape
  | dictionary : h.Held alive h.emptyDictSentinel
  | table (t : TableId) (ht : alive t = true) : h.Held alive (h.tables t).shape
  | parent (s p : ShapeId) (hs : h.Held alive s) (hp : (h.shapes s).parent = some p) :
      h.Held alive p

namespace Life

/-- The state before the program starts. -/
def boot : Life := { heap := Heap.boot, alive := fun _ => true, history := fun _ => some [] }

/-- The steps.  A write through an inline cache replaces the value of its slot, be it by nil, and
any other write is `raw_set`.  A collection drops tables and reclaims shapes that are not held; how
much of what could be reclaimed is, and whether anything else holds a shape, is left open. -/
inductive Step : Life → Life → Prop
  | rawSet (l : Life) (t : TableId) (key v : Value) (h' : Heap) (ht : l.alive t = true)
      (hset : l.heap.rawSet t key v = some h') :
      Step l { l with
        heap := h'
        history := Function.update l.history t ((l.history t).bind fun cs => recordSet cs key v) }
  | writeSlot (l : Life) (t : TableId) (key : LuaString) (slot : ℕ) (v : Value)
      (ht : l.alive t = true) (hfast : (l.heap.tables t).dict = none)
      (hslot : (l.heap.shapeOf t).findSlot key = some slot) :
      Step l { l with
        heap := (l.heap.setTable t { l.heap.tables t with
          properties := (l.heap.tables t).properties.set slot v }).maybeUpdateMtBit t key v }
  | setMetatable (l : Life) (t : TableId) (mt : Option TableId) (ht : l.alive t = true)
      (hmt : ∀ m, mt = some m → l.alive m = true) :
      Step l { l with
        heap := l.heap.setMetatable t mt
        history := Function.update l.history t
          ((l.history t).map fun cs => cs ++ [Change.metatable mt]) }
  | collect (l : Life) (alive : TableId → Bool) (collected : ShapeId → Bool)
      (halive : ∀ t, alive t = true → l.alive t = true)
      (hgone : ∀ s, l.heap.collected s = true → collected s = true)
      (hspared : ∀ s, collected s = true → l.heap.collected s = true ∨
        (s < l.heap.nextShape ∧ ¬ l.heap.Held alive s)) :
      Step l { l with heap := l.heap.collect collected, alive := alive }

/-- The states a program can reach. -/
def Reachable (l : Life) : Prop := Relation.ReflTransGen Step boot l

/-- Live tables that were built alike are at one shape. -/
def Converges (l : Life) : Prop :=
  ∀ t t' cs, l.alive t = true → l.alive t' = true → l.history t = some cs →
    l.history t' = some cs → (l.heap.tables t).shape = (l.heap.tables t').shape

/-- The shape of the table stays when its metatable is set to the one it has. -/
def KeepsShape (l : Life) (t : TableId) : Prop :=
  ((l.heap.setMetatable t (l.heap.tables t).metatable).tables t).shape = (l.heap.tables t).shape

/-- The invariant of a run. -/
structure Ok (l : Life) : Prop where
  heap : HeapOk l.heap
  forest : ForestOk l.heap
  sentinel : ∀ t, AtSentinel l.heap t
  built : ∀ t cs, l.alive t = true → l.history t = some cs → Built l.heap t cs

theorem ok_boot : boot.Ok := by
  have hshape : ∀ s, (Heap.boot.shapes s).byProp = ∅ ∧ (Heap.boot.shapes s).byMt = ∅ ∧
      (Heap.boot.shapes s).parent = none := by
    intro s
    by_cases hs : s = 1
    · subst hs
      simp only [Heap.boot, Function.update_self]
      exact ⟨rfl, rfl, rfl⟩
    · simp only [Heap.boot, Function.update_of_ne hs]
      exact ⟨rfl, rfl, rfl⟩
  refine ⟨heapOk_boot, ⟨?_, ?_, ?_, ?_⟩, ?_, ?_⟩
  · intro p k s hl
    rw [show (boot.heap.shapes p).byProp = ∅ from (hshape p).1] at hl
    simp at hl
  · intro p c s hl
    rw [show (boot.heap.shapes p).byMt = ∅ from (hshape p).2.1] at hl
    simp at hl
  · intro s p hp
    rw [show (boot.heap.shapes s).parent = none from (hshape s).2.2] at hp
    exact absurd hp (by simp)
  · intro s hs
    exact absurd hs (by simp [boot, Heap.boot])
  · intro t hdict
    exact absurd hdict (by simp [boot, Heap.boot, TableState.new])
  · intro t cs _ hcs
    obtain rfl := Option.some.inj hcs
    exact ⟨rfl, rfl, rfl, fun _ _ => rfl⟩

variable {l l' : Life}

/-- An operation on `t` keeps the invariant when it records what it did to `t`. -/
theorem Ok.operation (hl : l.Ok) {t : TableId} {h' : Heap} {m : Move}
    {cs' : Option (List Change)} (hok' : HeapOk h') (hg : l.heap.Grows h')
    (hr : l.heap.Reshapes t h' m)
    (hbuilt : ∀ cs, l.alive t = true → cs' = some cs → Built h' t cs) :
    Ok { l with heap := h', history := Function.update l.history t cs' } := by
  refine ⟨hok', hr.evolves.ok, ?_, ?_⟩
  · intro t'
    by_cases ht : t' = t
    · rw [ht]
      exact (hl.sentinel t).moves hl.heap hr.evolves hg hr.own
    · exact (hl.sentinel t').moves hl.heap hr.evolves hg (hr.other t' ht)
  · intro t' cs halive hcs
    by_cases ht : t' = t
    · subst ht
      simp only [Function.update_self] at hcs
      exact hbuilt cs halive hcs
    · simp only [Function.update_of_ne ht] at hcs
      exact (hl.built t' cs halive hcs).stay hl.heap hl.forest hr.evolves hg (hr.other t' ht)

/-- A collection keeps the invariant: what is on the way to a live table is held. -/
theorem Ok.collect (hl : l.Ok) {alive : TableId → Bool} {collected : ShapeId → Bool}
    (halive : ∀ t, alive t = true → l.alive t = true)
    (hspared : ∀ s, collected s = true → l.heap.collected s = true ∨
      (s < l.heap.nextShape ∧ ¬ l.heap.Held alive s)) :
    Ok { l with heap := l.heap.collect collected, alive := alive } := by
  refine ⟨hl.heap.collect collected,
    ⟨hl.forest.propEdge, hl.forest.mtEdge, hl.forest.parent_lt, ?_⟩, hl.sentinel, ?_⟩
  · intro s hs
    rcases hspared s hs with hold | ⟨hlt, -⟩
    · exact hl.forest.collected_lt s hold
    · exact hlt
  · intro t cs ht hcs
    have hb := hl.built t cs (halive t ht) hcs
    refine ⟨hb.fast, hb.walk, hb.keys, ?_⟩
    intro a habove
    -- every ancestor of the shape of a live table is held
    have hheld : l.heap.forest.Above (l.heap.tables t).shape a ∧ l.heap.Held alive a := by
      induction habove with
      | refl => exact ⟨Relation.ReflTransGen.refl, Heap.Held.table t ht⟩
      | tail _ hp ih => exact ⟨ih.1.tail hp, Heap.Held.parent _ _ ih.2 hp⟩
    obtain ⟨habove', hheld⟩ := hheld
    show collected a = false
    cases hc : collected a with
    | false => rfl
    | true =>
        rcases hspared a hc with hold | ⟨-, hnot⟩
        · have hfree : l.heap.collected a = false := hb.spared a habove'
          exact absurd hold (by rw [hfree]; simp)
        · exact absurd hheld hnot

/-- **One step** keeps the invariant. -/
theorem Ok.step (hl : l.Ok) (hstep : Step l l') : l'.Ok := by
  cases hstep with
  | rawSet t key v h' ht hset =>
      have hstored := rawSet_spec hl.heap hset
      refine hl.operation hstored.ok hstored.grows
        (rawSet_reshapes hl.heap hl.forest hset) ?_
      intro cs' halive hrecord
      obtain ⟨cs, hcs, hrecord⟩ := Option.bind_eq_some_iff.1 hrecord
      exact (hl.built t cs halive hcs).rawSet hl.heap hl.forest hset hrecord
  | writeSlot t key slot v ht hfast hslot =>
      have hstored := stored_slot hl.heap v hfast hslot
      have hreshapes := @write_reshapes l.heap t hl.forest
        { l.heap.tables t with properties := (l.heap.tables t).properties.set slot v } key v
        rfl rfl rfl
      have hkept := hl.operation hstored.ok hstored.grows hreshapes fun cs halive hcs =>
        (hl.built t cs halive hcs).stay hl.heap hl.forest hreshapes.evolves hstored.grows
          hreshapes.own
      rw [Function.update_eq_self] at hkept
      exact hkept
  | setMetatable t mt ht hmt =>
      obtain ⟨hok', -, hg, -⟩ := setMetatable_spec hl.heap t mt
      refine hl.operation hok' hg (setMetatable_reshapes hl.heap hl.forest mt) ?_
      intro cs' halive hrecord
      obtain ⟨cs, hcs, rfl⟩ := Option.map_eq_some_iff.1 hrecord
      exact (hl.built t cs halive hcs).setMetatable hl.heap hl.forest mt
  | collect alive collected halive hgone hspared => exact hl.collect halive hspared

/-- **Every run** keeps the invariant. -/
theorem ok_of_reachable (hl : l.Reachable) : l.Ok := by
  induction hl with
  | refl => exact ok_boot
  | tail _ hstep ih => exact ih.step hstep

/-- Under the invariant, tables with one history are at the end of one walk. -/
theorem Ok.converges (hl : l.Ok) : l.Converges := by
  intro t t' cs ht ht' hcs hcs'
  have hwalk := (hl.built t cs ht hcs).walk
  have hwalk' := (hl.built t' cs ht' hcs').walk
  exact Option.some.inj (hwalk.symm.trans hwalk')

end Life

/-- **Tables that were built alike share their shape**, in every state a program can reach and
whatever has been collected on the way; and a table that is given its own metatable again keeps
its shape exactly when it is in dictionary mode. -/
theorem shapes_converge (l : Life) (hl : l.Reachable) :
    l.Converges ∧
      ∀ t, l.alive t = true → (l.KeepsShape t ↔ (l.heap.tables t).dict.isSome = true) := by
  have hok := Life.ok_of_reachable hl
  exact ⟨hok.converges, fun t _ => setMetatable_own_iff hok.heap hok.forest (hok.sentinel t)⟩

/-- A shape dies and is derived anew: the first table with a key is dropped with its shape, and two
tables that get the key afterwards share the new one. -/
theorem shapes_converge_derived_anew :
    ∃ l : Life, l.Reachable ∧ l.heap.collected 2 = true ∧ (l.heap.tables 1).shape = 3 ∧
      l.history 1 = some [Change.key (bytes "x")] ∧ l.Converges ∧
      (l.KeepsShape 1 ↔ (l.heap.tables 1).dict.isSome = true) := by
  set h₁ : Heap := Heap.boot.setStringKey 0 (bytes "x") Value.nil with hh₁
  have hheld : ∀ s, h₁.Held (fun t => t != 0) s → s = 0 ∨ s = 1 := by
    intro s hs
    induction hs with
    | empty => exact Or.inl rfl
    | dictionary => exact Or.inr rfl
    | table t ht =>
        have hother := (setStringKey_reshapes Life.ok_boot.heap Life.ok_boot.forest
          (bytes "x") Value.nil).other t (by simpa using ht)
        exact Or.inl hother.1
    | parent s p _ hp ih =>
        rcases ih with rfl | rfl
        · exact absurd hp (by rw [show (h₁.shapes 0).parent = none by decide]; simp)
        · exact absurd hp (by rw [show (h₁.shapes 1).parent = none by decide]; simp)
  have hnone : ∀ s, h₁.collected s = false := fun _ => rfl
  have hspared : ∀ s, (s == 2) = true →
      h₁.collected s = true ∨ (s < h₁.nextShape ∧ ¬ h₁.Held (fun t => t != 0) s) := by
    intro s hs
    obtain rfl : s = 2 := by simpa using hs
    refine Or.inr ⟨by decide, fun h => ?_⟩
    rcases hheld 2 h with h | h
    · exact absurd h (by decide)
    · exact absurd h (by decide)
  -- a table with the key, which is reclaimed with its shape, and two more tables with the key
  have hreach := (((Relation.ReflTransGen.single
    (Life.Step.rawSet Life.boot 0 (Value.string (bytes "x")) Value.nil h₁ rfl rfl)).tail
    (Life.Step.collect _ (fun t => t != 0) (fun s => s == 2) (fun _ _ => rfl)
      (fun s hs => absurd ((hnone s).symm.trans hs) (by simp)) hspared)).tail
    (Life.Step.rawSet _ 1 (Value.string (bytes "x")) Value.nil _ rfl rfl)).tail
    (Life.Step.rawSet _ 2 (Value.string (bytes "x")) Value.nil _ rfl rfl)
  obtain ⟨hconverges, hkeeps⟩ := shapes_converge _ hreach
  exact ⟨_, hreach, rfl, by decide, rfl, hconverges, hkeeps 1 rfl⟩

/-- The second of two `setmetatable(t, mt)` takes `t` to another shape. -/
theorem shape_lost_under_own_metatable :
    ¬ ∀ l : Life, l.Reachable → l.Converges ∧ ∀ t, l.alive t = true → l.KeepsShape t := by
  intro hall
  have hreach := Relation.ReflTransGen.single
    (Life.Step.setMetatable Life.boot 0 (some 1) rfl fun _ _ => rfl)
  have hkeeps := (hall _ hreach).2 0 rfl
  exact absurd hkeeps (by
    show ¬ (((Heap.boot.setMetatable 0 (some 1)).setMetatable 0
      ((Heap.boot.setMetatable 0 (some 1)).tables 0).metatable).tables 0).shape =
        ((Heap.boot.setMetatable 0 (some 1)).tables 0).shape
    decide)

end Tcvm
