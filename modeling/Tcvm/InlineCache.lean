/-
**The inline caches of the interpreter are transparent.**

`GETFIELD`, `SETFIELD`, `GETTABUP` and `SETTABUP` remember, at every site, the shape they last saw
and the slot of their key in it, and skip the table lookup when the shape of the next table is the
same object.  This module puts the four accesses next to the operations that change tables, and
compares two machines on the same operations: one with the caches, one whose accesses go through
`raw_get`, `raw_set` and the metamethod chains every time.

Sites are the elements of an arbitrary type, one for each entry of each prototype's cache table;
the key of a site is the constant of its instruction.  Before every operation the collector may
reclaim shapes that no table is at, which prunes transition edges; the two machines need not
agree on which.

Main definitions:

* `InlineCache`, `icCheck`, `fillIcForConstantKey` — a cache entry, its test and its refill;
* `opGetfield`, `opSetfield`, `opGettabup`, `opSettabup` — the accesses through a cache;
* `Op`, `cachedMachine`, `uncachedMachine`, `worldMachine` — the two machines, and what both of
  them do to the world.

Main results:

* `IcsOk` — the invariant of the caches: an entry says where its key is in its shape;
* `getHit_spec`, `setHit_spec` — **what a hit reads and writes is what the slow path would**;
* `cachedMachine_simulation`, `uncachedMachine_simulation` — both machines refine the world;
* `inline_caches_transparent` — **the two machines are indistinguishable**.
-/

import Mathlib.Data.List.Enum
import Tcvm.IndexChain
import Tcvm.Machine

namespace Tcvm

variable {ι : Type*} [DecidableEq ι]

/-- Per-site monomorphic inline cache. -/
inductive InlineCache
  | empty
  | mono (shape : ShapeId) (slot : ℕ)
  deriving DecidableEq

/-- The slot that stands for "key absent in shape". -/
def absentSlot : ℕ := 2 ^ 32 - 1

/-- Verify a cached entry against the live shape. -/
def icCheck (cache : InlineCache) (liveShape : ShapeId) : Option ℕ :=
  match cache with
  | InlineCache.mono shape slot => if liveShape = shape then some slot else none
  | InlineCache.empty => none

/-- A heap together with the caches of all sites. -/
structure Vm (ι : Type*) where
  heap : Heap
  ics : ι → InlineCache

/-- The userdata a value is, if any. -/
def Value.getUserdata : Value → Option ℕ
  | Value.userdata u => some u
  | _ => none

namespace Vm

variable (keyAt : ι → LuaString) (vm : Vm ι)

/-- Refill a site from the table's current shape. -/
def fillIcForConstantKey (ic : ι) (t : TableId) : Vm ι :=
  let shape := (vm.heap.tables t).shape
  let slot := ((vm.heap.shapes shape).findSlot (keyAt ic)).getD absentSlot
  { vm with ics := Function.update vm.ics ic (InlineCache.mono shape slot) }

/-- The read fast path: the cached slot of a live shape, unless a nil there has to consult
`__index`. -/
def getHit (ic : ι) (t : TableId) : Option Value :=
  let ts := vm.heap.tables t
  match icCheck (vm.ics ic) ts.shape with
  | some slot =>
      if slot ≠ absentSlot then
        let v := ts.properties.getD slot Value.nil
        if !(v.isNil && vm.heap.hasMM ts.shape Metamethod.index) then some v else none
      else none
  | none => none

/-- The write fast path: the cached slot of a live shape, unless the key is nil there and
`__newindex` has to be consulted. -/
def setHit (ic : ι) (t : TableId) : Option ℕ :=
  let ts := vm.heap.tables t
  match icCheck (vm.ics ic) ts.shape with
  | some slot =>
      if slot ≠ absentSlot then
        let existing := ts.properties.getD slot Value.nil
        if !(existing.isNil && vm.heap.hasMM ts.shape Metamethod.newindex) then some slot else none
      else none
  | none => none

/-- Reading the key of a site from a table: the fast path, or the refill and the slow path. -/
def cachedGet (ic : ι) (t : TableId) : Vm ι × Outcome :=
  match vm.getHit ic t with
  | some v => (vm, Outcome.value v)
  | none =>
      (vm.fillIcForConstantKey keyAt ic t,
        vm.heap.tableGetSlow t (Value.string (keyAt ic)))

/-- Writing the key of a site to a table: the slot in place and its metamethod bit, or the refill
and the slow path. -/
def cachedSet (ic : ι) (t : TableId) (v : Value) : Vm ι × Outcome :=
  match vm.setHit ic t with
  | some slot =>
      let ts := vm.heap.tables t
      let h := vm.heap.setTable t { ts with properties := ts.properties.set slot v }
      ({ vm with heap := h.maybeUpdateMtBit t (keyAt ic) v }, Outcome.done)
  | none =>
      let vm' := vm.fillIcForConstantKey keyAt ic t
      let r := vm'.heap.tableSetSlow t (Value.string (keyAt ic)) v
      ({ vm' with heap := r.1 }, r.2)

/-- `GETFIELD`: the receiver is a table, a userdata with an `__index`, or an error. -/
def opGetfield (ic : ι) (recv : Value) : Vm ι × Outcome :=
  match recv.getTable with
  | some t => vm.cachedGet keyAt ic t
  | none =>
      match recv.getUserdata with
      | some u => (vm, vm.heap.userdataGetSlow u recv (Value.string (keyAt ic)))
      | none => (vm, Outcome.raise)

/-- `SETFIELD`. -/
def opSetfield (ic : ι) (recv v : Value) : Vm ι × Outcome :=
  match recv.getTable with
  | some t => vm.cachedSet keyAt ic t v
  | none => (vm, Outcome.raise)

/-- `GETTABUP`: the table is the value of an upvalue. -/
def opGettabup (ic : ι) (upvalue : Value) : Vm ι × Outcome :=
  match upvalue.getTable with
  | some t => vm.cachedGet keyAt ic t
  | none => (vm, Outcome.raise)

/-- `SETTABUP`. -/
def opSettabup (ic : ι) (upvalue v : Value) : Vm ι × Outcome :=
  match upvalue.getTable with
  | some t => vm.cachedSet keyAt ic t v
  | none => (vm, Outcome.raise)

end Vm

/-! ### The machines -/

/-- An operation on tables.  The accesses name their site and what their registers or upvalues
hold. -/
inductive Op (ι : Type*)
  | rawSet (t : TableId) (key value : Value)
  | setMetatable (t : TableId) (mt : Option TableId)
  | setUserdataMetatable (u : ℕ) (mt : Option TableId)
  | getfield (ic : ι) (recv : Value)
  | setfield (ic : ι) (recv value : Value)
  | gettabup (ic : ι) (upvalue : Value)
  | settabup (ic : ι) (upvalue value : Value)

/-- What is reclaimed before an operation, and the operation. -/
abbrev Input (ι : Type*) := (ShapeId → Bool) × Op ι

/-- The collector reclaims shapes. -/
def Heap.collect (h : Heap) (collected : ShapeId → Bool) : Heap := { h with collected := collected }

/-- Replace the metatable of a userdata. -/
def Heap.setUserdataMeta (h : Heap) (u : ℕ) (mt : Option TableId) : Heap :=
  { h with userdataMeta := Function.update h.userdataMeta u mt }

/-- One operation through the caches. -/
def cachedStep (keyAt : ι → LuaString) (vm : Vm ι) : Op ι → Vm ι × Outcome
  | Op.rawSet t key v =>
      let r := vm.heap.rawSetOp t key v
      ({ vm with heap := r.1 }, r.2)
  | Op.setMetatable t mt => ({ vm with heap := vm.heap.setMetatable t mt }, Outcome.done)
  | Op.setUserdataMetatable u mt =>
      ({ vm with heap := vm.heap.setUserdataMeta u mt }, Outcome.done)
  | Op.getfield ic recv => vm.opGetfield keyAt ic recv
  | Op.setfield ic recv v => vm.opSetfield keyAt ic recv v
  | Op.gettabup ic upvalue => vm.opGettabup keyAt ic upvalue
  | Op.settabup ic upvalue v => vm.opSettabup keyAt ic upvalue v

/-- One operation without caches. -/
def uncachedStep (keyAt : ι → LuaString) (h : Heap) : Op ι → Heap × Outcome
  | Op.rawSet t key v => h.rawSetOp t key v
  | Op.setMetatable t mt => (h.setMetatable t mt, Outcome.done)
  | Op.setUserdataMetatable u mt => (h.setUserdataMeta u mt, Outcome.done)
  | Op.getfield ic recv =>
      match recv.getTable with
      | some t => (h, h.tableGetSlow t (Value.string (keyAt ic)))
      | none =>
          match recv.getUserdata with
          | some u => (h, h.userdataGetSlow u recv (Value.string (keyAt ic)))
          | none => (h, Outcome.raise)
  | Op.setfield ic recv v =>
      match recv.getTable with
      | some t => h.tableSetSlow t (Value.string (keyAt ic)) v
      | none => (h, Outcome.raise)
  | Op.gettabup ic upvalue =>
      match upvalue.getTable with
      | some t => (h, h.tableGetSlow t (Value.string (keyAt ic)))
      | none => (h, Outcome.raise)
  | Op.settabup ic upvalue v =>
      match upvalue.getTable with
      | some t => h.tableSetSlow t (Value.string (keyAt ic)) v
      | none => (h, Outcome.raise)

/-- One operation on the world: what the accesses are for. -/
def worldStep (keyAt : ι → LuaString) (w : World) : Op ι → World × Outcome
  | Op.rawSet t key v => w.rawSet t key v
  | Op.setMetatable t mt => (w.setMetatable t mt, Outcome.done)
  | Op.setUserdataMetatable u mt => (w.setUserdataMeta u mt, Outcome.done)
  | Op.getfield ic recv =>
      match recv.getTable with
      | some t => (w, w.tableGet t (Value.string (keyAt ic)))
      | none =>
          match recv.getUserdata with
          | some u => (w, w.userdataGet u recv (Value.string (keyAt ic)))
          | none => (w, Outcome.raise)
  | Op.setfield ic recv v =>
      match recv.getTable with
      | some t => w.tableSet t (Value.string (keyAt ic)) v
      | none => (w, Outcome.raise)
  | Op.gettabup ic upvalue =>
      match upvalue.getTable with
      | some t => (w, w.tableGet t (Value.string (keyAt ic)))
      | none => (w, Outcome.raise)
  | Op.settabup ic upvalue v =>
      match upvalue.getTable with
      | some t => w.tableSet t (Value.string (keyAt ic)) v
      | none => (w, Outcome.raise)

/-- The interpreter with its caches. -/
def cachedMachine (keyAt : ι → LuaString) : Machine (Vm ι) (Input ι) Outcome :=
  { step := fun vm i => cachedStep keyAt { vm with heap := vm.heap.collect i.1 } i.2 }

/-- The interpreter that always takes the uncached path. -/
def uncachedMachine (keyAt : ι → LuaString) : Machine Heap (Input ι) Outcome :=
  { step := fun h i => uncachedStep keyAt (h.collect i.1) i.2 }

/-- The world as a machine. -/
def worldMachine (keyAt : ι → LuaString) : Machine World (Op ι) Outcome :=
  { step := worldStep keyAt }

/-! ### The initial heap -/

/-- The heap of a new state: the root shape, the shared dictionary shape, and empty tables. -/
def Heap.boot : Heap :=
  { shapes := Function.update (fun _ => ShapeData.rootEmpty) 1 (ShapeData.dictSentinel none)
    nextShape := 2
    mtCaches := fun _ => { bits := fun _ => false, dictSentinel := none }
    nextMtCache := 0
    tables := fun _ => TableState.new 0
    userdataMeta := fun _ => none
    emptyShape := 0
    emptyDictSentinel := 1
    collected := fun _ => false }

/-- The initial heap with empty caches. -/
def Vm.boot (ι : Type*) : Vm ι := { heap := Heap.boot, ics := fun _ => InlineCache.empty }

/-- The operations, each with what the collector reclaims before it. -/
def schedule (gc : ℕ → ShapeId → Bool) (ops : List (Op ι)) : List (Input ι) :=
  ops.zipIdx.map fun p => (gc p.2, p.1)

theorem heapOk_boot : HeapOk Heap.boot := by
  have hshape : ∀ s, (Heap.boot.shapes s).Sound ∧ (Heap.boot.shapes s).byProp = ∅ ∧
      (Heap.boot.shapes s).byMt = ∅ := by
    intro s
    by_cases hs : s = 1
    · subst hs
      simp only [Heap.boot, Function.update_self]
      exact ⟨ShapeData.sound_dictSentinel none, rfl, rfl⟩
    · simp only [Heap.boot, Function.update_of_ne hs]
      exact ⟨ShapeData.sound_rootEmpty, rfl, rfl⟩
  refine ⟨⟨fun s => (hshape s).1, by decide, ⟨rfl, rfl, rfl, rfl⟩, by decide,
    ⟨rfl, rfl, rfl, rfl⟩, ?_, ?_, ?_⟩, ⟨fun _ => Nat.zero_lt_two, fun _ => rfl,
    fun _ => rfl, fun _ => rfl, ?_, ?_, ?_⟩, ?_⟩
  · intro s key child hl
    rw [(hshape s).2.1] at hl
    simp at hl
  · intro s c child _ hl
    rw [(hshape s).2.2] at hl
    simp at hl
  · intro c s hc
    simp [Heap.boot] at hc
  · intro t m hm
    simp [Heap.boot, TableState.new] at hm
  · intro t c hc
    simp [Heap.boot, TableState.new] at hc
  · intro t t' c hc
    simp [Heap.boot, TableState.new] at hc
  · intro m c hc
    simp [Heap.boot, TableState.new] at hc

theorem HeapOk.collect {h : Heap} (hok : HeapOk h) (collected : ShapeId → Bool) :
    HeapOk (h.collect collected) :=
  ⟨⟨hok.shapes.shape, hok.shapes.emptyShape_lt, hok.shapes.emptyShape, hok.shapes.emptyDict_lt,
      hok.shapes.emptyDict, hok.shapes.propEdge, hok.shapes.mtEdge, hok.shapes.sentinel⟩,
    ⟨hok.tables.shape_lt, hok.tables.length, hok.tables.dict, hok.tables.cache,
      hok.tables.seeded, hok.tables.cache_lt, hok.tables.cache_inj⟩,
    hok.bits⟩

theorem HeapOk.setUserdataMeta {h : Heap} (hok : HeapOk h) (u : ℕ) (mt : Option TableId) :
    HeapOk (h.setUserdataMeta u mt) :=
  ⟨⟨hok.shapes.shape, hok.shapes.emptyShape_lt, hok.shapes.emptyShape, hok.shapes.emptyDict_lt,
      hok.shapes.emptyDict, hok.shapes.propEdge, hok.shapes.mtEdge, hok.shapes.sentinel⟩,
    ⟨hok.tables.shape_lt, hok.tables.length, hok.tables.dict, hok.tables.cache,
      hok.tables.seeded, hok.tables.cache_lt, hok.tables.cache_inj⟩,
    hok.bits⟩

/-! ### The invariant of the caches -/

/-- Every entry names a shape and says where the key of its site is in it. -/
def IcsOk (keyAt : ι → LuaString) (h : Heap) (ics : ι → InlineCache) : Prop :=
  ∀ ic shape slot, ics ic = InlineCache.mono shape slot →
    shape < h.nextShape ∧ slot = ((h.shapes shape).findSlot (keyAt ic)).getD absentSlot

section

omit [DecidableEq ι]

variable {keyAt : ι → LuaString} {h h' : Heap} {ics : ι → InlineCache}

/-- The entries stay right while shapes keep their layout. -/
theorem IcsOk.grows (hics : IcsOk keyAt h ics) (hg : h.Grows h') : IcsOk keyAt h' ics := by
  intro ic shape slot hic
  obtain ⟨hlt, hslot⟩ := hics ic shape slot hic
  exact ⟨Nat.lt_of_lt_of_le hlt hg.nextShape, by rw [(hg.layout shape hlt).findSlot, hslot]⟩

theorem IcsOk.fill [DecidableEq ι] {vm : Vm ι} (hok : HeapOk vm.heap)
    (hics : IcsOk keyAt vm.heap vm.ics) (ic : ι) (t : TableId) :
    IcsOk keyAt vm.heap (vm.fillIcForConstantKey keyAt ic t).ics := by
  intro ic' shape slot hic
  by_cases hne : ic' = ic
  · subst hne
    simp only [Vm.fillIcForConstantKey, Function.update_self, InlineCache.mono.injEq] at hic
    obtain ⟨rfl, rfl⟩ := hic
    exact ⟨hok.tables.shape_lt t, rfl⟩
  · simp only [Vm.fillIcForConstantKey, Function.update_of_ne hne] at hic
    exact hics ic' shape slot hic

/-- A dictionary shape has no slots. -/
theorem findSlot_eq_none_of_isDict {d : ShapeData} (hd : d.Sound) (hdict : d.isDict = true)
    (k : LuaString) : d.findSlot k = none := by
  have hlen := hd.length
  rw [hd.dict hdict] at hlen
  unfold ShapeData.findSlot
  rw [List.length_eq_zero_iff.1 hlen]
  rfl

/-- A live entry with a slot says that the key has this slot, in a table in fast mode. -/
theorem slot_of_icCheck (hok : HeapOk h) (hics : IcsOk keyAt h ics) {ic : ι} {t : TableId}
    {slot : ℕ} (hhit : icCheck (ics ic) (h.tables t).shape = some slot)
    (hslot : slot ≠ absentSlot) :
    (h.shapeOf t).findSlot (keyAt ic) = some slot ∧ (h.tables t).dict = none := by
  cases hic : ics ic with
  | empty =>
      rw [hic] at hhit
      exact absurd hhit (by simp [icCheck])
  | mono shape slot' =>
      rw [hic] at hhit
      unfold icCheck at hhit
      simp only at hhit
      split at hhit
      case isFalse => exact absurd hhit (by simp)
      case isTrue hshape =>
        obtain rfl := Option.some.inj hhit
        obtain ⟨-, hfill⟩ := hics ic shape slot' hic
        have hfind : (h.shapeOf t).findSlot (keyAt ic) = some slot' := by
          unfold Heap.shapeOf
          rw [hshape]
          cases hf : (h.shapes shape).findSlot (keyAt ic) with
          | none => exact absurd (by rw [hfill, hf]; rfl) hslot
          | some s => rw [hfill, hf]; rfl
        refine ⟨hfind, ?_⟩
        -- a table with a dictionary is at a dictionary shape, which has no slot for any key
        cases hdict : (h.tables t).dict with
        | none => rfl
        | some d =>
            have hisDict : (h.shapeOf t).isDict = true := by
              rw [← hok.tables.dict t, hdict]
              rfl
            have hnone : (h.shapeOf t).findSlot (keyAt ic) = none :=
              findSlot_eq_none_of_isDict (hok.shapes.shape _) hisDict _
            rw [hnone] at hfind
            exact absurd hfind (by simp)

end

/-! ### Hits -/

section

omit [DecidableEq ι]

variable {keyAt : ι → LuaString} {vm : Vm ι}

theorem get_eq_property {h : Heap} {t : TableId} {key : LuaString} {slot : ℕ}
    (hfast : (h.tables t).dict = none) (hslot : (h.shapeOf t).findSlot key = some slot) :
    h.rawGet t (Value.string key) = (h.tables t).properties.getD slot Value.nil := by
  show (h.tables t).getStringKey (h.shapeOf t) key = _
  unfold TableState.getStringKey
  rw [hfast, hslot]

/-- **A read hit returns what the slow path returns.** -/
theorem getHit_spec (hok : HeapOk vm.heap) (hics : IcsOk keyAt vm.heap vm.ics) {ic : ι}
    {t : TableId} {v : Value} (hhit : vm.getHit ic t = some v) :
    vm.heap.tableGetSlow t (Value.string (keyAt ic)) = Outcome.value v := by
  unfold Vm.getHit at hhit
  simp only at hhit
  split at hhit
  case h_2 => exact absurd hhit (by simp)
  case h_1 slot hcheck =>
    split at hhit
    case isFalse => exact absurd hhit (by simp)
    case isTrue hslot =>
      obtain ⟨hfind, hfast⟩ := slot_of_icCheck hok hics hcheck hslot
      have hget := get_eq_property hfast hfind
      split at hhit
      case isFalse => exact absurd hhit (by simp)
      case isTrue hpass =>
        obtain rfl := Option.some.inj hhit
        unfold Heap.tableGetSlow
        simp only [hget]
        set v := (vm.heap.tables t).properties.getD slot Value.nil with hv
        by_cases hnil : v = Value.nil
        · -- a nil that is allowed through: the metatable has no `__index`
          have hmm : vm.heap.hasMM (vm.heap.tables t).shape Metamethod.index = false := by
            simpa [hnil, Value.isNil] using hpass
          simp [hnil, hmm, Value.isNil]
        · rw [if_pos (by simpa using hnil)]

/-- **A write hit has the effect of the slow path.** -/
theorem setHit_spec (hok : HeapOk vm.heap) (hics : IcsOk keyAt vm.heap vm.ics) {ic : ι}
    {t : TableId} {slot : ℕ} (hhit : vm.setHit ic t = some slot) (v : Value) :
    (vm.heap.shapeOf t).findSlot (keyAt ic) = some slot ∧ (vm.heap.tables t).dict = none ∧
      vm.heap.world.tableSet t (Value.string (keyAt ic)) v =
        (vm.heap.world.set t (Key.str (keyAt ic)) v, Outcome.done) := by
  unfold Vm.setHit at hhit
  simp only at hhit
  split at hhit
  case h_2 => exact absurd hhit (by simp)
  case h_1 slot' hcheck =>
    split at hhit
    case isFalse => exact absurd hhit (by simp)
    case isTrue hslot =>
      obtain ⟨hfind, hfast⟩ := slot_of_icCheck hok hics hcheck hslot
      split at hhit
      case isFalse => exact absurd hhit (by simp)
      case isTrue hpass =>
        obtain rfl := Option.some.inj hhit
        refine ⟨hfind, hfast, ?_⟩
        have hself : vm.heap.world.get t (Value.string (keyAt ic)) ≠ Value.nil ∨
            vm.heap.world.store.field luaTables t (Key.str Metamethod.newindex.name) =
              Value.nil := by
          rw [world_get, get_eq_property hfast hfind]
          by_cases hnil : (vm.heap.tables t).properties.getD slot' Value.nil = Value.nil
          · refine Or.inr ((not_hasMM_iff hok t Metamethod.newindex).1 ?_)
            rw [hnil] at hpass
            simpa [Value.isNil] using hpass
          · exact Or.inl hnil
        rw [tableSet_self v hself]
        exact if_neg (by simp)

end

/-! ### Both machines refine the world -/

/-- A heap that is well formed and presents `w`. -/
def Presents (h : Heap) (w : World) : Prop := HeapOk h ∧ h.world = w

/-- The caches are right, on a heap that presents `w`. -/
def CachedPresents (keyAt : ι → LuaString) (vm : Vm ι) (w : World) : Prop :=
  Presents vm.heap w ∧ IcsOk keyAt vm.heap vm.ics

theorem world_setMetatable {h : Heap} (hok : HeapOk h) (t : TableId) (mt : Option TableId) :
    (h.setMetatable t mt).world = h.world.setMetatable t mt := by
  obtain ⟨-, hstore, hgrows, hlen⟩ := setMetatable_spec hok t mt
  exact World.ext hstore (funext hlen) hgrows.userdataMeta

section

variable {keyAt : ι → LuaString} {vm : Vm ι}

theorem cachedGet_spec (hok : HeapOk vm.heap) (hics : IcsOk keyAt vm.heap vm.ics) (ic : ι)
    (t : TableId) :
    CachedPresents keyAt (vm.cachedGet keyAt ic t).1 vm.heap.world ∧
      (vm.cachedGet keyAt ic t).2 = vm.heap.world.tableGet t (Value.string (keyAt ic)) := by
  rw [← tableGetSlow_eq hok]
  unfold Vm.cachedGet
  cases hhit : vm.getHit ic t with
  | some v => exact ⟨⟨⟨hok, rfl⟩, hics⟩, (getHit_spec hok hics hhit).symm⟩
  | none => exact ⟨⟨⟨hok, rfl⟩, hics.fill hok ic t⟩, rfl⟩

theorem cachedSet_spec (hok : HeapOk vm.heap) (hics : IcsOk keyAt vm.heap vm.ics) (ic : ι)
    (t : TableId) (v : Value) :
    CachedPresents keyAt (vm.cachedSet keyAt ic t v).1
        (vm.heap.world.tableSet t (Value.string (keyAt ic)) v).1 ∧
      (vm.cachedSet keyAt ic t v).2 =
        (vm.heap.world.tableSet t (Value.string (keyAt ic)) v).2 := by
  unfold Vm.cachedSet
  cases hhit : vm.setHit ic t with
  | some slot =>
      obtain ⟨hfind, hfast, hset⟩ := setHit_spec hok hics hhit v
      have hst := stored_slot hok v hfast hfind
      rw [hset]
      exact ⟨⟨⟨hst.ok, hst.world⟩, hics.grows hst.grows⟩, rfl⟩
  | none =>
      obtain ⟨hok', hgrows, hset⟩ := tableSetSlow_spec hok t (Value.string (keyAt ic)) v
      rw [← hset]
      exact ⟨⟨⟨hok', rfl⟩, (hics.fill hok ic t).grows hgrows⟩, rfl⟩

/-- One operation through the caches does to the world what it is for. -/
theorem cachedStep_spec (hok : HeapOk vm.heap) (hics : IcsOk keyAt vm.heap vm.ics)
    (op : Op ι) :
    CachedPresents keyAt (cachedStep keyAt vm op).1 (worldStep keyAt vm.heap.world op).1 ∧
      (cachedStep keyAt vm op).2 = (worldStep keyAt vm.heap.world op).2 := by
  cases op with
  | rawSet t key v =>
      obtain ⟨hok', hgrows, hset⟩ := rawSetOp_spec hok t key v
      unfold cachedStep worldStep
      simp only
      rw [← hset]
      exact ⟨⟨⟨hok', rfl⟩, hics.grows hgrows⟩, rfl⟩
  | setMetatable t mt =>
      obtain ⟨hok', -, hgrows, -⟩ := setMetatable_spec hok t mt
      exact ⟨⟨⟨hok', world_setMetatable hok t mt⟩, hics.grows hgrows⟩, rfl⟩
  | setUserdataMetatable u mt => exact ⟨⟨⟨hok.setUserdataMeta u mt, rfl⟩, hics⟩, rfl⟩
  | getfield ic recv =>
      unfold cachedStep worldStep Vm.opGetfield
      simp only
      cases recv.getTable with
      | some t => exact cachedGet_spec hok hics ic t
      | none =>
          cases recv.getUserdata with
          | some u => exact ⟨⟨⟨hok, rfl⟩, hics⟩, userdataGetSlow_eq hok u recv _⟩
          | none => exact ⟨⟨⟨hok, rfl⟩, hics⟩, rfl⟩
  | setfield ic recv v =>
      unfold cachedStep worldStep Vm.opSetfield
      simp only
      cases recv.getTable with
      | some t => exact cachedSet_spec hok hics ic t v
      | none => exact ⟨⟨⟨hok, rfl⟩, hics⟩, rfl⟩
  | gettabup ic upvalue =>
      unfold cachedStep worldStep Vm.opGettabup
      simp only
      cases upvalue.getTable with
      | some t => exact cachedGet_spec hok hics ic t
      | none => exact ⟨⟨⟨hok, rfl⟩, hics⟩, rfl⟩
  | settabup ic upvalue v =>
      unfold cachedStep worldStep Vm.opSettabup
      simp only
      cases upvalue.getTable with
      | some t => exact cachedSet_spec hok hics ic t v
      | none => exact ⟨⟨⟨hok, rfl⟩, hics⟩, rfl⟩

end

omit [DecidableEq ι] in
/-- One operation without caches does to the world what it is for. -/
theorem uncachedStep_spec {keyAt : ι → LuaString} {h : Heap} (hok : HeapOk h) (op : Op ι) :
    Presents (uncachedStep keyAt h op).1 (worldStep keyAt h.world op).1 ∧
      (uncachedStep keyAt h op).2 = (worldStep keyAt h.world op).2 := by
  have hset : ∀ t key v, Presents (h.tableSetSlow t key v).1 (h.world.tableSet t key v).1 ∧
      (h.tableSetSlow t key v).2 = (h.world.tableSet t key v).2 := by
    intro t key v
    obtain ⟨hok', -, hset⟩ := tableSetSlow_spec hok t key v
    rw [← hset]
    exact ⟨⟨hok', rfl⟩, rfl⟩
  cases op with
  | rawSet t key v =>
      obtain ⟨hok', -, hraw⟩ := rawSetOp_spec hok t key v
      unfold uncachedStep worldStep
      simp only
      rw [← hraw]
      exact ⟨⟨hok', rfl⟩, rfl⟩
  | setMetatable t mt =>
      exact ⟨⟨(setMetatable_spec hok t mt).1, world_setMetatable hok t mt⟩, rfl⟩
  | setUserdataMetatable u mt => exact ⟨⟨hok.setUserdataMeta u mt, rfl⟩, rfl⟩
  | getfield ic recv =>
      unfold uncachedStep worldStep
      simp only
      cases recv.getTable with
      | some t => exact ⟨⟨hok, rfl⟩, tableGetSlow_eq hok t _⟩
      | none =>
          cases recv.getUserdata with
          | some u => exact ⟨⟨hok, rfl⟩, userdataGetSlow_eq hok u recv _⟩
          | none => exact ⟨⟨hok, rfl⟩, rfl⟩
  | setfield ic recv v =>
      unfold uncachedStep worldStep
      simp only
      cases recv.getTable with
      | some t => exact hset t _ v
      | none => exact ⟨⟨hok, rfl⟩, rfl⟩
  | gettabup ic upvalue =>
      unfold uncachedStep worldStep
      simp only
      cases upvalue.getTable with
      | some t => exact ⟨⟨hok, rfl⟩, tableGetSlow_eq hok t _⟩
      | none => exact ⟨⟨hok, rfl⟩, rfl⟩
  | settabup ic upvalue v =>
      unfold uncachedStep worldStep
      simp only
      cases upvalue.getTable with
      | some t => exact hset t _ v
      | none => exact ⟨⟨hok, rfl⟩, rfl⟩

/-- **The interpreter with caches refines the world**, whatever the collector reclaims. -/
theorem cachedMachine_simulation (keyAt : ι → LuaString) :
    (cachedMachine keyAt).Simulation (worldMachine keyAt) Prod.snd (CachedPresents keyAt) := by
  have hstep : ∀ vm w (i : Input ι), CachedPresents keyAt vm w →
      CachedPresents keyAt ((cachedMachine keyAt).step vm i).1
          ((worldMachine keyAt).step w i.2).1 ∧
        ((cachedMachine keyAt).step vm i).2 = ((worldMachine keyAt).step w i.2).2 := by
    rintro vm w ⟨collected, op⟩ ⟨⟨hok, rfl⟩, hics⟩
    let vm' : Vm ι := { vm with heap := vm.heap.collect collected }
    have hics' : IcsOk keyAt vm'.heap vm'.ics := hics
    exact cachedStep_spec (hok.collect collected) hics' op
  exact ⟨fun vm w i hR => (hstep vm w i hR).1, fun vm w i hR => (hstep vm w i hR).2⟩

omit [DecidableEq ι] in
/-- **The interpreter without caches refines the world.** -/
theorem uncachedMachine_simulation (keyAt : ι → LuaString) :
    (uncachedMachine keyAt).Simulation (worldMachine keyAt) Prod.snd Presents := by
  have hstep : ∀ h w (i : Input ι), Presents h w →
      Presents ((uncachedMachine keyAt).step h i).1 ((worldMachine keyAt).step w i.2).1 ∧
        ((uncachedMachine keyAt).step h i).2 = ((worldMachine keyAt).step w i.2).2 := by
    rintro h w ⟨collected, op⟩ ⟨hok, rfl⟩
    exact uncachedStep_spec (hok.collect collected) op
  exact ⟨fun h w i hR => (hstep h w i hR).1, fun h w i hR => (hstep h w i hR).2⟩

omit [DecidableEq ι] in
theorem map_snd_schedule (gc : ℕ → ShapeId → Bool) (ops : List (Op ι)) :
    (schedule gc ops).map Prod.snd = ops := by
  unfold schedule
  rw [List.map_map]
  exact List.zipIdx_map_fst 0 ops

/-- Two heaps a program cannot tell apart: every raw read, every metatable, every metamethod test
and every length agree, and so do the bits of every table's own cache. -/
structure Indistinguishable (h h' : Heap) : Prop where
  rawGet : ∀ t key, h.rawGet t key = h'.rawGet t key
  metatable : ∀ t, (h.tables t).metatable = (h'.tables t).metatable
  hasMM : ∀ t mm, h.hasMM (h.tables t).shape mm = h'.hasMM (h'.tables t).shape mm
  rawLen : ∀ t, h.rawLen t = h'.rawLen t
  bits : ∀ t c c', (h.tables t).mtCache = some c → (h'.tables t).mtCache = some c' →
    ∀ mm, (h.mtCaches c).bits mm = (h'.mtCaches c').bits mm

/-- Heaps that present one world are indistinguishable. -/
theorem Presents.indistinguishable {h h' : Heap} {w : World} (hp : Presents h w)
    (hp' : Presents h' w) : Indistinguishable h h' := by
  obtain ⟨hok, rfl⟩ := hp
  obtain ⟨hok', hw⟩ := hp'
  have hstore : h'.store = h.store := congrArg World.store hw
  have hget : ∀ t key, h.rawGet t key = h'.rawGet t key := by
    intro t key
    rw [Heap.rawGet_eq, Heap.rawGet_eq, hstore]
  refine ⟨hget, ?_, ?_, ?_, ?_⟩
  · intro t
    exact (congrFun (congrArg TableStore.metatable hstore) t).symm
  · intro t mm
    rw [hasMM_eq hok, hasMM_eq hok', hstore]
  · intro t
    exact (congrFun (congrArg World.len hw) t).symm
  · intro t c c' hc hc' mm
    rw [hok.bits t c hc mm, hok'.bits t c' hc' mm, ← Heap.rawGet_string, ← Heap.rawGet_string,
      hget]

/-- **The inline caches are transparent.**  Run any operations on a new state with the caches, and
the same operations without them: every operation has the same outcome, and the heaps that the
two runs end in are indistinguishable.  The two collectors may reclaim different shapes. -/
theorem inline_caches_transparent (keyAt : ι → LuaString) (ops : List (Op ι))
    (gc gc' : ℕ → ShapeId → Bool) :
    ((cachedMachine keyAt).run (Vm.boot ι) (schedule gc ops)).2 =
        ((uncachedMachine keyAt).run Heap.boot (schedule gc' ops)).2 ∧
      Indistinguishable ((cachedMachine keyAt).run (Vm.boot ι) (schedule gc ops)).1.heap
        ((uncachedMachine keyAt).run Heap.boot (schedule gc' ops)).1 := by
  have hboot : CachedPresents keyAt (Vm.boot ι) Heap.boot.world :=
    ⟨⟨heapOk_boot, rfl⟩, fun _ _ _ hic => by simp [Vm.boot] at hic⟩
  have hin : (schedule gc ops).map Prod.snd = (schedule gc' ops).map Prod.snd := by
    rw [map_snd_schedule, map_snd_schedule]
  obtain ⟨hout, w, hcached, huncached⟩ :=
    (cachedMachine_simulation keyAt).comparable (uncachedMachine_simulation keyAt) hboot
      ⟨heapOk_boot, rfl⟩ hin
  exact ⟨hout, hcached.1.indistinguishable huncached⟩

end Tcvm
