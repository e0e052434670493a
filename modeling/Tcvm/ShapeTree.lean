/-
Shapes, metamethod caches and the heap they live on.

A shape is an immutable descriptor of the string-keyed layout of a table together with the
identity of its metatable; shapes form a transition tree.  The heap below holds shapes, the
metamethod caches of tables used as metatables, and the tables themselves, each as a function of
its address; shapes and caches are allocated from a counter, so an address is never handed out
twice.

The garbage collector appears through `Heap.collected`: a transition edge is a weak pointer, and
`Heap.upgrade` refuses the children that have been collected.  Which shapes those are is left
open, so everything proved here holds whatever the collector does.

* `ShapeData`, `MtCacheData`, `TableState`, `Heap` — the heap objects;
* `ShapeData.findSlot` — look up a string key in a shape;
* `transitionAddProp`, `transitionSetMetatable`, `ensureDictSentinel` — the transitions;
* `hasMM` — the live metamethod test.
-/

import Mathlib.Data.List.AList
import Tcvm.LuaValue

namespace Tcvm

/-- The address of a shape. -/
abbrev ShapeId := ℕ

/-- The address of a metamethod cache. -/
abbrev MtCacheId := ℕ

/-- One descriptor entry: a string key and the slot it occupies in the property vector. -/
structure Descriptor where
  key : LuaString
  slot : ℕ
  deriving DecidableEq

/-- Maximum string-keyed properties a table can hold in fast mode. -/
def maxPropertiesFast : ℕ := 64

/-- A hidden class.  The bookkeeping link `last_key`, which no operation modelled here reads, is
left out. -/
structure ShapeData where
  /-- The shape this one was derived from, which it keeps alive. -/
  parent : Option ShapeId
  slotCount : ℕ
  mtCache : Option MtCacheId
  isDict : Bool
  /-- Property-add edges. -/
  byProp : AList fun _ : LuaString => ShapeId
  /-- Set-metatable edges. -/
  byMt : AList fun _ : Option MtCacheId => ShapeId
  descriptors : List Descriptor

/-- The metamethod-presence bits of one metatable, and the dictionary shape its tables share. -/
structure MtCacheData where
  bits : Metamethod → Bool
  dictSentinel : Option ShapeId

/-- A table: string keys go through the shape or the dictionary, positive integers through the
array, everything else through the misc hash. -/
structure TableState where
  shape : ShapeId
  properties : List Value
  array : List Value
  miscHash : AList fun _ : Value => Value
  dict : Option (AList fun _ : LuaString => Value)
  metatable : Option TableId
  /-- The cache of *this* table when it is used as a metatable. -/
  mtCache : Option MtCacheId

/-- The part of the heap that tables live in. -/
structure Heap where
  shapes : ShapeId → ShapeData
  nextShape : ℕ
  mtCaches : MtCacheId → MtCacheData
  nextMtCache : ℕ
  /-- An address that has not been handed out yet holds an empty table, so creating a table is
  choosing such an address. -/
  tables : TableId → TableState
  /-- Metatables of userdata. -/
  userdataMeta : ℕ → Option TableId
  /-- The shape every table starts at. -/
  emptyShape : ShapeId
  /-- The dictionary shape of tables without a metatable. -/
  emptyDictSentinel : ShapeId
  /-- The shapes the collector has reclaimed. -/
  collected : ShapeId → Bool

/-! ### Constructors -/

namespace ShapeData

/-- The global empty shape. -/
def rootEmpty : ShapeData :=
  { parent := none, slotCount := 0, mtCache := none, isDict := false, byProp := ∅, byMt := ∅,
    descriptors := [] }

/-- The dictionary-mode sentinel shape for a given metatable cache. -/
def dictSentinel (mtCache : Option MtCacheId) : ShapeData :=
  { parent := none, slotCount := 0, mtCache := mtCache, isDict := true, byProp := ∅, byMt := ∅,
    descriptors := [] }

/-- Look up a string key: the first descriptor that carries it. -/
def findSlot (s : ShapeData) (key : LuaString) : Option ℕ :=
  (s.descriptors.find? fun d => d.key == key).map Descriptor.slot

end ShapeData

/-- A fresh table at the given shape. -/
def TableState.new (shape : ShapeId) : TableState :=
  { shape := shape, properties := [], array := [], miscHash := ∅, dict := none, metatable := none,
    mtCache := none }

namespace MtCacheData

/-- Set or clear `bit` depending on whether the value written under that name is nil. -/
def update (c : MtCacheData) (bit : Metamethod) (value : Value) : MtCacheData :=
  { c with bits := Function.update c.bits bit (!value.isNil) }

end MtCacheData

/-! ### Writing heap objects -/

namespace Heap

/-- Store a shape's data. -/
def setShape (h : Heap) (s : ShapeId) (d : ShapeData) : Heap :=
  { h with shapes := Function.update h.shapes s d }

/-- Store a metamethod cache. -/
def setMtCache (h : Heap) (c : MtCacheId) (d : MtCacheData) : Heap :=
  { h with mtCaches := Function.update h.mtCaches c d }

/-- Store a table. -/
def setTable (h : Heap) (t : TableId) (d : TableState) : Heap :=
  { h with tables := Function.update h.tables t d }

/-- Allocate a shape. -/
def allocShape (h : Heap) (d : ShapeData) : ShapeId × Heap :=
  (h.nextShape, { h.setShape h.nextShape d with nextShape := h.nextShape + 1 })

/-- Allocate a metamethod cache (`MtCache::new`). -/
def allocMtCache (h : Heap) (bits : Metamethod → Bool) : MtCacheId × Heap :=
  (h.nextMtCache,
    { h.setMtCache h.nextMtCache { bits := bits, dictSentinel := none } with
      nextMtCache := h.nextMtCache + 1 })

/-- A weak edge upgrades while its target has not been collected. -/
def upgrade (h : Heap) (s : ShapeId) : Option ShapeId :=
  if h.collected s then none else some s

/-! ### Transitions -/

/-- The dictionary sentinel of a metatable cache, allocated on first use. -/
def ensureDictSentinel (h : Heap) (c : MtCacheId) : ShapeId × Heap :=
  match (h.mtCaches c).dictSentinel with
  | some s => (s, h)
  | none =>
      let r := h.allocShape (ShapeData.dictSentinel (some c))
      (r.1, r.2.setMtCache c { r.2.mtCaches c with dictSentinel := some r.1 })

/-- The dictionary sentinel of an optional metatable cache. -/
def dictSentinelOf (h : Heap) : Option MtCacheId → ShapeId × Heap
  | some c => h.ensureDictSentinel c
  | none => (h.emptyDictSentinel, h)

/-- Add a string-keyed property to `parent`: reuse the edge while its child is alive, otherwise
allocate the child and install or replace the edge. -/
def transitionAddProp (h : Heap) (parent : ShapeId) (key : LuaString) : ShapeId × Heap :=
  match ((h.shapes parent).byProp.lookup key).bind h.upgrade with
  | some child => (child, h)
  | none =>
      let p := h.shapes parent
      let newSlot := p.slotCount
      let r := h.allocShape
        { parent := some parent
          slotCount := newSlot + 1
          mtCache := p.mtCache
          isDict := false
          byProp := ∅
          byMt := ∅
          descriptors := p.descriptors ++ [{ key := key, slot := newSlot }] }
      (r.1, r.2.setShape parent { p with byProp := p.byProp.insert key r.1 })

/-- Switch the metatable on `parent`: the same ordered key list under the new cache.  A dictionary
parent is routed to the dictionary sentinel of the new cache. -/
def transitionSetMetatable (h : Heap) (parent : ShapeId) (newMt : Option MtCacheId) :
    ShapeId × Heap :=
  if (h.shapes parent).isDict then h.dictSentinelOf newMt
  else
    match ((h.shapes parent).byMt.lookup newMt).bind h.upgrade with
    | some child => (child, h)
    | none =>
        let p := h.shapes parent
        let r := h.allocShape
          { parent := some parent
            slotCount := p.slotCount
            mtCache := newMt
            isDict := false
            byProp := ∅
            byMt := ∅
            descriptors := p.descriptors }
        (r.1, r.2.setShape parent { p with byMt := p.byMt.insert newMt r.1 })

/-- Does the metatable behind shape `s` currently define `mm`?  The bits are read live. -/
def hasMM (h : Heap) (s : ShapeId) (mm : Metamethod) : Bool :=
  match (h.shapes s).mtCache with
  | none => false
  | some c => (h.mtCaches c).bits mm

end Heap

end Tcvm
