/-
Raw table operations.

The operations of `TableState` and `Table`, on the heap of `Tcvm/ShapeTree.lean`.  Indexing the
property vector at a slot that is out of range panics in the source; `Tcvm/TableInvariant.lean`
shows that this never happens, and the reads here return nil there.

* `rawGet`, `rawSet`, `rawLen` — reads and writes through the shape, the dictionary, the array
  and the misc hash;
* `setStringKey`, `setStringKeyDict`, `migrateToDict` — the string-keyed part;
* `ensureMtCache`, `setMetatable`, `maybeUpdateMtBit` — metatables and their bits.
-/

import Tcvm.ShapeTree

namespace Tcvm

namespace TableState

/-- The value under a string key, given the data of the table's shape. -/
def getStringKey (ts : TableState) (sd : ShapeData) (key : LuaString) : Value :=
  match ts.dict with
  | some d => (d.lookup key).getD Value.nil
  | none =>
      match sd.findSlot key with
      | some slot => ts.properties.getD slot Value.nil
      | none => Value.nil

/-- The value under a key of the misc hash. -/
def miscHashGet (ts : TableState) (key : Value) : Value :=
  (ts.miscHash.lookup key).getD Value.nil

/-- Write a key of the misc hash: storing nil removes an existing entry. -/
def miscHashSet (ts : TableState) (key value : Value) : TableState :=
  match ts.miscHash.lookup key with
  | some _ =>
      if value.isNil then { ts with miscHash := ts.miscHash.erase key }
      else { ts with miscHash := ts.miscHash.insert key value }
  | none => { ts with miscHash := ts.miscHash.insert key value }

/-- Write array position `index` (1-based), growing the array with nils up to it. -/
def arraySet (ts : TableState) (index : ℕ) (value : Value) : TableState :=
  let grown :=
    if ts.array.length < index then
      ts.array ++ List.replicate (index - ts.array.length) Value.nil
    else ts.array
  { ts with array := grown.set (index - 1) value }

/-- The string-keyed contents as a dictionary, without the nil slots. -/
def toDict (ts : TableState) (sd : ShapeData) : AList fun _ : LuaString => Value :=
  sd.descriptors.foldl
    (fun d desc =>
      let v := ts.properties.getD desc.slot Value.nil
      if v.isNil then d else d.insert desc.key v)
    ∅

/-- Write a key of the dictionary: storing nil removes it. -/
def dictSet (d : AList fun _ : LuaString => Value) (key : LuaString) (value : Value) :
    AList fun _ : LuaString => Value :=
  match d.lookup key with
  | some _ => if value.isNil then d.erase key else d.insert key value
  | none => if value.isNil then d else d.insert key value

end TableState

namespace Heap

/-- The data of the shape a table is at. -/
def shapeOf (h : Heap) (t : TableId) : ShapeData := h.shapes (h.tables t).shape

/-- The value under a string key. -/
def getStringKey (h : Heap) (t : TableId) (key : LuaString) : Value :=
  (h.tables t).getStringKey (h.shapeOf t) key

/-- `raw_get`. -/
def rawGet (h : Heap) (t : TableId) (key : Value) : Value :=
  match key with
  | Value.string s => h.getStringKey t s
  | key =>
      match arrayIndex key with
      | some index => (h.tables t).array.getD (index - 1) Value.nil
      | none => (h.tables t).miscHashGet key

/-- `raw_len`. -/
def rawLen (h : Heap) (t : TableId) : ℕ := (h.tables t).array.length

/-- Mirror a write under a metamethod name into the cache of a table used as a metatable. -/
def maybeUpdateMtBit (h : Heap) (t : TableId) (key : LuaString) (value : Value) : Heap :=
  match (h.tables t).mtCache, metamethodBitOfBytes key with
  | some c, some bit => h.setMtCache c ((h.mtCaches c).update bit value)
  | _, _ => h

/-- Move a table from its property vector to a dictionary, at the dictionary sentinel anchored on
the same metatable cache. -/
def migrateToDict (h : Heap) (t : TableId) : Heap :=
  let ts := h.tables t
  let sd := h.shapes ts.shape
  let r := h.dictSentinelOf sd.mtCache
  r.2.setTable t { ts with shape := r.1, properties := [], dict := some (ts.toDict sd) }

/-- Write a string key of a table in dictionary mode. -/
def setStringKeyDict (h : Heap) (t : TableId) (key : LuaString) (value : Value) : Heap :=
  let ts := h.tables t
  let h' := h.setTable t { ts with dict := ts.dict.map fun d => TableState.dictSet d key value }
  h'.maybeUpdateMtBit t key value

/-- Write a string key: in place, by a shape transition, or by migrating to dictionary mode when a
slot is deleted or the shape is full. -/
def setStringKey (h : Heap) (t : TableId) (key : LuaString) (value : Value) : Heap :=
  let ts := h.tables t
  if ts.dict.isSome then h.setStringKeyDict t key value
  else
    match (h.shapes ts.shape).findSlot key with
    | some slot =>
        if value.isNil then (h.migrateToDict t).setStringKeyDict t key value
        else
          (h.setTable t { ts with properties := ts.properties.set slot value }).maybeUpdateMtBit
            t key value
    | none =>
        if maxPropertiesFast ≤ (h.shapes ts.shape).slotCount then
          (h.migrateToDict t).setStringKeyDict t key value
        else
          let r := h.transitionAddProp ts.shape key
          (r.2.setTable t
            { ts with shape := r.1, properties := ts.properties ++ [value] }).maybeUpdateMtBit
            t key value

/-- `raw_set`; a nil key reaches `todo!()`. -/
def rawSet (h : Heap) (t : TableId) (key value : Value) : Option Heap :=
  match key with
  | Value.string s => some (h.setStringKey t s value)
  | key =>
      match arrayIndex key with
      | some index => some (h.setTable t ((h.tables t).arraySet index value))
      | none =>
          if key.isNil then none
          else some (h.setTable t ((h.tables t).miscHashSet key value))

/-- The table's own metamethod cache, allocated and seeded from its contents on first use. -/
def ensureMtCache (h : Heap) (t : TableId) : MtCacheId × Heap :=
  match (h.tables t).mtCache with
  | some c => (c, h)
  | none =>
      let r := h.allocMtCache fun mm => !(h.rawGet t (Value.string mm.name)).isNil
      (r.1, r.2.setTable t { r.2.tables t with mtCache := some r.1 })

/-- The cache of an optional metatable. -/
def metatableCache (h : Heap) : Option TableId → Option MtCacheId × Heap
  | some m => let r := h.ensureMtCache m; (some r.1, r.2)
  | none => (none, h)

/-- `set_metatable`: re-shape the table along the metatable edge. -/
def setMetatable (h : Heap) (t : TableId) (mt : Option TableId) : Heap :=
  let r := h.metatableCache mt
  let s := r.2.transitionSetMetatable (r.2.tables t).shape r.1
  s.2.setTable t { s.2.tables t with shape := s.1, metatable := mt }

end Heap

end Tcvm
