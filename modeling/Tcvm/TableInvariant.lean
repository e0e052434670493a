/-
Invariants of the table heap.

Every operation of `Tcvm/TableOps.lean` keeps three things: the shape tree is sound, every table
agrees with the shape it is at, and the metamethod bits of every cache say exactly which
metamethod names its owner holds.  Under these invariants the heap presents a `TableStore`, and
the live metamethod test reads the metatable's contents.

* `Key`, `keyOf`, `Heap.content`, `Heap.store` — the contents a table presents;
* `TablesOk`, `BitsExact`, `HeapOk` — the invariants;
* `hasMM_eq` — **the live bits are the metatable's contents**;
* `TableFits`, `TablesOk.setTable` — when one table may be replaced by another;
* `maybeUpdateMtBit_bits` — which bit a write moves.
-/

import Tcvm.ShapeInvariant
import Tcvm.TableStore

namespace Tcvm

open ShapeData

/-! ### Contents -/

/-- What a key selects: a string key, a position of the array part (0-based), or an entry of the
misc hash. -/
inductive Key
  | str (s : LuaString)
  | pos (i : ℕ)
  | misc (v : Value)
  deriving DecidableEq

/-- The part of a table a key is looked up in. -/
def keyOf : Value → Key
  | Value.string s => Key.str s
  | key =>
      match arrayIndex key with
      | some index => Key.pos (index - 1)
      | none => Key.misc key

/-- The contents of a table whose shape has data `sd`. -/
def TableState.content (ts : TableState) (sd : ShapeData) : Key → Value
  | Key.str s => ts.getStringKey sd s
  | Key.pos i => ts.array.getD i Value.nil
  | Key.misc v => ts.miscHashGet v

namespace Heap

/-- The contents of a table. -/
def content (h : Heap) (t : TableId) (k : Key) : Value := (h.tables t).content (h.shapeOf t) k

/-- The store a heap implements. -/
def store (h : Heap) : TableStore TableId Key Value :=
  { content := h.content, metatable := fun t => (h.tables t).metatable }

theorem rawGet_eq (h : Heap) (t : TableId) (key : Value) :
    h.rawGet t key = h.store.content t (keyOf key) := by
  cases key with
  | string s => rfl
  | integer i =>
      simp only [rawGet, keyOf, store, content]
      cases arrayIndex (Value.integer i) <;> rfl
  | float b =>
      simp only [rawGet, keyOf, store, content]
      cases arrayIndex (Value.float b) <;> rfl
  | nil => rfl
  | boolean b => rfl
  | table t => rfl
  | function f => rfl
  | thread t => rfl
  | userdata u => rfl

theorem rawGet_string (h : Heap) (t : TableId) (s : LuaString) :
    h.rawGet t (Value.string s) = h.content t (Key.str s) := rfl

end Heap

theorem keyOf_of_arrayIndex_none {key : Value} (hs : ∀ s, key ≠ Value.string s)
    (h : arrayIndex key = none) : keyOf key = Key.misc key := by
  cases key with
  | string s => exact absurd rfl (hs s)
  | _ => simp [keyOf, h]

theorem keyOf_of_arrayIndex_some {key : Value} {index : ℕ} (h : arrayIndex key = some index) :
    keyOf key = Key.pos (index - 1) := by
  cases key with
  | string s => simp [arrayIndex] at h
  | _ => simp [keyOf, h]

/-- Array indices are 1-based. -/
theorem arrayIndex_pos {key : Value} {index : ℕ} (h : arrayIndex key = some index) :
    0 < index := by
  unfold arrayIndex at h
  split at h
  · split at h
    · simp only [Option.some.injEq] at h
      omega
    · exact absurd h (by simp)
  · split at h
    · repeat' split at h
      all_goals first
        | (simp only [Option.some.injEq] at h; omega)
        | exact absurd h (by simp)
    · exact absurd h (by simp)
  · exact absurd h (by simp)

/-! ### The invariants -/

/-- Every table agrees with the shape it is at. -/
structure TablesOk (h : Heap) : Prop where
  shape_lt : ∀ t, (h.tables t).shape < h.nextShape
  /-- One property slot for each slot of the shape. -/
  length : ∀ t, (h.tables t).properties.length = (h.shapeOf t).slotCount
  /-- A table has a dictionary exactly when its shape is a dictionary shape. -/
  dict : ∀ t, (h.tables t).dict.isSome = (h.shapeOf t).isDict
  /-- The shape carries the cache of the table's metatable. -/
  cache : ∀ t, (h.shapeOf t).mtCache =
    (h.tables t).metatable.bind fun m => (h.tables m).mtCache
  /-- A table in use as a metatable has a cache. -/
  seeded : ∀ t m, (h.tables t).metatable = some m → (h.tables m).mtCache.isSome = true
  cache_lt : ∀ t c, (h.tables t).mtCache = some c → c < h.nextMtCache
  /-- A cache has one owner. -/
  cache_inj : ∀ t t' c, (h.tables t).mtCache = some c → (h.tables t').mtCache = some c → t = t'

/-- The bits of a cache say which metamethod names its owner holds. -/
def BitsExact (h : Heap) : Prop :=
  ∀ m c, (h.tables m).mtCache = some c → ∀ mm : Metamethod,
    (h.mtCaches c).bits mm = !(h.content m (Key.str mm.name)).isNil

/-- A well-formed heap. -/
structure HeapOk (h : Heap) : Prop where
  shapes : ShapesSound h
  tables : TablesOk h
  bits : BitsExact h

/-- Under the invariants the live metamethod test reads the metatable. -/
theorem hasMM_eq {h : Heap} (hok : HeapOk h) (t : TableId) (mm : Metamethod) :
    h.hasMM (h.tables t).shape mm =
      ((h.store.field? t (Key.str mm.name)).any fun v => !v.isNil) := by
  have hc : (h.shapes (h.tables t).shape).mtCache = _ := hok.tables.cache t
  unfold Heap.hasMM TableStore.field?
  rw [hc]
  cases hm : (h.tables t).metatable with
  | none => simp [Heap.store, hm]
  | some m =>
      obtain ⟨c, hmc⟩ := Option.isSome_iff_exists.1 (hok.tables.seeded t m hm)
      simp only [Option.bind_some, hmc, Heap.store, hm, Option.map_some, Option.any_some]
      exact hok.bits m c hmc mm

/-! ### Growth -/

/-- Shapes that exist keep their layout. -/
structure Heap.Grows (h h' : Heap) : Prop where
  nextShape : h.nextShape ≤ h'.nextShape
  layout : ∀ s < h.nextShape, SameLayout (h.shapes s) (h'.shapes s)
  userdataMeta : h'.userdataMeta = h.userdataMeta
  emptyShape : h'.emptyShape = h.emptyShape

namespace Heap.Grows

theorem refl (h : Heap) : h.Grows h :=
  ⟨Nat.le_refl _, fun _ _ => SameLayout.refl _, rfl, rfl⟩

theorem trans {a b c : Heap} (h₁ : a.Grows b) (h₂ : b.Grows c) : a.Grows c :=
  ⟨Nat.le_trans h₁.nextShape h₂.nextShape,
    fun s hs => (h₁.layout s hs).trans (h₂.layout s (Nat.lt_of_lt_of_le hs h₁.nextShape)),
    h₂.userdataMeta.trans h₁.userdataMeta, h₂.emptyShape.trans h₁.emptyShape⟩

end Heap.Grows

theorem Heap.Extends.grows {h h' : Heap} (he : h.Extends h') : h.Grows h' :=
  ⟨he.nextShape, he.layout, he.userdataMeta, he.emptyShape⟩

/-! ### Replacing one table -/

theorem getStringKey_sameLayout {d d' : ShapeData} (h : SameLayout d d') (ts : TableState)
    (k : LuaString) : ts.getStringKey d' k = ts.getStringKey d k := by
  simp only [TableState.getStringKey, h.findSlot]

theorem content_sameLayout {d d' : ShapeData} (h : SameLayout d d') (ts : TableState) (k : Key) :
    ts.content d' k = ts.content d k := by
  cases k with
  | str s => exact getStringKey_sameLayout h ts s
  | pos i => rfl
  | misc v => rfl

theorem content_extends {h h' : Heap} (hok : TablesOk h) (hext : h.Extends h') (t : TableId)
    (k : Key) : h'.content t k = h.content t k := by
  unfold Heap.content Heap.shapeOf
  rw [hext.tables]
  exact content_sameLayout (hext.layout _ (hok.shape_lt t)) _ k

/-- What a table must satisfy to take the place of `t` in a heap that extends `h`. -/
structure TableFits (h h' : Heap) (t : TableId) (d : TableState) : Prop where
  shape_lt : d.shape < h'.nextShape
  length : d.properties.length = (h'.shapes d.shape).slotCount
  dict : d.dict.isSome = (h'.shapes d.shape).isDict
  cache : (h'.shapes d.shape).mtCache = d.metatable.bind fun m => (h.tables m).mtCache
  seeded : ∀ m, d.metatable = some m → (h.tables m).mtCache.isSome = true
  own : d.mtCache = (h.tables t).mtCache

theorem tables_setTable_mtCache {h h' : Heap} (hext : h.Extends h') {t : TableId} {d : TableState}
    (hown : d.mtCache = (h.tables t).mtCache) (t' : TableId) :
    ((h'.setTable t d).tables t').mtCache = (h.tables t').mtCache := by
  by_cases ht : t' = t
  · subst ht
    simpa [Heap.setTable] using hown
  · simp [Heap.setTable, Function.update_of_ne ht, hext.tables]

/-- Replacing one table keeps the tables in agreement with their shapes. -/
theorem TablesOk.setTable {h h' : Heap} (hok : TablesOk h) (hext : h.Extends h') {t : TableId}
    {d : TableState} (hfit : TableFits h h' t d) : TablesOk (h'.setTable t d) := by
  have hmt := tables_setTable_mtCache hext hfit.own
  have hself : (h'.setTable t d).tables t = d := by simp [Heap.setTable]
  have hold : ∀ t', t' ≠ t → (h'.setTable t d).tables t' = h.tables t' := by
    intro t' ht
    simp [Heap.setTable, Function.update_of_ne ht, hext.tables]
  have hlay : ∀ t', SameLayout (h.shapeOf t') (h'.shapes (h.tables t').shape) := fun t' =>
    hext.layout _ (hok.shape_lt t')
  have hshape : ∀ t', t' ≠ t → (h'.setTable t d).shapeOf t' = h'.shapes (h.tables t').shape := by
    intro t' ht
    unfold Heap.shapeOf
    rw [hold t' ht]
    rfl
  have hshape' : (h'.setTable t d).shapeOf t = h'.shapes d.shape := by
    unfold Heap.shapeOf
    rw [hself]
    rfl
  refine ⟨?_, ?_, ?_, ?_, ?_, ?_, ?_⟩
  · intro t'
    by_cases ht : t' = t
    · rw [ht, hself]; exact hfit.shape_lt
    · rw [hold t' ht]; exact Nat.lt_of_lt_of_le (hok.shape_lt t') hext.nextShape
  · intro t'
    by_cases ht : t' = t
    · rw [ht, hself, hshape']; exact hfit.length
    · rw [hold t' ht, hshape t' ht, (hlay t').slotCount]; exact hok.length t'
  · intro t'
    by_cases ht : t' = t
    · rw [ht, hself, hshape']; exact hfit.dict
    · rw [hold t' ht, hshape t' ht, (hlay t').isDict]; exact hok.dict t'
  · intro t'
    simp only [hmt]
    by_cases ht : t' = t
    · rw [ht, hself, hshape']; exact hfit.cache
    · rw [hold t' ht, hshape t' ht, (hlay t').mtCache]; exact hok.cache t'
  · intro t' m hm
    rw [hmt]
    by_cases ht : t' = t
    · rw [ht, hself] at hm; exact hfit.seeded m hm
    · rw [hold t' ht] at hm; exact hok.seeded t' m hm
  · intro t' c hc
    rw [hmt] at hc
    exact Nat.lt_of_lt_of_eq (hok.cache_lt t' c hc) hext.nextMtCache.symm
  · intro t₁ t₂ c h₁ h₂
    rw [hmt] at h₁ h₂
    exact hok.cache_inj t₁ t₂ c h₁ h₂

theorem content_setTable {h h' : Heap} (hok : TablesOk h) (hext : h.Extends h') {t : TableId}
    {d : TableState} (t' : TableId) (k : Key) :
    (h'.setTable t d).content t' k =
      if t' = t then d.content (h'.shapes d.shape) k else h.content t' k := by
  by_cases ht : t' = t
  · subst ht
    simp [Heap.content, Heap.shapeOf, Heap.setTable]
  · rw [if_neg ht, ← content_extends hok hext t' k]
    simp [Heap.content, Heap.shapeOf, Heap.setTable, Function.update_of_ne ht]

theorem ShapesSound.setTable {h : Heap} (hs : ShapesSound h) (t : TableId) (d : TableState) :
    ShapesSound (h.setTable t d) :=
  ⟨hs.shape, hs.emptyShape_lt, hs.emptyShape, hs.emptyDict_lt, hs.emptyDict, hs.propEdge,
    hs.mtEdge, hs.sentinel⟩

/-! ### Metamethod bits -/

theorem maybeUpdateMtBit_tables (h : Heap) (t : TableId) (key : LuaString) (v : Value) :
    (h.maybeUpdateMtBit t key v).tables = h.tables := by
  unfold Heap.maybeUpdateMtBit
  split <;> rfl

theorem maybeUpdateMtBit_shapes (h : Heap) (t : TableId) (key : LuaString) (v : Value) :
    (h.maybeUpdateMtBit t key v).shapes = h.shapes := by
  unfold Heap.maybeUpdateMtBit
  split <;> rfl

theorem maybeUpdateMtBit_grows (h : Heap) (t : TableId) (key : LuaString) (v : Value) :
    h.Grows (h.maybeUpdateMtBit t key v) := by
  unfold Heap.maybeUpdateMtBit
  split
  · exact ⟨Nat.le_refl _, fun _ _ => SameLayout.refl _, rfl, rfl⟩
  · exact Heap.Grows.refl h

theorem maybeUpdateMtBit_content (h : Heap) (t : TableId) (key : LuaString) (v : Value) :
    (h.maybeUpdateMtBit t key v).content = h.content := by
  funext t' k
  unfold Heap.content Heap.shapeOf
  rw [maybeUpdateMtBit_tables, maybeUpdateMtBit_shapes]

/-- The write is mirrored into the bit of the name it goes to, and nowhere else. -/
theorem maybeUpdateMtBit_bits (h : Heap) (t : TableId) (key : LuaString) (v : Value)
    (c : MtCacheId) (mm : Metamethod) :
    ((h.maybeUpdateMtBit t key v).mtCaches c).bits mm =
      if (h.tables t).mtCache = some c ∧ key = mm.name then !v.isNil
      else (h.mtCaches c).bits mm := by
  unfold Heap.maybeUpdateMtBit
  split
  case h_1 c' bit hc hbit =>
    obtain rfl := metamethodBitOfBytes_eq_some.1 hbit
    rw [hc]
    by_cases hcc : c = c'
    · subst hcc
      by_cases hmm : mm = bit
      · subst hmm
        simp [Heap.setMtCache, MtCacheData.update]
      · have hname : bit.name ≠ mm.name := by
          intro he
          have := metamethodBitOfBytes_name mm
          rw [← he, metamethodBitOfBytes_name] at this
          exact hmm (Option.some.inj this).symm
        simp [Heap.setMtCache, MtCacheData.update, Function.update_of_ne hmm, hname]
    · have hne : ¬(some c' = some c ∧ bit.name = mm.name) := fun he =>
        hcc (Option.some.inj he.1).symm
      rw [if_neg hne]
      simp [Heap.setMtCache, Function.update_of_ne hcc]
  case h_2 hno =>
    have hne : ¬((h.tables t).mtCache = some c ∧ key = mm.name) := by
      rintro ⟨hc, rfl⟩
      exact hno c mm hc (metamethodBitOfBytes_name mm)
    rw [if_neg hne]

theorem ShapesSound.maybeUpdateMtBit {h : Heap} (hs : ShapesSound h) (t : TableId)
    (key : LuaString) (v : Value) : ShapesSound (h.maybeUpdateMtBit t key v) := by
  unfold Heap.maybeUpdateMtBit
  split
  case h_1 c bit hc hbit =>
    refine ⟨hs.shape, hs.emptyShape_lt, hs.emptyShape, hs.emptyDict_lt, hs.emptyDict,
      hs.propEdge, hs.mtEdge, ?_⟩
    intro c' s hc'
    by_cases hcc : c' = c
    · subst hcc
      simp only [Heap.setMtCache, Function.update_self, MtCacheData.update] at hc'
      exact hs.sentinel c' s hc'
    · simp only [Heap.setMtCache, Function.update_of_ne hcc] at hc'
      exact hs.sentinel c' s hc'
  case h_2 => exact hs

theorem TablesOk.maybeUpdateMtBit {h : Heap} (ht : TablesOk h) (t : TableId) (key : LuaString)
    (v : Value) : TablesOk (h.maybeUpdateMtBit t key v) := by
  unfold Heap.maybeUpdateMtBit
  split
  · exact ⟨ht.shape_lt, ht.length, ht.dict, ht.cache, ht.seeded, ht.cache_lt, ht.cache_inj⟩
  · exact ht

end Tcvm
