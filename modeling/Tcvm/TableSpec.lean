/-
What the raw operations do to the contents of the heap.

Each operation of `Tcvm/TableOps.lean` keeps the invariants of `Tcvm/TableInvariant.lean` and
updates the store that the heap presents in the way its name announces, whichever of its branches
it takes: in place, by a shape transition, or through a migration to dictionary mode.

* `Heap.Stored`, `rawSet_spec` — **`raw_set` is `TableStore.set`**;
* `migrateToDict_spec` — migration changes nothing that can be read;
* `Heap.Seeded`, `ensureMtCache_spec` — neither does seeding a metamethod cache;
* `setMetatable_spec` — **`set_metatable` is `TableStore.setMetatable`**.
-/

import Tcvm.TableInvariant

namespace Tcvm

open ShapeData

/-! ### Writes -/

/-- The length of the array part after a write: storing past its end grows it. -/
def lenAfter : Key → ℕ → ℕ
  | Key.pos i, n => max n (i + 1)
  | _, n => n

/-- `h'` is `h` after the value `v` was stored under key `k` of table `t`. -/
structure Heap.Stored (h : Heap) (t : TableId) (k : Key) (v : Value) (h' : Heap) : Prop where
  ok : HeapOk h'
  store : h'.store = h.store.set t k v
  len : ∀ t', h'.rawLen t' = if t' = t then lenAfter k (h.rawLen t) else h.rawLen t'
  grows : h.Grows h'

theorem rawLen_setTable {h h' : Heap} (hext : h.Extends h') (t t' : TableId) (d : TableState) :
    (h'.setTable t d).rawLen t' = if t' = t then d.array.length else h.rawLen t' := by
  unfold Heap.rawLen
  by_cases ht : t' = t
  · subst ht
    simp [Heap.setTable]
  · simp [Heap.setTable, ht, hext.tables]

theorem store_ext {h h' : Heap} (hc : h'.content = h.content)
    (hm : ∀ t, (h'.tables t).metatable = (h.tables t).metatable) : h'.store = h.store :=
  TableStore.ext hc (funext hm)

/-- A write to a string key: a table that fits, whose contents changed at that key alone, with
the bit updated. -/
theorem stored_string {h h' : Heap} (hok : HeapOk h) (hs' : ShapesSound h')
    (hext : h.Extends h') {t : TableId} {d : TableState} {s : LuaString} {v : Value}
    (hfit : TableFits h h' t d) (hmeta : d.metatable = (h.tables t).metatable)
    (harray : d.array = (h.tables t).array)
    (hd : ∀ k, d.content (h'.shapes d.shape) k = if k = Key.str s then v else h.content t k) :
    h.Stored t (Key.str s) v ((h'.setTable t d).maybeUpdateMtBit t s v) := by
  have hcontent : ∀ t' k, (h'.setTable t d).content t' k =
      if t' = t ∧ k = Key.str s then v else h.content t' k := by
    intro t' k
    rw [content_setTable hok.tables hext]
    by_cases ht : t' = t
    · subst ht
      simp only [if_true, true_and, hd]
    · simp [ht]
  refine ⟨⟨?_, ?_, ?_⟩, ?_, ?_, ?_⟩
  · exact (hs'.setTable t d).maybeUpdateMtBit t s v
  · exact (hok.tables.setTable hext hfit).maybeUpdateMtBit t s v
  · intro m c hc mm
    rw [maybeUpdateMtBit_tables, tables_setTable_mtCache hext hfit.own] at hc
    rw [maybeUpdateMtBit_bits, tables_setTable_mtCache hext hfit.own, maybeUpdateMtBit_content,
      hcontent]
    -- the cache belongs to `m` alone, so its bit moves exactly when `m` is the table written
    by_cases hmt : m = t ∧ Key.str mm.name = Key.str s
    · obtain ⟨rfl, hname⟩ := hmt
      have hname' : s = mm.name := (Key.str.inj hname).symm
      rw [if_pos ⟨hc, hname'⟩, if_pos ⟨rfl, hname⟩]
    · have hno : ¬((h.tables t).mtCache = some c ∧ s = mm.name) := by
        rintro ⟨hct, rfl⟩
        exact hmt ⟨hok.tables.cache_inj m t c hc hct, rfl⟩
      rw [if_neg hno, if_neg hmt]
      have hb : ((h'.setTable t d).mtCaches c).bits = (h.mtCaches c).bits := hext.bits c
      rw [hb]
      exact hok.bits m c hc mm
  · refine TableStore.ext ?_ ?_
    · funext t' k
      rw [TableStore.content_set]
      show ((h'.setTable t d).maybeUpdateMtBit t s v).content t' k = _
      rw [maybeUpdateMtBit_content]
      exact hcontent t' k
    · funext t'
      show (((h'.setTable t d).maybeUpdateMtBit t s v).tables t').metatable
        = (h.tables t').metatable
      rw [maybeUpdateMtBit_tables]
      by_cases ht : t' = t
      · subst ht
        simpa [Heap.setTable] using hmeta
      · simp [Heap.setTable, Function.update_of_ne ht, hext.tables]
  · intro t'
    unfold Heap.rawLen
    rw [maybeUpdateMtBit_tables]
    exact (rawLen_setTable hext t t' d).trans (by rw [harray]; rfl)
  · have hg : h'.Grows (h'.setTable t d) :=
      ⟨Nat.le_refl _, fun _ _ => SameLayout.refl _, rfl, rfl⟩
    exact (hext.grows.trans hg).trans (maybeUpdateMtBit_grows _ t s v)

/-- A write to any other key: only the array or the misc hash of the table changed. -/
theorem stored_other {h : Heap} (hok : HeapOk h) {t : TableId} {d : TableState} {k₀ : Key}
    {v : Value} (hshape : d.shape = (h.tables t).shape)
    (hprops : d.properties = (h.tables t).properties) (hdict : d.dict = (h.tables t).dict)
    (hmeta : d.metatable = (h.tables t).metatable) (hown : d.mtCache = (h.tables t).mtCache)
    (hk₀ : ∀ s, k₀ ≠ Key.str s) (hlen : d.array.length = lenAfter k₀ (h.rawLen t))
    (hd : ∀ k, d.content (h.shapeOf t) k = if k = k₀ then v else h.content t k) :
    h.Stored t k₀ v (h.setTable t d) := by
  have hext := Heap.Extends.refl h
  have hfit : TableFits h h t d := by
    refine ⟨?_, ?_, ?_, ?_, ?_, hown⟩
    · rw [hshape]; exact hok.tables.shape_lt t
    · rw [hprops, hshape]; exact hok.tables.length t
    · rw [hdict, hshape]; exact hok.tables.dict t
    · rw [hmeta, hshape]; exact hok.tables.cache t
    · rw [hmeta]; exact hok.tables.seeded t
  have hcontent : ∀ t' k, (h.setTable t d).content t' k =
      if t' = t ∧ k = k₀ then v else h.content t' k := by
    intro t' k
    rw [content_setTable hok.tables hext]
    by_cases ht : t' = t
    · subst ht
      rw [if_pos rfl, hshape]
      have := hd k
      simp only [true_and]
      exact this
    · simp [ht]
  refine ⟨⟨hok.shapes.setTable t d, hok.tables.setTable hext hfit, ?_⟩, ?_, ?_, ?_⟩
  · intro m c hc mm
    rw [tables_setTable_mtCache hext hown] at hc
    rw [hcontent, if_neg (fun he => hk₀ _ he.2.symm)]
    exact hok.bits m c hc mm
  · refine TableStore.ext ?_ ?_
    · funext t' k
      rw [TableStore.content_set]
      exact hcontent t' k
    · funext t'
      show ((h.setTable t d).tables t').metatable = (h.tables t').metatable
      by_cases ht : t' = t
      · subst ht
        simpa [Heap.setTable] using hmeta
      · simp [Heap.setTable, Function.update_of_ne ht]
  · intro t'
    rw [rawLen_setTable hext, hlen]
  · exact ⟨Nat.le_refl _, fun _ _ => SameLayout.refl _, rfl, rfl⟩

/-! ### The parts of a table -/

namespace TableState

/-- Storing nil under a name and removing it read the same. -/
theorem lookup_dictSet (d : AList fun _ : LuaString => Value) (key k : LuaString) (v : Value) :
    ((dictSet d key v).lookup k).getD Value.nil =
      if k = key then v else (d.lookup k).getD Value.nil := by
  unfold dictSet
  cases hl : d.lookup key with
  | some w =>
      by_cases hv : v.isNil = true
      · obtain rfl := (Value.isNil_iff v).1 hv
        by_cases hk : k = key
        · subst hk; simp [Value.isNil]
        · simp [Value.isNil, hk]
      · by_cases hk : k = key
        · subst hk; simp [hv]
        · simp [hv, hk]
  | none =>
      by_cases hv : v.isNil = true
      · obtain rfl := (Value.isNil_iff v).1 hv
        by_cases hk : k = key
        · subst hk; simp [Value.isNil, hl]
        · simp [Value.isNil, hk]
      · by_cases hk : k = key
        · subst hk; simp [hv]
        · simp [hv, hk]

theorem miscHashGet_miscHashSet (ts : TableState) (key k v : Value) :
    (ts.miscHashSet key v).miscHashGet k = if k = key then v else ts.miscHashGet k := by
  unfold miscHashSet miscHashGet
  cases hl : ts.miscHash.lookup key with
  | some w =>
      by_cases hv : v.isNil = true
      · obtain rfl := (Value.isNil_iff v).1 hv
        by_cases hk : k = key
        · subst hk; simp [Value.isNil]
        · simp [Value.isNil, hk]
      · by_cases hk : k = key
        · subst hk; simp [hv]
        · simp [hv, hk]
  | none =>
      by_cases hk : k = key
      · subst hk; simp
      · simp [hk]

theorem getD_arraySet (ts : TableState) {index : ℕ} (hpos : 0 < index) (v : Value) (i : ℕ) :
    (ts.arraySet index v).array.getD i Value.nil =
      if i = index - 1 then v else ts.array.getD i Value.nil := by
  have hgrown : ∀ j, (if ts.array.length < index then
      ts.array ++ List.replicate (index - ts.array.length) Value.nil else ts.array).getD j
        Value.nil = ts.array.getD j Value.nil := by
    intro j
    split
    · rename_i hlt
      by_cases hj : j < ts.array.length
      · simp [List.getD_eq_getElem?_getD, List.getElem?_append_left hj]
      · have hnone : ts.array[j]? = none := List.getElem?_eq_none (Nat.le_of_not_lt hj)
        simp only [List.getD_eq_getElem?_getD, hnone, Option.getD_none,
          List.getElem?_append_right (Nat.le_of_not_lt hj), List.getElem?_replicate]
        split <;> rfl
    · rfl
  have hlen : index - 1 < (if ts.array.length < index then
      ts.array ++ List.replicate (index - ts.array.length) Value.nil else ts.array).length := by
    split
    · simp only [List.length_append, List.length_replicate]; omega
    · omega
  unfold arraySet
  simp only
  by_cases hi : i = index - 1
  · subst hi
    rw [if_pos rfl, List.getD_eq_getElem?_getD, List.getElem?_set_self hlen]
    rfl
  · rw [if_neg hi, List.getD_eq_getElem?_getD, List.getElem?_set_ne (Ne.symm hi),
      ← List.getD_eq_getElem?_getD]
    exact hgrown i

/-- The dictionary a fold over descriptors builds: a key that a descriptor carries gets the value
of its slot, any other keeps what the accumulator had. -/
theorem lookup_foldl_toDict (props : List Value) (k : LuaString) (ds : List Descriptor)
    (hnd : (ds.map Descriptor.key).Nodup) (acc : AList fun _ : LuaString => Value)
    (hacc : ∀ desc ∈ ds, acc.lookup desc.key = none) :
    ((ds.foldl (fun d desc =>
        let v := props.getD desc.slot Value.nil
        if v.isNil then d else d.insert desc.key v) acc).lookup k).getD Value.nil =
      match ds.find? (fun desc => desc.key == k) with
      | some desc => props.getD desc.slot Value.nil
      | none => (acc.lookup k).getD Value.nil := by
  induction ds generalizing acc with
  | nil => rfl
  | cons desc ds ih =>
      rw [List.map_cons] at hnd
      obtain ⟨hdesc, hds⟩ := List.nodup_cons.1 hnd
      set v := props.getD desc.slot Value.nil with hv
      set acc' : AList fun _ : LuaString => Value :=
        if v.isNil then acc else acc.insert desc.key v with hacc'
      -- the keys still to come are not the one just written
      have hrest : ∀ e ∈ ds, acc'.lookup e.key = none := by
        intro e he
        have hne : e.key ≠ desc.key := fun heq =>
          hdesc (heq ▸ List.mem_map_of_mem he)
        rw [hacc']
        split
        · exact hacc e (List.mem_cons_of_mem _ he)
        · rw [AList.lookup_insert_ne hne]
          exact hacc e (List.mem_cons_of_mem _ he)
      rw [List.foldl_cons]
      refine (ih hds acc' hrest).trans ?_
      by_cases hk : desc.key = k
      · subst hk
        have hnone : ds.find? (fun e => e.key == desc.key) = none := by
          rw [List.find?_eq_none]
          intro e he heq
          exact hdesc (by simpa using ⟨e, he, by simpa using heq⟩)
        rw [hnone, List.find?_cons_of_pos (by simp)]
        simp only [hacc']
        by_cases hnil : v.isNil = true
        · rw [if_pos hnil, hacc desc List.mem_cons_self]
          exact ((Value.isNil_iff v).1 hnil).symm
        · rw [if_neg hnil, AList.lookup_insert]
          rfl
      · rw [List.find?_cons_of_neg (by simpa using hk)]
        have hsame : acc'.lookup k = acc.lookup k := by
          rw [hacc']
          split
          · rfl
          · exact AList.lookup_insert_ne (Ne.symm hk)
        rw [hsame]

/-- Moving the slots of a sound shape to a dictionary keeps what every string key reads. -/
theorem lookup_toDict {sd : ShapeData} (hsd : sd.Sound) (ts : TableState) (k : LuaString) :
    ((ts.toDict sd).lookup k).getD Value.nil =
      match sd.findSlot k with
      | some slot => ts.properties.getD slot Value.nil
      | none => Value.nil := by
  unfold toDict
  rw [lookup_foldl_toDict ts.properties k sd.descriptors hsd.nodup ∅
    (fun _ _ => AList.lookup_empty _)]
  unfold ShapeData.findSlot
  cases sd.descriptors.find? (fun desc => desc.key == k) <;> rfl

end TableState

/-! ### The operations -/

/-- Migration to dictionary mode changes nothing that can be read. -/
theorem migrateToDict_spec {h : Heap} (hok : HeapOk h) {t : TableId}
    (hfast : (h.tables t).dict = none) :
    HeapOk (h.migrateToDict t) ∧ (h.migrateToDict t).store = h.store ∧
      h.Grows (h.migrateToDict t) ∧ (∀ t', (h.migrateToDict t).rawLen t' = h.rawLen t') ∧
      ((h.migrateToDict t).tables t).dict.isSome = true := by
  obtain ⟨⟨hs', hext, hlt⟩, hsame⟩ :=
    dictSentinelOf_spec hok.shapes (h.shapes (h.tables t).shape).mtCache
  unfold Heap.migrateToDict
  set r := h.dictSentinelOf (h.shapes (h.tables t).shape).mtCache with hr
  set d : TableState :=
    { h.tables t with
      shape := r.1, properties := [], dict := some ((h.tables t).toDict (h.shapeOf t)) } with hd
  show HeapOk (r.2.setTable t d) ∧ (r.2.setTable t d).store = h.store ∧
    h.Grows (r.2.setTable t d) ∧ (∀ t', (r.2.setTable t d).rawLen t' = h.rawLen t') ∧
    ((r.2.setTable t d).tables t).dict.isSome = true
  have hfit : TableFits h r.2 t d :=
    ⟨hlt, hsame.slotCount.symm, hsame.isDict.symm, hsame.mtCache.trans (hok.tables.cache t),
      hok.tables.seeded t, rfl⟩
  have hdc : ∀ k, d.content (r.2.shapes d.shape) k = h.content t k := by
    intro k
    cases k with
    | str s =>
        have hl := TableState.lookup_toDict (hok.shapes.shape (h.tables t).shape) (h.tables t) s
        simp only [Heap.content, TableState.content, TableState.getStringKey, hfast]
        exact hl
    | pos i => rfl
    | misc v => rfl
  have hcontent : (r.2.setTable t d).content = h.content := by
    funext t' k
    rw [content_setTable hok.tables hext]
    by_cases ht : t' = t
    · rw [if_pos ht, hdc, ht]
    · rw [if_neg ht]
  refine ⟨⟨hs'.setTable t d, hok.tables.setTable hext hfit, ?_⟩, ?_, ?_, ?_, ?_⟩
  · intro m c hc mm
    rw [tables_setTable_mtCache hext hfit.own] at hc
    rw [hcontent]
    exact (congrFun (hext.bits c) mm).trans (hok.bits m c hc mm)
  · refine store_ext hcontent ?_
    intro t'
    by_cases ht : t' = t
    · subst ht
      simp [Heap.setTable, hd]
    · simp [Heap.setTable, Function.update_of_ne ht, hext.tables]
  · exact hext.grows.trans ⟨Nat.le_refl _, fun _ _ => SameLayout.refl _, rfl, rfl⟩
  · intro t'
    rw [rawLen_setTable hext]
    by_cases ht : t' = t
    · rw [if_pos ht, ht]; rfl
    · rw [if_neg ht]
  · simp [Heap.setTable, hd]

theorem setStringKeyDict_spec {h : Heap} (hok : HeapOk h) {t : TableId} (key : LuaString)
    (v : Value) (hdict : (h.tables t).dict.isSome = true) :
    h.Stored t (Key.str key) v (h.setStringKeyDict t key v) := by
  obtain ⟨dict, hdict'⟩ := Option.isSome_iff_exists.1 hdict
  unfold Heap.setStringKeyDict
  refine stored_string hok hok.shapes (Heap.Extends.refl h) ?_ rfl rfl ?_
  · refine ⟨hok.tables.shape_lt t, hok.tables.length t, ?_, hok.tables.cache t,
      hok.tables.seeded t, rfl⟩
    rw [Option.isSome_map]
    exact hok.tables.dict t
  · intro k
    cases k with
    | str s =>
        simp only [Heap.content, TableState.content, TableState.getStringKey, hdict',
          Option.map_some, TableState.lookup_dictSet, Key.str.injEq]
    | pos i => simp [Heap.content, TableState.content]
    | misc w => simp [Heap.content, TableState.content, TableState.miscHashGet]

/-- Migrate, then write the dictionary. -/
theorem migrateToDict_setStringKeyDict_spec {h : Heap} (hok : HeapOk h) {t : TableId}
    (key : LuaString) (v : Value) (hfast : (h.tables t).dict = none) :
    h.Stored t (Key.str key) v ((h.migrateToDict t).setStringKeyDict t key v) := by
  obtain ⟨hok', hstore, hgrows, hlen, hdict⟩ := migrateToDict_spec hok hfast
  obtain ⟨hok'', hstore', hlen', hgrows'⟩ := setStringKeyDict_spec hok' key v hdict
  refine ⟨hok'', by rw [hstore', hstore], ?_, hgrows.trans hgrows'⟩
  intro t'
  rw [hlen', hlen, hlen]

/-- Overwriting the slot a key has. -/
theorem content_set_slot {h : Heap} (hok : HeapOk h) {t : TableId} {key : LuaString} {slot : ℕ}
    (v : Value) (hfast : (h.tables t).dict = none)
    (hslot : (h.shapeOf t).findSlot key = some slot) (k : Key) :
    TableState.content
        { h.tables t with properties := (h.tables t).properties.set slot v } (h.shapeOf t) k =
      if k = Key.str key then v else h.content t k := by
  have hsound := hok.shapes.shape (h.tables t).shape
  cases k with
  | pos i => simp [Heap.content, TableState.content]
  | misc w => simp [Heap.content, TableState.content, TableState.miscHashGet]
  | str s =>
      simp only [Heap.content, TableState.content, TableState.getStringKey, hfast, Key.str.injEq]
      by_cases hs : s = key
      · subst hs
        have hlt : slot < (h.tables t).properties.length := by
          rw [hok.tables.length t]; exact hsound.findSlot_lt hslot
        rw [if_pos rfl, hslot]
        simp [List.getD_eq_getElem?_getD, List.getElem?_set_self hlt]
      · rw [if_neg hs]
        cases hk : (h.shapeOf t).findSlot s with
        | none => rfl
        | some j =>
            -- another key has another slot
            have hne : slot ≠ j := by
              rintro rfl
              exact hs (hsound.findSlot_inj hk hslot)
            simp [List.getD_eq_getElem?_getD, List.getElem?_set_ne hne]

/-- The slot write of an existing key, with its metamethod bit. -/
theorem stored_slot {h : Heap} (hok : HeapOk h) {t : TableId} {key : LuaString} {slot : ℕ}
    (v : Value) (hfast : (h.tables t).dict = none)
    (hslot : (h.shapeOf t).findSlot key = some slot) :
    h.Stored t (Key.str key) v
      ((h.setTable t
        { h.tables t with properties := (h.tables t).properties.set slot v }).maybeUpdateMtBit
        t key v) := by
  refine stored_string hok hok.shapes (Heap.Extends.refl h) ?_ rfl rfl
    (content_set_slot hok v hfast hslot)
  refine ⟨hok.tables.shape_lt t, ?_, hok.tables.dict t, hok.tables.cache t,
    hok.tables.seeded t, rfl⟩
  rw [List.length_set]
  exact hok.tables.length t

/-- A new property: the shape gains the key, the property vector the value. -/
theorem stored_transition {h : Heap} (hok : HeapOk h) {t : TableId} {key : LuaString} (v : Value)
    (hfast : (h.tables t).dict = none) (hslot : (h.shapeOf t).findSlot key = none)
    (hroom : (h.shapeOf t).slotCount < maxPropertiesFast) :
    h.Stored t (Key.str key) v
      (((h.transitionAddProp (h.tables t).shape key).2.setTable t
        { h.tables t with
          shape := (h.transitionAddProp (h.tables t).shape key).1,
          properties := (h.tables t).properties ++ [v] }).maybeUpdateMtBit t key v) := by
  obtain ⟨⟨hs', hext, hlt⟩, hadd⟩ :=
    transitionAddProp_spec hok.shapes (hok.tables.shape_lt t) hslot hroom
  refine stored_string hok hs' hext ?_ rfl rfl ?_
  · refine ⟨hlt, ?_, ?_, hadd.mtCache.trans (hok.tables.cache t), hok.tables.seeded t, rfl⟩
    · rw [hadd.slotCount, List.length_append, List.length_singleton, hok.tables.length t]
      rfl
    · rw [hadd.isDict]
      simp [hfast]
  · intro k
    have hlen := hok.tables.length t
    cases k with
    | pos i => simp [Heap.content, TableState.content]
    | misc w => simp [Heap.content, TableState.content, TableState.miscHashGet]
    | str s =>
        simp only [Heap.content, TableState.content, TableState.getStringKey, hfast,
          Key.str.injEq]
        by_cases hs : s = key
        · subst hs
          rw [if_pos rfl, hadd.findSlot_self hslot]
          show ((h.tables t).properties ++ [v]).getD (h.shapeOf t).slotCount Value.nil = v
          rw [← hlen]
          simp [List.getD_eq_getElem?_getD]
        · rw [if_neg hs, hadd.findSlot_of_ne hs]
          change (match (h.shapeOf t).findSlot s with
            | some slot => ((h.tables t).properties ++ [v]).getD slot Value.nil
            | none => Value.nil) = _
          cases hk : (h.shapeOf t).findSlot s with
          | none => rfl
          | some j =>
              have hj : j < (h.tables t).properties.length := by
                rw [hlen]
                exact (hok.shapes.shape (h.tables t).shape).findSlot_lt hk
              simp [List.getD_eq_getElem?_getD, List.getElem?_append_left hj]

theorem setStringKey_spec {h : Heap} (hok : HeapOk h) (t : TableId) (key : LuaString)
    (v : Value) : h.Stored t (Key.str key) v (h.setStringKey t key v) := by
  unfold Heap.setStringKey
  simp only
  split
  case isTrue hdict => exact setStringKeyDict_spec hok key v hdict
  case isFalse hdict =>
    have hfast : (h.tables t).dict = none := by simpa using hdict
    split
    case h_1 slot hslot =>
      split
      · exact migrateToDict_setStringKeyDict_spec hok key v hfast
      · exact stored_slot hok v hfast hslot
    case h_2 hslot =>
      split
      · exact migrateToDict_setStringKeyDict_spec hok key v hfast
      · rename_i hroom
        exact stored_transition hok v hfast hslot (Nat.lt_of_not_le hroom)

/-- **`raw_set` is the store's update**, for every key but nil. -/
theorem rawSet_spec {h h' : Heap} (hok : HeapOk h) {t : TableId} {key v : Value}
    (hset : h.rawSet t key v = some h') : h.Stored t (keyOf key) v h' := by
  unfold Heap.rawSet at hset
  split at hset
  case h_1 s =>
    obtain rfl := Option.some.inj hset
    exact setStringKey_spec hok t s v
  case h_2 hs =>
    split at hset
    case h_1 index hindex =>
      obtain rfl := Option.some.inj hset
      rw [keyOf_of_arrayIndex_some hindex]
      refine stored_other hok rfl rfl rfl rfl rfl (fun _ => by simp) ?_ ?_
      · have hpos := arrayIndex_pos hindex
        show (TableState.arraySet _ _ _).array.length = max _ _
        unfold TableState.arraySet Heap.rawLen
        simp only [List.length_set]
        split
        · simp only [List.length_append, List.length_replicate]; omega
        · omega
      intro k
      cases k with
      | str s => simp [Heap.content, TableState.content, TableState.arraySet,
          TableState.getStringKey]
      | pos i =>
          simp only [Key.pos.injEq]
          exact TableState.getD_arraySet (h.tables t) (arrayIndex_pos hindex) v i
      | misc w => simp [Heap.content, TableState.content, TableState.arraySet,
          TableState.miscHashGet]
    case h_2 hindex =>
      split at hset
      · exact absurd hset (by simp)
      · obtain rfl := Option.some.inj hset
        rw [keyOf_of_arrayIndex_none hs hindex]
        have hframe : ∀ ts : TableState, ∃ m,
            ts.miscHashSet key v = { ts with miscHash := m } := by
          intro ts
          unfold TableState.miscHashSet
          split
          · split <;> exact ⟨_, rfl⟩
          · exact ⟨_, rfl⟩
        obtain ⟨m, hm⟩ := hframe (h.tables t)
        refine stored_other hok (by rw [hm]) (by rw [hm]) (by rw [hm]) (by rw [hm]) (by rw [hm])
          (fun _ => by simp) (by rw [hm]; rfl) ?_
        intro k
        cases k with
        | str s => simp [hm, Heap.content, TableState.content, TableState.getStringKey]
        | pos i => simp [hm, Heap.content, TableState.content]
        | misc w =>
            simp only [Key.misc.injEq]
            exact TableState.miscHashGet_miscHashSet (h.tables t) key w v

/-! ### Metatables -/

/-- Seeding a table's own cache changes nothing else. -/
structure Heap.Seeded (h : Heap) (t : TableId) (r : MtCacheId × Heap) : Prop where
  ok : HeapOk r.2
  store : r.2.store = h.store
  grows : h.Grows r.2
  len : ∀ t', r.2.rawLen t' = h.rawLen t'
  shape : ∀ t', (r.2.tables t').shape = (h.tables t').shape
  own : (r.2.tables t).mtCache = some r.1

theorem ensureMtCache_spec {h : Heap} (hok : HeapOk h) (t : TableId) :
    h.Seeded t (h.ensureMtCache t) := by
  unfold Heap.ensureMtCache
  split
  case h_1 c hc => exact ⟨hok, rfl, Heap.Grows.refl h, fun _ => rfl, fun _ => rfl, hc⟩
  case h_2 hc =>
    set bits : Metamethod → Bool := fun mm => !(h.rawGet t (Value.string mm.name)).isNil with hbits
    set h' := (h.allocMtCache bits).2.setTable t
      { h.tables t with mtCache := some h.nextMtCache } with hh'
    show h.Seeded t (h.nextMtCache, h')
    have hself : h'.tables t = { h.tables t with mtCache := some h.nextMtCache } := by
      simp [hh', Heap.setTable]
    have hold : ∀ t', t' ≠ t → h'.tables t' = h.tables t' := by
      intro t' ht
      simp [hh', Heap.setTable, Function.update_of_ne ht, Heap.allocMtCache, Heap.setMtCache]
    have hshape : ∀ t', (h'.tables t').shape = (h.tables t').shape := by
      intro t'
      by_cases ht : t' = t
      · rw [ht, hself]
      · rw [hold t' ht]
    have hmeta : ∀ t', (h'.tables t').metatable = (h.tables t').metatable := by
      intro t'
      by_cases ht : t' = t
      · rw [ht, hself]
      · rw [hold t' ht]
    have hcontent : h'.content = h.content := by
      funext t' k
      by_cases ht : t' = t
      · subst ht
        unfold Heap.content Heap.shapeOf
        rw [hself]
        cases k <;> rfl
      · unfold Heap.content Heap.shapeOf
        rw [hold t' ht]
        rfl
    -- nothing has `t` as its metatable: such a table would have seeded the cache already
    have hunused : ∀ t' m, (h.tables t').metatable = some m → m ≠ t := by
      rintro t' m hm rfl
      have := hok.tables.seeded t' m hm
      rw [hc] at this
      exact absurd this (by simp)
    have hown : ∀ t' c, (h'.tables t').mtCache = some c →
        (t' = t ∧ c = h.nextMtCache) ∨ (t' ≠ t ∧ (h.tables t').mtCache = some c) := by
      intro t' c hc'
      by_cases ht : t' = t
      · rw [ht, hself] at hc'
        exact Or.inl ⟨ht, (Option.some.inj hc').symm⟩
      · rw [hold t' ht] at hc'
        exact Or.inr ⟨ht, hc'⟩
    have hshapeOf : ∀ t', h'.shapeOf t' = h.shapeOf t' := by
      intro t'
      unfold Heap.shapeOf
      rw [hshape]
      rfl
    refine ⟨⟨?_, ⟨?_, ?_, ?_, ?_, ?_, ?_, ?_⟩, ?_⟩, store_ext hcontent hmeta, ?_, ?_, hshape, ?_⟩
    · refine ShapesSound.setTable ?_ t _
      refine ⟨hok.shapes.shape, hok.shapes.emptyShape_lt, hok.shapes.emptyShape,
        hok.shapes.emptyDict_lt, hok.shapes.emptyDict, hok.shapes.propEdge, hok.shapes.mtEdge, ?_⟩
      intro c s hs
      by_cases hcc : c = h.nextMtCache
      · subst hcc
        simp [Heap.allocMtCache, Heap.setMtCache] at hs
      · simp only [Heap.allocMtCache, Heap.setMtCache, Function.update_of_ne hcc] at hs
        exact hok.shapes.sentinel c s hs
    · intro t'
      rw [hshape]
      exact hok.tables.shape_lt t'
    · intro t'
      rw [hshapeOf, ← hok.tables.length t']
      by_cases ht : t' = t
      · rw [ht, hself]
      · rw [hold t' ht]
    · intro t'
      rw [hshapeOf, ← hok.tables.dict t']
      by_cases ht : t' = t
      · rw [ht, hself]
      · rw [hold t' ht]
    · intro t'
      rw [hshapeOf, hmeta, hok.tables.cache t']
      cases hm : (h.tables t').metatable with
      | none => rfl
      | some m =>
          rw [Option.bind_some, Option.bind_some, hold m (hunused t' m hm)]
    · intro t' m hm
      rw [hmeta] at hm
      rw [hold m (hunused t' m hm)]
      exact hok.tables.seeded t' m hm
    · intro t' c hc'
      rcases hown t' c hc' with ⟨-, rfl⟩ | ⟨-, hc'⟩
      · exact Nat.lt_succ_self _
      · exact Nat.lt_succ_of_lt (hok.tables.cache_lt t' c hc')
    · intro t₁ t₂ c h₁ h₂
      rcases hown t₁ c h₁ with ⟨ht₁, hc₁⟩ | ⟨-, h₁⟩
      · rcases hown t₂ c h₂ with ⟨ht₂, -⟩ | ⟨-, h₂⟩
        · rw [ht₁, ht₂]
        · exact absurd hc₁ (Nat.ne_of_lt (hok.tables.cache_lt t₂ c h₂))
      · rcases hown t₂ c h₂ with ⟨-, hc₂⟩ | ⟨-, h₂⟩
        · exact absurd hc₂ (Nat.ne_of_lt (hok.tables.cache_lt t₁ c h₁))
        · exact hok.tables.cache_inj t₁ t₂ c h₁ h₂
    · intro m c hc' mm
      rw [hcontent]
      rcases hown m c hc' with ⟨rfl, rfl⟩ | ⟨-, hc'⟩
      · simp [hh', Heap.setTable, Heap.allocMtCache, Heap.setMtCache, hbits, Heap.rawGet_string]
      · have hne : c ≠ h.nextMtCache := Nat.ne_of_lt (hok.tables.cache_lt m c hc')
        have hsame : (h'.mtCaches c).bits = (h.mtCaches c).bits := by
          simp [hh', Heap.setTable, Heap.allocMtCache, Heap.setMtCache,
            Function.update_of_ne hne]
        rw [hsame]
        exact hok.bits m c hc' mm
    · exact ⟨Nat.le_refl _, fun _ _ => SameLayout.refl _, rfl, rfl⟩
    · intro t'
      unfold Heap.rawLen
      by_cases ht : t' = t
      · rw [ht, hself]
      · rw [hold t' ht]
    · rw [hself]

theorem metatableCache_spec {h : Heap} (hok : HeapOk h) (mt : Option TableId) :
    HeapOk (h.metatableCache mt).2 ∧ (h.metatableCache mt).2.store = h.store ∧
      h.Grows (h.metatableCache mt).2 ∧
      (∀ t', (h.metatableCache mt).2.rawLen t' = h.rawLen t') ∧
      (h.metatableCache mt).1 = (mt.bind fun m => ((h.metatableCache mt).2.tables m).mtCache) ∧
      ∀ m, mt = some m → (((h.metatableCache mt).2.tables m).mtCache).isSome = true := by
  cases mt with
  | none => exact ⟨hok, rfl, Heap.Grows.refl h, fun _ => rfl, rfl, by simp⟩
  | some m =>
      have hs := ensureMtCache_spec hok m
      refine ⟨hs.ok, hs.store, hs.grows, hs.len, hs.own.symm, ?_⟩
      intro m' hm
      obtain rfl := Option.some.inj hm
      show ((h.ensureMtCache m).2.tables m).mtCache.isSome = true
      rw [hs.own]
      rfl

/-- **`set_metatable` replaces the metatable of the store**, and the contents stay. -/
theorem setMetatable_spec {h : Heap} (hok : HeapOk h) (t : TableId) (mt : Option TableId) :
    HeapOk (h.setMetatable t mt) ∧ (h.setMetatable t mt).store = h.store.setMetatable t mt ∧
      h.Grows (h.setMetatable t mt) ∧ ∀ t', (h.setMetatable t mt).rawLen t' = h.rawLen t' := by
  obtain ⟨hok₁, hstore₁, hgrows₁, hlen₁, hcache, hseeded⟩ := metatableCache_spec hok mt
  unfold Heap.setMetatable
  set r := h.metatableCache mt with hr
  obtain ⟨⟨hs₂, hext, hlt⟩, hres⟩ :=
    transitionSetMetatable_spec hok₁.shapes r.1 (hok₁.tables.shape_lt t)
  simp only
  set s := r.2.transitionSetMetatable (r.2.tables t).shape r.1 with hs
  rw [hext.tables]
  have hfit : TableFits r.2 s.2 t { r.2.tables t with shape := s.1, metatable := mt } := by
    refine ⟨hlt, ?_, ?_, ?_, hseeded, rfl⟩
    · rw [hres.slotCount]; exact hok₁.tables.length t
    · rw [hres.isDict]; exact hok₁.tables.dict t
    · rw [hres.mtCache]; exact hcache
  have hown := tables_setTable_mtCache hext hfit.own
  have hcontent : (s.2.setTable t { r.2.tables t with shape := s.1, metatable := mt }).content =
      h.content := by
    have hc : r.2.content = h.content := congrArg TableStore.content hstore₁
    rw [← hc]
    funext t' k
    rw [content_setTable hok₁.tables hext]
    by_cases ht : t' = t
    · subst ht
      rw [if_pos rfl]
      cases k with
      | str key =>
          simp only [Heap.content, TableState.content, TableState.getStringKey, hres.findSlot]
          rfl
      | pos i => rfl
      | misc v => rfl
    · rw [if_neg ht]
  refine ⟨⟨hs₂.setTable t _, hok₁.tables.setTable hext hfit, ?_⟩, ?_, ?_, ?_⟩
  · intro m c hc mm
    rw [hown] at hc
    have hc₁ : h.content = r.2.content := (congrArg TableStore.content hstore₁).symm
    rw [hcontent, hc₁]
    exact (congrFun (hext.bits c) mm).trans (hok₁.bits m c hc mm)
  · refine TableStore.ext hcontent ?_
    funext t'
    rw [TableStore.metatable_setMetatable]
    show ((s.2.setTable t { r.2.tables t with shape := s.1, metatable := mt }).tables t').metatable
      = _
    by_cases ht : t' = t
    · subst ht
      simp [Heap.setTable]
    · rw [if_neg ht, ← hstore₁]
      simp [Heap.setTable, Function.update_of_ne ht, hext.tables, Heap.store]
  · exact (hgrows₁.trans hext.grows).trans
      ⟨Nat.le_refl _, fun _ _ => SameLayout.refl _, rfl, rfl⟩
  · intro t'
    rw [rawLen_setTable hext, ← hlen₁ t']
    by_cases ht : t' = t
    · rw [if_pos ht, ht]; rfl
    · rw [if_neg ht]

end Tcvm
