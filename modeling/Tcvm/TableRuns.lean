/-
# Runs of table operations

After any operations on tables, through the inline caches or not, every table agrees with its
shape, and the metamethod bits of a table that has been adopted as a metatable say which
metamethod names it holds.

## Main definitions

* `TableLayout` — a table agrees with the shape it is at;
* `KeepsCaches` — a table that has a metamethod cache keeps it.

## Main results

* `run_presents` — the invariant of the heap and the caches along a run;
* `step_keepsCaches`, `run_adopted` — a table that has been adopted keeps its cache;
* **`tables_agree_with_shapes`** — the layout of every table;
* **`metamethod_bits_exact`** — the bits of every adopted table.
-/

import Tcvm.InlineCache

namespace Tcvm

/-! ### Layouts -/

/-- A table agrees with the shape it is at. -/
structure TableLayout (h : Heap) (t : TableId) : Prop where
  /-- The keys are pairwise distinct. -/
  keys : ((h.shapeOf t).descriptors.map Descriptor.key).Nodup
  /-- The descriptor at position `i` has slot `i`. -/
  slots : ∀ i (d : Descriptor), (h.shapeOf t).descriptors[i]? = some d → d.slot = i
  count : (h.shapeOf t).slotCount = (h.shapeOf t).descriptors.length
  properties : (h.tables t).properties.length = (h.shapeOf t).slotCount
  /-- A table has a dictionary exactly when its shape is a dictionary shape. -/
  dict : (h.tables t).dict.isSome = true ↔ (h.shapeOf t).isDict = true
  dictEmpty : (h.shapeOf t).isDict = true → (h.tables t).properties = []
  /-- The shape carries the cache of the metatable. -/
  cache : (h.shapeOf t).mtCache = (h.tables t).metatable.bind fun m => (h.tables m).mtCache
  noCache : (h.shapeOf t).mtCache = none ↔ (h.tables t).metatable = none

theorem HeapOk.layout {h : Heap} (hok : HeapOk h) (t : TableId) : TableLayout h t := by
  have hsound : (h.shapeOf t).Sound := hok.shapes.shape (h.tables t).shape
  have hlength : (h.tables t).properties.length = (h.shapeOf t).slotCount := hok.tables.length t
  refine ⟨hsound.nodup, fun i d hd => ?_, hsound.length.symm, hlength, ?_, fun hdict => ?_,
    hok.tables.cache t, ?_⟩
  · have hslot : ((h.shapeOf t).descriptors.map Descriptor.slot)[i]? = some d.slot := by
      rw [List.getElem?_map, hd]
      rfl
    have hrange : (List.range (h.shapeOf t).slotCount)[i]? = some d.slot := by
      rw [← hsound.slots]
      exact hslot
    have hlt : i < (h.shapeOf t).slotCount := by
      have hlen := (List.getElem?_eq_some_iff.1 hrange).1
      rwa [List.length_range] at hlen
    rw [List.getElem?_range hlt] at hrange
    exact (Option.some.inj hrange).symm
  · rw [hok.tables.dict t]
  · rw [hsound.dict hdict] at hlength
    exact List.length_eq_zero_iff.1 hlength
  · rw [hok.tables.cache t]
    cases hm : (h.tables t).metatable with
    | none => exact ⟨fun _ => rfl, fun _ => rfl⟩
    | some m =>
        have hseeded := hok.tables.seeded t m hm
        refine ⟨fun hnone => ?_, fun hnone => absurd hnone (by simp)⟩
        rw [Option.bind_some] at hnone
        rw [hnone] at hseeded
        exact absurd hseeded (by simp)

/-! ### Adopted tables -/

/-- A table that has a metamethod cache keeps it. -/
def KeepsCaches (h h' : Heap) : Prop :=
  ∀ t c, (h.tables t).mtCache = some c → (h'.tables t).mtCache = some c

namespace KeepsCaches

theorem refl (h : Heap) : KeepsCaches h h := fun _ _ hc => hc

theorem trans {a b c : Heap} (h : KeepsCaches a b) (h' : KeepsCaches b c) : KeepsCaches a c :=
  fun t x hx => h' t x (h t x hx)

theorem of_tables {h h' : Heap} (heq : h'.tables = h.tables) : KeepsCaches h h' := by
  intro t c hc
  rw [heq]
  exact hc

/-- A table is replaced by one with the same cache. -/
theorem setTable (h : Heap) {t : TableId} {d : TableState}
    (hown : d.mtCache = (h.tables t).mtCache) : KeepsCaches h (h.setTable t d) := by
  intro t' c hc
  by_cases ht : t' = t
  · subst ht
    simp only [Heap.setTable, Function.update_self]
    rw [hown]
    exact hc
  · simp only [Heap.setTable, Function.update_of_ne ht]
    exact hc

end KeepsCaches

theorem tables_transitionAddProp (h : Heap) (s : ShapeId) (key : LuaString) :
    (h.transitionAddProp s key).2.tables = h.tables := by
  unfold Heap.transitionAddProp
  split
  · rfl
  · rfl

theorem tables_dictSentinelOf (h : Heap) (c : Option MtCacheId) :
    (h.dictSentinelOf c).2.tables = h.tables := by
  cases c with
  | none => rfl
  | some c =>
      show (h.ensureDictSentinel c).2.tables = h.tables
      unfold Heap.ensureDictSentinel
      split
      · rfl
      · rfl

theorem tables_transitionSetMetatable (h : Heap) (s : ShapeId) (c : Option MtCacheId) :
    (h.transitionSetMetatable s c).2.tables = h.tables := by
  unfold Heap.transitionSetMetatable
  split
  · exact tables_dictSentinelOf h c
  · split
    · rfl
    · rfl

section Writes

variable (h : Heap) (t : TableId)

theorem maybeUpdateMtBit_keepsCaches (key : LuaString) (v : Value) :
    KeepsCaches h (h.maybeUpdateMtBit t key v) :=
  KeepsCaches.of_tables (maybeUpdateMtBit_tables h t key v)

/-- A table is replaced by one with the same cache, and the write is mirrored. -/
theorem write_keepsCaches {d : TableState} (key : LuaString) (v : Value)
    (hown : d.mtCache = (h.tables t).mtCache) :
    KeepsCaches h ((h.setTable t d).maybeUpdateMtBit t key v) :=
  (KeepsCaches.setTable h hown).trans (maybeUpdateMtBit_keepsCaches _ t key v)

theorem migrateToDict_keepsCaches : KeepsCaches h (h.migrateToDict t) := by
  have htables := tables_dictSentinelOf h (h.shapes (h.tables t).shape).mtCache
  unfold Heap.migrateToDict
  refine (KeepsCaches.of_tables htables).trans (KeepsCaches.setTable _ ?_)
  rw [htables]

theorem setStringKeyDict_keepsCaches (key : LuaString) (v : Value) :
    KeepsCaches h (h.setStringKeyDict t key v) := by
  unfold Heap.setStringKeyDict
  apply write_keepsCaches
  rfl

theorem setStringKey_keepsCaches (key : LuaString) (v : Value) :
    KeepsCaches h (h.setStringKey t key v) := by
  have hmigrate : KeepsCaches h ((h.migrateToDict t).setStringKeyDict t key v) :=
    (migrateToDict_keepsCaches h t).trans (setStringKeyDict_keepsCaches _ t key v)
  unfold Heap.setStringKey
  simp only
  split
  · exact setStringKeyDict_keepsCaches h t key v
  · split
    · split
      · exact hmigrate
      · apply write_keepsCaches
        rfl
    · split
      · exact hmigrate
      · have htables := tables_transitionAddProp h (h.tables t).shape key
        refine ((KeepsCaches.of_tables htables).trans (KeepsCaches.setTable _ ?_)).trans
          (maybeUpdateMtBit_keepsCaches _ t key v)
        rw [htables]

theorem mtCache_miscHashSet (ts : TableState) (key v : Value) :
    (ts.miscHashSet key v).mtCache = ts.mtCache := by
  unfold TableState.miscHashSet
  split
  · split
    · rfl
    · rfl
  · rfl

theorem rawSetOp_keepsCaches (key v : Value) : KeepsCaches h (h.rawSetOp t key v).1 := by
  unfold Heap.rawSetOp
  split
  · next h' hset =>
      unfold Heap.rawSet at hset
      split at hset
      · rw [← Option.some.inj hset]
        exact setStringKey_keepsCaches h t _ v
      · split at hset
        · rw [← Option.some.inj hset]
          exact KeepsCaches.setTable h rfl
        · split at hset
          · exact absurd hset (by simp)
          · rw [← Option.some.inj hset]
            exact KeepsCaches.setTable h (mtCache_miscHashSet _ _ v)
  · exact KeepsCaches.refl h

theorem tableSetSlow_keepsCaches (key v : Value) : KeepsCaches h (h.tableSetSlow t key v).1 := by
  unfold Heap.tableSetSlow
  split
  · exact rawSetOp_keepsCaches h _ key v
  · exact KeepsCaches.refl h
  · exact KeepsCaches.refl h

/-- Seeding a cache keeps the caches that exist, and makes one. -/
theorem ensureMtCache_keepsCaches :
    KeepsCaches h (h.ensureMtCache t).2 ∧
      ((h.ensureMtCache t).2.tables t).mtCache.isSome = true := by
  unfold Heap.ensureMtCache
  split
  · next c hc =>
      refine ⟨KeepsCaches.refl h, ?_⟩
      simp only [hc, Option.isSome_some]
  · next hnone =>
      refine ⟨fun t' c hc => ?_, ?_⟩
      · by_cases ht : t' = t
        · subst ht
          exact absurd (hnone.symm.trans hc) (by simp)
        · simp only [Heap.setTable, Function.update_of_ne ht]
          exact hc
      · simp only [Heap.setTable, Function.update_self, Option.isSome_some]

/-- A metatable is adopted. -/
theorem setMetatable_keepsCaches (mt : Option TableId) :
    KeepsCaches h (h.setMetatable t mt) ∧
      ∀ m, mt = some m → ((h.setMetatable t mt).tables m).mtCache.isSome = true := by
  have hcached : KeepsCaches h (h.metatableCache mt).2 ∧
      ∀ m, mt = some m → ((h.metatableCache mt).2.tables m).mtCache.isSome = true := by
    cases mt with
    | none => exact ⟨KeepsCaches.refl h, fun m hm => absurd hm (by simp)⟩
    | some m =>
        obtain ⟨hkeeps, hsome⟩ := ensureMtCache_keepsCaches h m
        refine ⟨hkeeps, fun m' hm' => ?_⟩
        obtain rfl := Option.some.inj hm'
        exact hsome
  obtain ⟨hkeeps, hsome⟩ := hcached
  have hset : KeepsCaches (h.metatableCache mt).2 (h.setMetatable t mt) := by
    have htables := tables_transitionSetMetatable (h.metatableCache mt).2
      ((h.metatableCache mt).2.tables t).shape (h.metatableCache mt).1
    unfold Heap.setMetatable
    refine (KeepsCaches.of_tables htables).trans (KeepsCaches.setTable _ ?_)
    rfl
  refine ⟨hkeeps.trans hset, fun m hm => ?_⟩
  obtain ⟨c, hc⟩ := Option.isSome_iff_exists.1 (hsome m hm)
  rw [hset m c hc]
  rfl

end Writes

/-! ### Runs -/

section Runs

variable {ι : Type*} [DecidableEq ι] {keyAt : ι → LuaString}

variable (keyAt) in
/-- **An operation** keeps every cache, and a metatable that is set has one. -/
theorem step_keepsCaches (vm : Vm ι) (op : Op ι) :
    KeepsCaches vm.heap (cachedStep keyAt vm op).1.heap ∧
      ∀ t m, op = Op.setMetatable t (some m) →
        ((cachedStep keyAt vm op).1.heap.tables m).mtCache.isSome = true := by
  have hget : ∀ ic t, KeepsCaches vm.heap (vm.cachedGet keyAt ic t).1.heap := by
    intro ic t
    unfold Vm.cachedGet
    split
    · exact KeepsCaches.refl _
    · exact KeepsCaches.refl _
  have hset : ∀ ic t v, KeepsCaches vm.heap (vm.cachedSet keyAt ic t v).1.heap := by
    intro ic t v
    unfold Vm.cachedSet
    split
    · apply write_keepsCaches
      rfl
    · exact tableSetSlow_keepsCaches vm.heap t _ v
  cases op with
  | rawSet t key v =>
      exact ⟨rawSetOp_keepsCaches vm.heap t key v, fun _ _ hop => absurd hop (by simp)⟩
  | setMetatable t mt =>
      obtain ⟨hkeeps, hsome⟩ := setMetatable_keepsCaches vm.heap t mt
      refine ⟨hkeeps, fun t' m hop => ?_⟩
      obtain ⟨rfl, rfl⟩ := Op.setMetatable.inj hop
      exact hsome m rfl
  | setUserdataMetatable u mt =>
      exact ⟨KeepsCaches.refl _, fun _ _ hop => absurd hop (by simp)⟩
  | getfield ic recv =>
      refine ⟨?_, fun _ _ hop => absurd hop (by simp)⟩
      simp only [cachedStep, Vm.opGetfield]
      split
      · exact hget ic _
      · split
        · exact KeepsCaches.refl _
        · exact KeepsCaches.refl _
  | setfield ic recv v =>
      refine ⟨?_, fun _ _ hop => absurd hop (by simp)⟩
      simp only [cachedStep, Vm.opSetfield]
      split
      · exact hset ic _ v
      · exact KeepsCaches.refl _
  | gettabup ic upvalue =>
      refine ⟨?_, fun _ _ hop => absurd hop (by simp)⟩
      simp only [cachedStep, Vm.opGettabup]
      split
      · exact hget ic _
      · exact KeepsCaches.refl _
  | settabup ic upvalue v =>
      refine ⟨?_, fun _ _ hop => absurd hop (by simp)⟩
      simp only [cachedStep, Vm.opSettabup]
      split
      · exact hset ic _ v
      · exact KeepsCaches.refl _

/-- **A table that has been adopted** as a metatable keeps its cache. -/
theorem run_adopted (vm : Vm ι) (is : List (Input ι)) :
    KeepsCaches vm.heap ((cachedMachine keyAt).run vm is).1.heap ∧
      ∀ t m, Op.setMetatable t (some m) ∈ is.map Prod.snd →
        (((cachedMachine keyAt).run vm is).1.heap.tables m).mtCache.isSome = true := by
  induction is generalizing vm with
  | nil => exact ⟨KeepsCaches.refl _, fun t m hmem => absurd hmem List.not_mem_nil⟩
  | cons i is ih =>
      obtain ⟨hfirst, hset⟩ :=
        step_keepsCaches keyAt { vm with heap := vm.heap.collect i.1 } i.2
      obtain ⟨hrest, hlater⟩ := ih ((cachedMachine keyAt).step vm i).1
      have hcollect : KeepsCaches vm.heap (vm.heap.collect i.1) := KeepsCaches.of_tables rfl
      refine ⟨(hcollect.trans hfirst).trans hrest, fun t m hmem => ?_⟩
      rcases List.mem_cons.1 hmem with heq | hmem
      · obtain ⟨c, hc⟩ := Option.isSome_iff_exists.1 (hset t m heq.symm)
        rw [Machine.run_cons, hrest m c hc]
        rfl
      · exact hlater t m hmem

variable (keyAt) in
/-- The heap and the caches are right after every run. -/
theorem run_presents (ops : List (Op ι)) (gc : ℕ → ShapeId → Bool) :
    HeapOk ((cachedMachine keyAt).run (Vm.boot ι) (schedule gc ops)).1.heap := by
  have hboot : CachedPresents keyAt (Vm.boot ι) Heap.boot.world :=
    ⟨⟨heapOk_boot, rfl⟩, fun _ _ _ hic => by simp [Vm.boot] at hic⟩
  exact ((cachedMachine_simulation keyAt).run hboot (schedule gc ops)).1.1.1

/-- **Tables agree with their shapes**, after any operations on any tables and whatever the
collector reclaims. -/
theorem tables_agree_with_shapes (keyAt : ι → LuaString) (ops : List (Op ι))
    (gc : ℕ → ShapeId → Bool) (t : TableId) :
    TableLayout ((cachedMachine keyAt).run (Vm.boot ι) (schedule gc ops)).1.heap t :=
  (run_presents keyAt ops gc).layout t

/-- The metamethod tests of a heap are exact: of every metatable, through the shapes of its
tables, and of its own cache. -/
structure MetamethodsExact (h : Heap) : Prop where
  /-- A bit is set exactly when the name is present. -/
  bits : ∀ m c mm, (h.tables m).mtCache = some c →
    ((h.mtCaches c).bits mm = true ↔ h.rawGet m (Value.string mm.name) ≠ Value.nil)
  /-- An operation on `t` follows the metamethod exactly when the metatable has it. -/
  live : ∀ t mm, h.hasMM (h.tables t).shape mm = true ↔
    ∃ m, (h.tables t).metatable = some m ∧ h.rawGet m (Value.string mm.name) ≠ Value.nil
  /-- A metatable that is set has a cache. -/
  adopted : ∀ t m, (h.tables t).metatable = some m → (h.tables m).mtCache.isSome = true

theorem HeapOk.metamethodsExact {h : Heap} (hok : HeapOk h) : MetamethodsExact h := by
  have hbit : ∀ v : Value, (!v.isNil) = true ↔ v ≠ Value.nil := by
    intro v
    rw [Bool.not_eq_true', ← Bool.not_eq_true, Value.isNil_iff]
  refine ⟨fun m c mm hc => ?_, fun t mm => ?_, hok.tables.seeded⟩
  · rw [hok.bits m c hc mm, Heap.rawGet_string, hbit]
  · rw [hasMM_eq hok]
    unfold TableStore.field?
    show (Option.map _ (h.tables t).metatable).any _ = true ↔ _
    cases (h.tables t).metatable with
    | none => simp
    | some m =>
        rw [Option.map_some, Option.any_some, hbit]
        exact ⟨fun hne => ⟨m, rfl, hne⟩, fun ⟨m', hm', hne⟩ => Option.some.inj hm' ▸ hne⟩

/-- **The metamethod bits are exact**: a table that has been adopted as a metatable has a cache,
the bit of a metamethod is set in it exactly when the table holds its name, and a table tests a
metamethod as present exactly when it has a metatable that holds it. -/
theorem metamethod_bits_exact (keyAt : ι → LuaString) (ops : List (Op ι))
    (gc : ℕ → ShapeId → Bool) :
    MetamethodsExact ((cachedMachine keyAt).run (Vm.boot ι) (schedule gc ops)).1.heap ∧
      ∀ t m, Op.setMetatable t (some m) ∈ ops →
        ∃ c, (((cachedMachine keyAt).run (Vm.boot ι) (schedule gc ops)).1.heap.tables m).mtCache =
          some c := by
  refine ⟨(run_presents keyAt ops gc).metamethodsExact, fun t m hmem => ?_⟩
  rw [← map_snd_schedule gc ops] at hmem
  exact Option.isSome_iff_exists.1 ((run_adopted (Vm.boot ι) (schedule gc ops)).2 t m hmem)

end Runs

end Tcvm
