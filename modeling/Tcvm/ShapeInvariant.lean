/-
Invariants of the shape tree.

A shape is sound when its descriptors carry pairwise distinct keys and the descriptor at position
`i` has slot `i`; the tree is sound when every shape is, and every edge leads to the shape its
label promises.  The transitions keep the tree sound, and none of them changes what an existing
shape says: only edges and dictionary sentinels are ever written to an object that is already
there.  `Heap.Extends` is that statement, and `Heap.Grown` collects what a transition promises.

* `ShapeData.Sound`, `ShapeData.findSlot_eq_some_iff` — sound shapes and their lookups;
* `ShapesSound` — the soundness of the tree;
* `Heap.Extends` — nothing that a shape, cache or table says has changed;
* `transitionAddProp_spec`, `transitionSetMetatable_spec`, `ensureDictSentinel_spec` — what each
  transition returns.
-/

import Tcvm.TableOps

namespace Tcvm

/-! ### Sound shapes -/

/-- A sound shape: distinct keys, slots in order, and no slots in dictionary mode. -/
structure ShapeData.Sound (d : ShapeData) : Prop where
  /-- The descriptor at position `i` has slot `i`. -/
  slots : d.descriptors.map Descriptor.slot = List.range d.slotCount
  /-- The keys are pairwise distinct. -/
  nodup : (d.descriptors.map Descriptor.key).Nodup
  /-- Fast mode is bounded. -/
  bound : d.slotCount ≤ maxPropertiesFast
  /-- A dictionary shape has no slots. -/
  dict : d.isDict = true → d.slotCount = 0

namespace ShapeData

theorem sound_rootEmpty : rootEmpty.Sound :=
  ⟨rfl, List.nodup_nil, Nat.zero_le _, fun _ => rfl⟩

theorem sound_dictSentinel (c : Option MtCacheId) : (dictSentinel c).Sound :=
  ⟨rfl, List.nodup_nil, Nat.zero_le _, fun _ => rfl⟩

theorem Sound.length {d : ShapeData} (h : d.Sound) : d.descriptors.length = d.slotCount := by
  have := congrArg List.length h.slots
  simpa using this

theorem Sound.slot_lt {d : ShapeData} (h : d.Sound) {desc : Descriptor}
    (hm : desc ∈ d.descriptors) : desc.slot < d.slotCount := by
  have hs : desc.slot ∈ d.descriptors.map Descriptor.slot := List.mem_map_of_mem hm
  rw [h.slots] at hs
  exact List.mem_range.1 hs

/-- Two descriptors with one slot are the same. -/
theorem Sound.eq_of_slot_eq {d : ShapeData} (h : d.Sound) {a b : Descriptor}
    (ha : a ∈ d.descriptors) (hb : b ∈ d.descriptors) (hab : a.slot = b.slot) : a = b := by
  have hnd : (d.descriptors.map Descriptor.slot).Nodup := h.slots ▸ List.nodup_range
  exact List.inj_on_of_nodup_map hnd ha hb hab

/-- Two descriptors with one key are the same. -/
theorem Sound.eq_of_key_eq {d : ShapeData} (h : d.Sound) {a b : Descriptor}
    (ha : a ∈ d.descriptors) (hb : b ∈ d.descriptors) (hab : a.key = b.key) : a = b :=
  List.inj_on_of_nodup_map h.nodup ha hb hab

theorem findSlot_eq_none_iff {d : ShapeData} {k : LuaString} :
    d.findSlot k = none ↔ ∀ desc ∈ d.descriptors, desc.key ≠ k := by
  simp [findSlot]

/-- The slot of a key is that of the one descriptor carrying it. -/
theorem Sound.findSlot_eq_some_iff {d : ShapeData} (h : d.Sound) {k : LuaString} {i : ℕ} :
    d.findSlot k = some i ↔ (⟨k, i⟩ : Descriptor) ∈ d.descriptors := by
  constructor
  · intro hf
    obtain ⟨desc, hfind, hslot⟩ := Option.map_eq_some_iff.1 hf
    have hkey : desc.key = k := by simpa using List.find?_some hfind
    have hmem := List.mem_of_find?_eq_some hfind
    cases desc
    subst hkey hslot
    exact hmem
  · intro hm
    cases hf : d.findSlot k with
    | none => exact absurd rfl (findSlot_eq_none_iff.1 hf _ hm)
    | some j =>
        obtain ⟨desc, hfind, hslot⟩ := Option.map_eq_some_iff.1 hf
        have hkey : desc.key = k := by simpa using List.find?_some hfind
        have heq := h.eq_of_key_eq (List.mem_of_find?_eq_some hfind) hm (by simpa using hkey)
        rw [← hslot, heq]

theorem Sound.findSlot_lt {d : ShapeData} (h : d.Sound) {k : LuaString} {i : ℕ}
    (hf : d.findSlot k = some i) : i < d.slotCount :=
  h.slot_lt (h.findSlot_eq_some_iff.1 hf)

/-- The key at a slot is unique. -/
theorem Sound.findSlot_inj {d : ShapeData} (h : d.Sound) {k k' : LuaString} {i : ℕ}
    (hk : d.findSlot k = some i) (hk' : d.findSlot k' = some i) : k = k' := by
  have := h.eq_of_slot_eq (h.findSlot_eq_some_iff.1 hk) (h.findSlot_eq_some_iff.1 hk') rfl
  exact congrArg Descriptor.key this

/-- What a shape says, apart from its edges. -/
structure SameLayout (d d' : ShapeData) : Prop where
  slotCount : d'.slotCount = d.slotCount
  mtCache : d'.mtCache = d.mtCache
  isDict : d'.isDict = d.isDict
  descriptors : d'.descriptors = d.descriptors

theorem SameLayout.refl (d : ShapeData) : SameLayout d d := ⟨rfl, rfl, rfl, rfl⟩

theorem SameLayout.trans {a b c : ShapeData} (h₁ : SameLayout a b) (h₂ : SameLayout b c) :
    SameLayout a c :=
  ⟨h₂.slotCount.trans h₁.slotCount, h₂.mtCache.trans h₁.mtCache, h₂.isDict.trans h₁.isDict,
    h₂.descriptors.trans h₁.descriptors⟩

theorem SameLayout.findSlot {d d' : ShapeData} (h : SameLayout d d') (k : LuaString) :
    d'.findSlot k = d.findSlot k := by
  simp only [ShapeData.findSlot, h.descriptors]

theorem SameLayout.sound {d d' : ShapeData} (h : SameLayout d d') (hd : d.Sound) : d'.Sound := by
  refine ⟨?_, ?_, ?_, ?_⟩
  · rw [h.descriptors, h.slotCount]; exact hd.slots
  · rw [h.descriptors]; exact hd.nodup
  · rw [h.slotCount]; exact hd.bound
  · rw [h.isDict, h.slotCount]; exact hd.dict

/-- `d'` is `d` with the property `key` added. -/
structure AddsProp (d : ShapeData) (key : LuaString) (d' : ShapeData) : Prop where
  slotCount : d'.slotCount = d.slotCount + 1
  mtCache : d'.mtCache = d.mtCache
  isDict : d'.isDict = false
  descriptors : d'.descriptors = d.descriptors ++ [⟨key, d.slotCount⟩]

theorem AddsProp.sound {d d' : ShapeData} {key : LuaString} (h : AddsProp d key d') (hd : d.Sound)
    (hkey : d.findSlot key = none) (hlt : d.slotCount < maxPropertiesFast) : d'.Sound := by
  refine ⟨?_, ?_, ?_, ?_⟩
  · rw [h.descriptors, h.slotCount, List.map_append, hd.slots, List.range_succ]
    rfl
  · rw [h.descriptors, List.map_append]
    refine List.Nodup.append hd.nodup (List.nodup_singleton _) ?_
    intro k hk hk'
    obtain ⟨desc, hm, rfl⟩ := List.mem_map.1 hk
    exact findSlot_eq_none_iff.1 hkey desc hm (by simpa using hk')
  · rw [h.slotCount]; omega
  · rw [h.isDict]; exact fun hc => absurd hc (by simp)

theorem AddsProp.findSlot_self {d d' : ShapeData} {key : LuaString} (h : AddsProp d key d')
    (hkey : d.findSlot key = none) : d'.findSlot key = some d.slotCount := by
  have hn : d.descriptors.find? (fun desc => desc.key == key) = none := by
    simpa [findSlot] using hkey
  simp [findSlot, h.descriptors, List.find?_append, hn]

theorem AddsProp.findSlot_of_ne {d d' : ShapeData} {key k : LuaString} (h : AddsProp d key d')
    (hk : k ≠ key) : d'.findSlot k = d.findSlot k := by
  have hne : (key == k) = false := by simpa using fun he => hk he.symm
  simp [findSlot, h.descriptors, List.find?_append, hne]

/-- `d'` is `d` under another metatable cache. -/
structure Resets (d : ShapeData) (c : Option MtCacheId) (d' : ShapeData) : Prop where
  slotCount : d'.slotCount = d.slotCount
  mtCache : d'.mtCache = c
  isDict : d'.isDict = d.isDict
  descriptors : d'.descriptors = d.descriptors

theorem Resets.sound {d d' : ShapeData} {c : Option MtCacheId} (h : Resets d c d')
    (hd : d.Sound) : d'.Sound := by
  refine ⟨?_, ?_, ?_, ?_⟩
  · rw [h.descriptors, h.slotCount]; exact hd.slots
  · rw [h.descriptors]; exact hd.nodup
  · rw [h.slotCount]; exact hd.bound
  · rw [h.isDict, h.slotCount]; exact hd.dict

theorem Resets.findSlot {d d' : ShapeData} {c : Option MtCacheId} (h : Resets d c d')
    (k : LuaString) : d'.findSlot k = d.findSlot k := by
  simp only [ShapeData.findSlot, h.descriptors]

end ShapeData

open ShapeData

/-! ### The tree -/

/-- Soundness of the shape tree.  Edges lead below the allocation counter and to the shapes their
labels promise; the dictionary sentinels are dictionary shapes of their cache. -/
structure ShapesSound (h : Heap) : Prop where
  shape : ∀ s, (h.shapes s).Sound
  emptyShape_lt : h.emptyShape < h.nextShape
  emptyShape : SameLayout rootEmpty (h.shapes h.emptyShape)
  emptyDict_lt : h.emptyDictSentinel < h.nextShape
  emptyDict : SameLayout (dictSentinel none) (h.shapes h.emptyDictSentinel)
  propEdge : ∀ s key child, (h.shapes s).byProp.lookup key = some child →
    child < h.nextShape ∧ AddsProp (h.shapes s) key (h.shapes child)
  mtEdge : ∀ s c child, (h.shapes s).isDict = false → (h.shapes s).byMt.lookup c = some child →
    child < h.nextShape ∧ Resets (h.shapes s) c (h.shapes child)
  sentinel : ∀ c s, (h.mtCaches c).dictSentinel = some s →
    s < h.nextShape ∧ SameLayout (dictSentinel (some c)) (h.shapes s)

/-- Nothing that a shape, a cache or a table says has changed: existing shapes keep their layout,
caches keep their bits, tables and userdata are untouched. -/
structure Heap.Extends (h h' : Heap) : Prop where
  nextShape : h.nextShape ≤ h'.nextShape
  layout : ∀ s < h.nextShape, SameLayout (h.shapes s) (h'.shapes s)
  bits : ∀ c, (h'.mtCaches c).bits = (h.mtCaches c).bits
  nextMtCache : h'.nextMtCache = h.nextMtCache
  tables : h'.tables = h.tables
  userdataMeta : h'.userdataMeta = h.userdataMeta
  emptyShape : h'.emptyShape = h.emptyShape
  emptyDict : h'.emptyDictSentinel = h.emptyDictSentinel

namespace Heap.Extends

theorem refl (h : Heap) : h.Extends h :=
  ⟨Nat.le_refl _, fun _ _ => SameLayout.refl _, fun _ => rfl, rfl, rfl, rfl, rfl, rfl⟩

theorem trans {a b c : Heap} (h₁ : a.Extends b) (h₂ : b.Extends c) : a.Extends c :=
  ⟨Nat.le_trans h₁.nextShape h₂.nextShape,
    fun s hs => (h₁.layout s hs).trans (h₂.layout s (Nat.lt_of_lt_of_le hs h₁.nextShape)),
    fun x => (h₂.bits x).trans (h₁.bits x), h₂.nextMtCache.trans h₁.nextMtCache,
    h₂.tables.trans h₁.tables, h₂.userdataMeta.trans h₁.userdataMeta,
    h₂.emptyShape.trans h₁.emptyShape, h₂.emptyDict.trans h₁.emptyDict⟩

end Heap.Extends

/-! ### Allocation and edges -/

theorem extends_allocShape (h : Heap) (d : ShapeData) : h.Extends (h.allocShape d).2 := by
  refine ⟨Nat.le_succ _, ?_, fun _ => rfl, rfl, rfl, rfl, rfl, rfl⟩
  intro s hs
  have hne : s ≠ h.nextShape := by omega
  simp only [Heap.allocShape, Heap.setShape, Function.update_of_ne hne]
  exact SameLayout.refl _

theorem shapes_allocShape (h : Heap) (d : ShapeData) :
    (h.allocShape d).2.shapes (h.allocShape d).1 = d := by
  simp [Heap.allocShape, Heap.setShape]

/-- A fresh shape without edges keeps the tree sound. -/
theorem ShapesSound.allocShape {h : Heap} (hs : ShapesSound h) {d : ShapeData} (hd : d.Sound)
    (hp : d.byProp = ∅) (hm : d.byMt = ∅) : ShapesSound (h.allocShape d).2 := by
  have hext := extends_allocShape h d
  have hself := shapes_allocShape h d
  have hold : ∀ s, s ≠ h.nextShape → (h.allocShape d).2.shapes s = h.shapes s := by
    intro s hne
    simp [Heap.allocShape, Heap.setShape, Function.update_of_ne hne]
  have hself' : (h.allocShape d).2.shapes h.nextShape = d := hself
  refine ⟨?_, ?_, ?_, ?_, ?_, ?_, ?_, ?_⟩
  · intro s
    by_cases hne : s = h.nextShape
    · rw [hne, hself']; exact hd
    · rw [hold s hne]; exact hs.shape s
  · exact Nat.lt_succ_of_lt hs.emptyShape_lt
  · exact hs.emptyShape.trans (hext.layout _ hs.emptyShape_lt)
  · exact Nat.lt_succ_of_lt hs.emptyDict_lt
  · exact hs.emptyDict.trans (hext.layout _ hs.emptyDict_lt)
  · intro s key child hl
    by_cases hne : s = h.nextShape
    · rw [hne, hself', hp] at hl; simp at hl
    · rw [hold s hne] at hl ⊢
      obtain ⟨hlt, hadd⟩ := hs.propEdge s key child hl
      refine ⟨Nat.lt_succ_of_lt hlt, ?_⟩
      rw [hold child (Nat.ne_of_lt hlt)]; exact hadd
  · intro s c child hdict hl
    by_cases hne : s = h.nextShape
    · rw [hne, hself', hm] at hl; simp at hl
    · rw [hold s hne] at hl hdict ⊢
      obtain ⟨hlt, hres⟩ := hs.mtEdge s c child hdict hl
      refine ⟨Nat.lt_succ_of_lt hlt, ?_⟩
      rw [hold child (Nat.ne_of_lt hlt)]; exact hres
  · intro c s hc
    obtain ⟨hlt, hsame⟩ := hs.sentinel c s hc
    exact ⟨Nat.lt_succ_of_lt hlt, hsame.trans (hext.layout s hlt)⟩

/-- Writing to a shape a version of itself that differs only in its edges. -/
theorem extends_setShape {h : Heap} {s : ShapeId} {d : ShapeData}
    (hsame : SameLayout (h.shapes s) d) : h.Extends (h.setShape s d) := by
  refine ⟨Nat.le_refl _, ?_, fun _ => rfl, rfl, rfl, rfl, rfl, rfl⟩
  intro s' _
  by_cases hne : s' = s
  · subst hne; simpa [Heap.setShape] using hsame
  · simp only [Heap.setShape, Function.update_of_ne hne]
    exact SameLayout.refl _

/-- Writing edges that keep their promises keeps the tree sound. -/
theorem ShapesSound.setShape {h : Heap} (hs : ShapesSound h) {s : ShapeId} {d : ShapeData}
    (hsame : SameLayout (h.shapes s) d)
    (hprop : ∀ key child, d.byProp.lookup key = some child →
      child < h.nextShape ∧ AddsProp (h.shapes s) key (h.shapes child))
    (hmt : ∀ c child, (h.shapes s).isDict = false → d.byMt.lookup c = some child →
      child < h.nextShape ∧ Resets (h.shapes s) c (h.shapes child)) :
    ShapesSound (h.setShape s d) := by
  -- every shape keeps its layout, so every promise made about it still holds
  have hlay : ∀ x, SameLayout (h.shapes x) ((h.setShape s d).shapes x) := by
    intro x
    by_cases hne : x = s
    · subst hne; simpa [Heap.setShape] using hsame
    · simp only [Heap.setShape, Function.update_of_ne hne]
      exact SameLayout.refl _
  have hadd : ∀ {x y key}, AddsProp (h.shapes x) key (h.shapes y) →
      AddsProp ((h.setShape s d).shapes x) key ((h.setShape s d).shapes y) := by
    intro x y key ha
    have hx := hlay x
    have hy := hlay y
    exact ⟨by rw [hy.slotCount, hx.slotCount, ha.slotCount],
      by rw [hy.mtCache, hx.mtCache, ha.mtCache], by rw [hy.isDict, ha.isDict],
      by rw [hy.descriptors, hx.descriptors, hx.slotCount, ha.descriptors]⟩
  have hres : ∀ {x y c}, Resets (h.shapes x) c (h.shapes y) →
      Resets ((h.setShape s d).shapes x) c ((h.setShape s d).shapes y) := by
    intro x y c hr
    have hx := hlay x
    have hy := hlay y
    exact ⟨by rw [hy.slotCount, hx.slotCount, hr.slotCount], by rw [hy.mtCache, hr.mtCache],
      by rw [hy.isDict, hx.isDict, hr.isDict],
      by rw [hy.descriptors, hx.descriptors, hr.descriptors]⟩
  refine ⟨fun x => (hlay x).sound (hs.shape x), hs.emptyShape_lt, hs.emptyShape.trans (hlay _),
    hs.emptyDict_lt, hs.emptyDict.trans (hlay _), ?_, ?_, ?_⟩
  · intro x key child hl
    by_cases hne : x = s
    · subst hne
      have hl' : d.byProp.lookup key = some child := by simpa [Heap.setShape] using hl
      exact ⟨(hprop key child hl').1, hadd (hprop key child hl').2⟩
    · have hl' : (h.shapes x).byProp.lookup key = some child := by
        simpa [Heap.setShape, Function.update_of_ne hne] using hl
      exact ⟨(hs.propEdge x key child hl').1, hadd (hs.propEdge x key child hl').2⟩
  · intro x c child hdict hl
    have hdict' : (h.shapes x).isDict = false := by rw [← (hlay x).isDict]; exact hdict
    by_cases hne : x = s
    · subst hne
      have hl' : d.byMt.lookup c = some child := by simpa [Heap.setShape] using hl
      exact ⟨(hmt c child hdict' hl').1, hres (hmt c child hdict' hl').2⟩
    · have hl' : (h.shapes x).byMt.lookup c = some child := by
        simpa [Heap.setShape, Function.update_of_ne hne] using hl
      exact ⟨(hs.mtEdge x c child hdict' hl').1, hres (hs.mtEdge x c child hdict' hl').2⟩
  · intro c x hc
    exact ⟨(hs.sentinel c x hc).1, (hs.sentinel c x hc).2.trans (hlay x)⟩

theorem upgrade_eq_some {h : Heap} {s s' : ShapeId} (hu : h.upgrade s = some s') : s' = s := by
  unfold Heap.upgrade at hu
  split at hu
  · exact absurd hu (by simp)
  · simpa using hu.symm

/-! ### What the transitions return -/

/-- A transition from `h` that returned shape `r.1`: the tree is still sound, nothing has changed
about what was there, and the returned shape is allocated. -/
structure Heap.Grown (h : Heap) (r : ShapeId × Heap) : Prop where
  sound : ShapesSound r.2
  ext : h.Extends r.2
  lt : r.1 < r.2.nextShape

theorem transitionAddProp_spec {h : Heap} (hs : ShapesSound h) {parent : ShapeId}
    {key : LuaString} (hp : parent < h.nextShape)
    (hkey : (h.shapes parent).findSlot key = none)
    (hroom : (h.shapes parent).slotCount < maxPropertiesFast) :
    h.Grown (h.transitionAddProp parent key) ∧
      AddsProp (h.shapes parent) key
        ((h.transitionAddProp parent key).2.shapes (h.transitionAddProp parent key).1) := by
  unfold Heap.transitionAddProp
  cases hl : ((h.shapes parent).byProp.lookup key).bind h.upgrade with
  | some child =>
      obtain ⟨e, he, hu⟩ := Option.bind_eq_some_iff.1 hl
      obtain rfl := upgrade_eq_some hu
      obtain ⟨hlt, hadd⟩ := hs.propEdge parent key child he
      exact ⟨⟨hs, Heap.Extends.refl h, hlt⟩, hadd⟩
  | none =>
      simp only
      set d : ShapeData :=
        { parent := some parent, slotCount := (h.shapes parent).slotCount + 1,
          mtCache := (h.shapes parent).mtCache, isDict := false, byProp := ∅, byMt := ∅,
          descriptors := (h.shapes parent).descriptors ++ [⟨key, (h.shapes parent).slotCount⟩] }
        with hd
      have hadd : AddsProp (h.shapes parent) key d := ⟨rfl, rfl, rfl, rfl⟩
      have hd' : d.Sound := hadd.sound (hs.shape parent) hkey hroom
      have hs₁ : ShapesSound (h.allocShape d).2 := hs.allocShape hd' rfl rfl
      have hext₁ := extends_allocShape h d
      have hparent : (h.allocShape d).2.shapes parent = h.shapes parent := by
        have hne : parent ≠ h.nextShape := Nat.ne_of_lt hp
        simp [Heap.allocShape, Heap.setShape, Function.update_of_ne hne]
      have hnew : (h.allocShape d).2.shapes (h.allocShape d).1 = d := shapes_allocShape h d
      have hne : (h.allocShape d).1 ≠ parent := (Nat.ne_of_lt hp).symm
      have hsame : SameLayout ((h.allocShape d).2.shapes parent)
          { h.shapes parent with
            byProp := (h.shapes parent).byProp.insert key (h.allocShape d).1 } := by
        rw [hparent]; exact ⟨rfl, rfl, rfl, rfl⟩
      refine ⟨⟨?_, hext₁.trans (extends_setShape hsame), Nat.lt_succ_self _⟩, ?_⟩
      · refine hs₁.setShape hsame ?_ ?_
        · intro k child hc
          by_cases hk : k = key
          · subst hk
            simp only [AList.lookup_insert, Option.some.injEq] at hc
            subst hc
            exact ⟨Nat.lt_succ_self _, by rw [hparent, hnew]; exact hadd⟩
          · simp only [AList.lookup_insert_ne hk] at hc
            exact hs₁.propEdge parent k child (by rw [hparent]; exact hc)
        · intro c child hdict hc
          exact hs₁.mtEdge parent c child hdict (by rw [hparent]; exact hc)
      · simp only [Heap.setShape, Function.update_of_ne hne]
        rw [hnew]; exact hadd

theorem ensureDictSentinel_spec {h : Heap} (hs : ShapesSound h) (c : MtCacheId) :
    h.Grown (h.ensureDictSentinel c) ∧
      SameLayout (dictSentinel (some c))
        ((h.ensureDictSentinel c).2.shapes (h.ensureDictSentinel c).1) := by
  unfold Heap.ensureDictSentinel
  cases hc : (h.mtCaches c).dictSentinel with
  | some s =>
      obtain ⟨hlt, hsame⟩ := hs.sentinel c s hc
      exact ⟨⟨hs, Heap.Extends.refl h, hlt⟩, hsame⟩
  | none =>
      simp only
      set d := dictSentinel (some c) with hd
      have hs₁ : ShapesSound (h.allocShape d).2 :=
        hs.allocShape (sound_dictSentinel _) rfl rfl
      have hnew : (h.allocShape d).2.shapes (h.allocShape d).1 = d := shapes_allocShape h d
      have hext₁ := extends_allocShape h d
      refine ⟨⟨?_, ?_, Nat.lt_succ_self _⟩, ?_⟩
      · refine ⟨hs₁.shape, hs₁.emptyShape_lt, hs₁.emptyShape, hs₁.emptyDict_lt, hs₁.emptyDict,
          hs₁.propEdge, hs₁.mtEdge, ?_⟩
        intro c' s hc'
        by_cases hne : c' = c
        · subst hne
          simp only [Heap.setMtCache, Function.update_self, Option.some.injEq] at hc'
          subst hc'
          exact ⟨Nat.lt_succ_self _, by
            show SameLayout _ ((h.allocShape d).2.shapes (h.allocShape d).1)
            rw [hnew]; exact SameLayout.refl _⟩
        · simp only [Heap.setMtCache, Function.update_of_ne hne] at hc'
          exact hs₁.sentinel c' s hc'
      · refine ⟨hext₁.nextShape, hext₁.layout, ?_, rfl, rfl, rfl, rfl, rfl⟩
        intro c'
        by_cases hne : c' = c
        · subst hne; simp [Heap.setMtCache, Heap.allocShape, Heap.setShape]
        · simp [Heap.setMtCache, Function.update_of_ne hne, Heap.allocShape, Heap.setShape]
      · show SameLayout d ((h.allocShape d).2.shapes (h.allocShape d).1)
        rw [hnew]; exact SameLayout.refl _

theorem dictSentinelOf_spec {h : Heap} (hs : ShapesSound h) (c : Option MtCacheId) :
    h.Grown (h.dictSentinelOf c) ∧
      SameLayout (dictSentinel c) ((h.dictSentinelOf c).2.shapes (h.dictSentinelOf c).1) := by
  cases c with
  | some c => exact ensureDictSentinel_spec hs c
  | none => exact ⟨⟨hs, Heap.Extends.refl h, hs.emptyDict_lt⟩, hs.emptyDict⟩

theorem transitionSetMetatable_spec {h : Heap} (hs : ShapesSound h) {parent : ShapeId}
    (newMt : Option MtCacheId) (hp : parent < h.nextShape) :
    h.Grown (h.transitionSetMetatable parent newMt) ∧
      Resets (h.shapes parent) newMt
        ((h.transitionSetMetatable parent newMt).2.shapes
          (h.transitionSetMetatable parent newMt).1) := by
  unfold Heap.transitionSetMetatable
  split
  case isTrue hdict =>
    obtain ⟨hgrown, hsame⟩ := dictSentinelOf_spec hs newMt
    refine ⟨hgrown, ?_⟩
    have hcount := (hs.shape parent).dict hdict
    have hdesc : (h.shapes parent).descriptors = [] := by
      rw [← List.length_eq_zero_iff, (hs.shape parent).length, hcount]
    exact ⟨hsame.slotCount.trans hcount.symm, hsame.mtCache, hsame.isDict.trans hdict.symm,
      hsame.descriptors.trans hdesc.symm⟩
  case isFalse hdict =>
    have hdict : (h.shapes parent).isDict = false := by simpa using hdict
    cases hl : ((h.shapes parent).byMt.lookup newMt).bind h.upgrade with
    | some child =>
        obtain ⟨e, he, hu⟩ := Option.bind_eq_some_iff.1 hl
        obtain rfl := upgrade_eq_some hu
        obtain ⟨hlt, hres⟩ := hs.mtEdge parent newMt child hdict he
        exact ⟨⟨hs, Heap.Extends.refl h, hlt⟩, hres⟩
    | none =>
        simp only
        set d : ShapeData :=
          { parent := some parent, slotCount := (h.shapes parent).slotCount, mtCache := newMt,
            isDict := false, byProp := ∅, byMt := ∅,
            descriptors := (h.shapes parent).descriptors } with hd
        have hres : Resets (h.shapes parent) newMt d := ⟨rfl, rfl, hdict.symm, rfl⟩
        have hs₁ : ShapesSound (h.allocShape d).2 :=
          hs.allocShape (hres.sound (hs.shape parent)) rfl rfl
        have hext₁ := extends_allocShape h d
        have hparent : (h.allocShape d).2.shapes parent = h.shapes parent := by
          have hne : parent ≠ h.nextShape := Nat.ne_of_lt hp
          simp [Heap.allocShape, Heap.setShape, Function.update_of_ne hne]
        have hnew : (h.allocShape d).2.shapes (h.allocShape d).1 = d := shapes_allocShape h d
        have hne : (h.allocShape d).1 ≠ parent := (Nat.ne_of_lt hp).symm
        have hsame : SameLayout ((h.allocShape d).2.shapes parent)
            { h.shapes parent with
              byMt := (h.shapes parent).byMt.insert newMt (h.allocShape d).1 } := by
          rw [hparent]; exact ⟨rfl, rfl, rfl, rfl⟩
        refine ⟨⟨?_, hext₁.trans (extends_setShape hsame), Nat.lt_succ_self _⟩, ?_⟩
        · refine hs₁.setShape hsame ?_ ?_
          · intro k child hc
            exact hs₁.propEdge parent k child (by rw [hparent]; exact hc)
          · intro c child hdict' hc
            by_cases hk : c = newMt
            · subst hk
              simp only [AList.lookup_insert, Option.some.injEq] at hc
              subst hc
              exact ⟨Nat.lt_succ_self _, by rw [hparent, hnew]; exact hres⟩
            · simp only [AList.lookup_insert_ne hk] at hc
              exact hs₁.mtEdge parent c child hdict' (by rw [hparent]; exact hc)
        · simp only [Heap.setShape, Function.update_of_ne hne]
          rw [hnew]; exact hres

end Tcvm
