/-
The `__index` and `__newindex` chains of the interpreter, and the uncached table accesses.

The walks hop from table to table through raw reads and live metamethod bits, at most
`MAX_TAG_LOOP` times.  On a well-formed heap they are the walks of the store that the heap
presents, so they depend on nothing but contents and metatables.

* `walkIndexChain`, `walkNewindexChain`, `userdataIndexChain` — the walks;
* `Outcome`, `tableGetSlow`, `userdataGetSlow`, `tableSetSlow` — the slow-path bodies;
* `walkIndexLoop_eq`, `walkNewindexLoop_eq` — **the walks of the heap are those of its store**;
* `World`, `World.tableGet`, `World.tableSet` — what an access does to the contents alone;
* `tableGetSlow_eq`, `userdataGetSlow_eq`, `tableSetSlow_spec` — the slow paths do just that.
-/

import Tcvm.TableSpec

namespace Tcvm

/-- Maximum depth of `__index` and `__newindex` chains. -/
def maxTagLoop : ℕ := 2000

/-- The table a value is, if any. -/
def Value.getTable : Value → Option TableId
  | Value.table t => some t
  | _ => none

/-- How Lua values speak of tables. -/
abbrev luaTables : TableValues TableId Value :=
  { nil := Value.nil, asTable := Value.getTable, ofTable := Value.table }

/-! ### The walks -/

namespace Heap

/-- The hops of `walk_index_chain`. -/
def walkIndexLoop (h : Heap) (key : Value) : ℕ → Value → Value → IndexChain Value
  | 0, _, _ => IndexChain.exhausted
  | n + 1, currentReceiver, mm =>
      if mm.isNil then IndexChain.resolved Value.nil
      else
        match mm.getTable with
        | none => IndexChain.invoke mm currentReceiver
        | some next =>
            let v := h.rawGet next key
            if !v.isNil then IndexChain.resolved v
            else if !h.hasMM (h.tables next).shape Metamethod.index then
              IndexChain.resolved Value.nil
            else
              match (h.tables next).metatable with
              | some nextMt =>
                  walkIndexLoop h key n (Value.table next)
                    (h.rawGet nextMt (Value.string Metamethod.index.name))
              | none => IndexChain.resolved Value.nil -- the bit implies a metatable

/-- `walk_index_chain`. -/
def walkIndexChain (h : Heap) (startReceiver : Value) (startMetatable : TableId) (key : Value) :
    IndexChain Value :=
  h.walkIndexLoop key maxTagLoop startReceiver
    (h.rawGet startMetatable (Value.string Metamethod.index.name))

/-- `userdata_index_chain`; `none` is the error of a userdata without `__index`. -/
def userdataIndexChain (h : Heap) (u : ℕ) (recv key : Value) : Option (IndexChain Value) :=
  match h.userdataMeta u with
  | none => none
  | some mt =>
      if (h.rawGet mt (Value.string Metamethod.index.name)).isNil then none
      else some (h.walkIndexChain recv mt key)

/-- The hops of `walk_newindex_chain`. -/
def walkNewindexLoop (h : Heap) (key : Value) : ℕ → TableId → NewIndexChain TableId Value
  | 0, _ => NewIndexChain.exhausted
  | n + 1, t =>
      if !(h.rawGet t key).isNil then NewIndexChain.rawSet t
      else if !h.hasMM (h.tables t).shape Metamethod.newindex then NewIndexChain.rawSet t
      else
        match (h.tables t).metatable with
        | some mt =>
            let mm := h.rawGet mt (Value.string Metamethod.newindex.name)
            if mm.isNil then NewIndexChain.rawSet t
            else
              match mm.getTable with
              | some next => walkNewindexLoop h key n next
              | none => NewIndexChain.invoke mm (Value.table t)
        | none => NewIndexChain.rawSet t -- the bit implies a metatable

/-- `walk_newindex_chain`. -/
def walkNewindexChain (h : Heap) (table : TableId) (key : Value) : NewIndexChain TableId Value :=
  h.walkNewindexLoop key maxTagLoop table

end Heap

/-! ### The slow paths -/

/-- How an operation ends: with nothing to report, a value in the destination register, a
metamethod to invoke on arguments, a raised error, or a panic of the host. -/
inductive Outcome
  | done
  | value (v : Value)
  | invoke (func : Value) (args : List Value)
  | raise
  | panic
  deriving DecidableEq

/-- What an `__index` walk for key `k` leaves to do. -/
def indexOutcome (k : Value) : IndexChain Value → Outcome
  | IndexChain.resolved v => Outcome.value v
  | IndexChain.invoke func receiver => Outcome.invoke func [receiver, k]
  | IndexChain.exhausted => Outcome.raise

namespace Heap

/-- `table_get_slow_body!`. -/
def tableGetSlow (h : Heap) (t : TableId) (k : Value) : Outcome :=
  let v := h.rawGet t k
  if !v.isNil then Outcome.value v
  else if !h.hasMM (h.tables t).shape Metamethod.index then Outcome.value Value.nil
  else
    match (h.tables t).metatable with
    | some mt => indexOutcome k (h.walkIndexChain (Value.table t) mt k)
    | none => Outcome.value Value.nil -- the bit implies a metatable

/-- `userdata_get_slow_body!`. -/
def userdataGetSlow (h : Heap) (u : ℕ) (recv k : Value) : Outcome :=
  match h.userdataIndexChain u recv k with
  | none => Outcome.raise
  | some chain => indexOutcome k chain

/-- Run `raw_set` as an operation; a nil key panics and nothing is written. -/
def rawSetOp (h : Heap) (t : TableId) (key value : Value) : Heap × Outcome :=
  match h.rawSet t key value with
  | some h' => (h', Outcome.done)
  | none => (h, Outcome.panic)

/-- `table_set_slow_body!`. -/
def tableSetSlow (h : Heap) (t : TableId) (k v : Value) : Heap × Outcome :=
  match h.walkNewindexChain t k with
  | NewIndexChain.rawSet target => h.rawSetOp target k v
  | NewIndexChain.invoke func receiver => (h, Outcome.invoke func [receiver, k, v])
  | NewIndexChain.exhausted => (h, Outcome.raise)

end Heap

/-! ### The walks of the store -/

theorem hasMM_iff {h : Heap} (hok : HeapOk h) (t : TableId) (mm : Metamethod) :
    h.hasMM (h.tables t).shape mm = true ↔
      h.store.field luaTables t (Key.str mm.name) ≠ Value.nil := by
  rw [hasMM_eq hok]
  unfold TableStore.field
  cases h.store.field? t (Key.str mm.name) with
  | none => simp
  | some v => simp

/-- A set bit implies that there is a metatable, and the field is read from it. -/
theorem exists_metatable_of_hasMM {h : Heap} (hok : HeapOk h) {t : TableId} {mm : Metamethod}
    (hmm : h.hasMM (h.tables t).shape mm = true) :
    ∃ m, (h.tables t).metatable = some m ∧
      h.store.field luaTables t (Key.str mm.name) =
        h.rawGet m (Value.string mm.name) := by
  have hne := (hasMM_iff hok t mm).1 hmm
  cases hm : (h.tables t).metatable with
  | none =>
      refine absurd ?_ hne
      simp [TableStore.field, TableStore.field?, Heap.store, hm]
  | some m =>
      refine ⟨m, rfl, ?_⟩
      simp [TableStore.field, TableStore.field?, Heap.store, hm, Heap.rawGet_string]

/-- The test of the walks: the bit of `mm` is clear exactly when the field is nil. -/
theorem not_hasMM_iff {h : Heap} (hok : HeapOk h) (t : TableId) (mm : Metamethod) :
    (!h.hasMM (h.tables t).shape mm) = true ↔
      h.store.field luaTables t (Key.str mm.name) = Value.nil := by
  have hiff := hasMM_iff hok t mm
  cases hb : h.hasMM (h.tables t).shape mm with
  | true => simpa [hb] using hiff
  | false => simpa [hb] using hiff

/-- The `__index` walk of a well-formed heap is that of its store. -/
theorem walkIndexLoop_eq {h : Heap} (hok : HeapOk h) (key : Value) (n : ℕ) (receiver mm : Value) :
    h.walkIndexLoop key n receiver mm =
      h.store.indexChain luaTables (keyOf key) (Key.str Metamethod.index.name) n receiver mm := by
  induction n generalizing receiver mm with
  | zero => rfl
  | succ n ih =>
      unfold Heap.walkIndexLoop TableStore.indexChain
      simp only [← Heap.rawGet_eq, Value.isNil_iff, Bool.not_eq_true', Value.isNil_eq_false_iff]
      split
      case isTrue hmm => rfl
      case isFalse hmm =>
        cases mm.getTable with
        | none => rfl
        | some next =>
            simp only
            split
            case isTrue hv => rfl
            case isFalse hv =>
              by_cases hf : h.store.field luaTables next (Key.str Metamethod.index.name) =
                  Value.nil
              · have hno := (not_hasMM_iff hok next Metamethod.index).2 hf
                rw [Bool.not_eq_true'] at hno
                rw [if_pos hno, if_pos hf]
              · have hbit := (hasMM_iff hok next Metamethod.index).2 hf
                obtain ⟨m, hm, hfield⟩ := exists_metatable_of_hasMM hok hbit
                rw [if_neg (by simp [hbit]), if_neg hf, hm, hfield]
                exact ih (Value.table next) (h.rawGet m (Value.string Metamethod.index.name))

/-- The `__newindex` walk of a well-formed heap is that of its store. -/
theorem walkNewindexLoop_eq {h : Heap} (hok : HeapOk h) (key : Value) (n : ℕ) (t : TableId) :
    h.walkNewindexLoop key n t =
      h.store.newindexChain luaTables (keyOf key) (Key.str Metamethod.newindex.name) n t := by
  induction n generalizing t with
  | zero => rfl
  | succ n ih =>
      unfold Heap.walkNewindexLoop TableStore.newindexChain
      simp only [← Heap.rawGet_eq, Value.isNil_iff, Bool.not_eq_true', Value.isNil_eq_false_iff]
      split
      case isTrue hv => rfl
      case isFalse hv =>
        by_cases hf : h.store.field luaTables t (Key.str Metamethod.newindex.name) = Value.nil
        · have hno := (not_hasMM_iff hok t Metamethod.newindex).2 hf
          rw [Bool.not_eq_true'] at hno
          rw [if_pos hno, if_pos hf]
        · have hbit := (hasMM_iff hok t Metamethod.newindex).2 hf
          obtain ⟨m, hm, hfield⟩ := exists_metatable_of_hasMM hok hbit
          rw [if_neg (by simp [hbit]), if_neg hf, hm, hfield]
          have hmm : h.rawGet m (Value.string Metamethod.newindex.name) ≠ Value.nil :=
            hfield ▸ hf
          simp only [if_neg hmm]
          cases (h.rawGet m (Value.string Metamethod.newindex.name)).getTable with
          | none => rfl
          | some next => exact ih next

/-! ### The world the heap presents -/

/-- The contents and metatables of all tables, the lengths of their array parts, and the
metatables of userdata: what a program can observe of the heap. -/
@[ext] structure World where
  store : TableStore TableId Key Value
  len : TableId → ℕ
  userdataMeta : ℕ → Option TableId

/-- The world a heap presents. -/
def Heap.world (h : Heap) : World :=
  { store := h.store, len := h.rawLen, userdataMeta := h.userdataMeta }

namespace World

/-- Store a value under a key. -/
def set (w : World) (t : TableId) (k : Key) (v : Value) : World :=
  { w with
    store := w.store.set t k v
    len := Function.update w.len t (lenAfter k (w.len t)) }

/-- Replace a metatable. -/
def setMetatable (w : World) (t : TableId) (mt : Option TableId) : World :=
  { w with store := w.store.setMetatable t mt }

/-- Replace the metatable of a userdata. -/
def setUserdataMeta (w : World) (u : ℕ) (mt : Option TableId) : World :=
  { w with userdataMeta := Function.update w.userdataMeta u mt }

/-- Read a raw key. -/
def get (w : World) (t : TableId) (key : Value) : Value := w.store.content t (keyOf key)

/-- The `__index` walk from a value. -/
def indexFrom (w : World) (receiver mm key : Value) : Outcome :=
  indexOutcome key
    (w.store.indexChain luaTables (keyOf key) (Key.str Metamethod.index.name) maxTagLoop receiver
      mm)

/-- Read a key of a table: its value, or whatever its `__index` says. -/
def tableGet (w : World) (t : TableId) (key : Value) : Outcome :=
  if w.get t key ≠ Value.nil then Outcome.value (w.get t key)
  else
    let mm := w.store.field luaTables t (Key.str Metamethod.index.name)
    if mm = Value.nil then Outcome.value Value.nil
    else w.indexFrom (Value.table t) mm key

/-- Read a key of a userdata, which has nothing but its `__index`. -/
def userdataGet (w : World) (u : ℕ) (recv key : Value) : Outcome :=
  match w.userdataMeta u with
  | none => Outcome.raise
  | some mt =>
      let mm := w.get mt (Value.string Metamethod.index.name)
      if mm = Value.nil then Outcome.raise else w.indexFrom recv mm key

/-- Write a raw key; the nil key panics. -/
def rawSet (w : World) (t : TableId) (key v : Value) : World × Outcome :=
  if key = Value.nil then (w, Outcome.panic) else (w.set t (keyOf key) v, Outcome.done)

/-- Write a key of a table, or of whatever its `__newindex` says. -/
def tableSet (w : World) (t : TableId) (key v : Value) : World × Outcome :=
  match w.store.newindexChain luaTables (keyOf key) (Key.str Metamethod.newindex.name) maxTagLoop
      t with
  | NewIndexChain.rawSet target => w.rawSet target key v
  | NewIndexChain.invoke func receiver => (w, Outcome.invoke func [receiver, key, v])
  | NewIndexChain.exhausted => (w, Outcome.raise)

end World

/-! ### The slow paths against the world -/

theorem world_get (h : Heap) (t : TableId) (key : Value) :
    h.world.get t key = h.rawGet t key := (h.rawGet_eq t key).symm

theorem Heap.Stored.world {h h' : Heap} {t : TableId} {k : Key} {v : Value}
    (hst : h.Stored t k v h') : h'.world = h.world.set t k v := by
  refine World.ext hst.store ?_ hst.grows.userdataMeta
  funext t'
  refine (hst.len t').trans ?_
  simp [World.set, Heap.world, Function.update_apply]

theorem rawSet_eq_none_iff {h : Heap} {t : TableId} {key v : Value} :
    h.rawSet t key v = none ↔ key = Value.nil := by
  constructor
  · intro hn
    unfold Heap.rawSet at hn
    split at hn
    · exact absurd hn (by simp)
    · split at hn
      · exact absurd hn (by simp)
      · split at hn
        case isTrue hk => exact (Value.isNil_iff key).1 hk
        case isFalse hk => exact absurd hn (by simp)
  · rintro rfl
    rfl

theorem rawSetOp_spec {h : Heap} (hok : HeapOk h) (t : TableId) (key v : Value) :
    HeapOk (h.rawSetOp t key v).1 ∧ h.Grows (h.rawSetOp t key v).1 ∧
      ((h.rawSetOp t key v).1.world, (h.rawSetOp t key v).2) = h.world.rawSet t key v := by
  unfold Heap.rawSetOp World.rawSet
  cases hset : h.rawSet t key v with
  | none =>
      rw [if_pos (rawSet_eq_none_iff.1 hset)]
      exact ⟨hok, Heap.Grows.refl h, rfl⟩
  | some h' =>
      have hne : key ≠ Value.nil := by
        intro hnil
        rw [rawSet_eq_none_iff.2 hnil] at hset
        exact absurd hset (by simp)
      have hst := rawSet_spec hok hset
      rw [if_neg hne]
      exact ⟨hst.ok, hst.grows, by rw [hst.world]⟩

/-- The read slow path is the read of the world. -/
theorem tableGetSlow_eq {h : Heap} (hok : HeapOk h) (t : TableId) (key : Value) :
    h.tableGetSlow t key = h.world.tableGet t key := by
  unfold Heap.tableGetSlow World.tableGet
  simp only [world_get, Bool.not_eq_true', Value.isNil_eq_false_iff]
  split
  case isTrue hv => rfl
  case isFalse hv =>
    by_cases hf : h.store.field luaTables t (Key.str Metamethod.index.name) = Value.nil
    · have hno := (not_hasMM_iff hok t Metamethod.index).2 hf
      rw [Bool.not_eq_true'] at hno
      rw [if_pos hno]
      exact (if_pos hf).symm
    · have hbit := (hasMM_iff hok t Metamethod.index).2 hf
      obtain ⟨m, hm, hfield⟩ := exists_metatable_of_hasMM hok hbit
      rw [if_neg (by simp [hbit]), hm]
      refine Eq.trans ?_ (if_neg hf).symm
      show indexOutcome key (h.walkIndexLoop key maxTagLoop (Value.table t) _) =
        indexOutcome key (h.store.indexChain luaTables _ _ _ _ _)
      rw [walkIndexLoop_eq hok, ← hfield]
      rfl

theorem userdataGetSlow_eq {h : Heap} (hok : HeapOk h) (u : ℕ) (recv key : Value) :
    h.userdataGetSlow u recv key = h.world.userdataGet u recv key := by
  unfold Heap.userdataGetSlow Heap.userdataIndexChain World.userdataGet
  simp only [world_get]
  show (match (match h.userdataMeta u with | none => none | some mt => _) with
    | none => Outcome.raise
    | some chain => indexOutcome key chain) =
      match h.userdataMeta u with | none => _ | some mt => _
  cases h.userdataMeta u with
  | none => rfl
  | some mt =>
      simp only [Value.isNil_iff]
      by_cases hnil : h.rawGet mt (Value.string Metamethod.index.name) = Value.nil
      · rw [if_pos hnil, if_pos hnil]
      · rw [if_neg hnil, if_neg hnil]
        show indexOutcome key (h.walkIndexLoop key maxTagLoop recv _) =
          indexOutcome key (h.store.indexChain luaTables _ _ _ _ _)
        rw [walkIndexLoop_eq hok]

/-- The write slow path is the write of the world. -/
theorem tableSetSlow_spec {h : Heap} (hok : HeapOk h) (t : TableId) (key v : Value) :
    HeapOk (h.tableSetSlow t key v).1 ∧ h.Grows (h.tableSetSlow t key v).1 ∧
      ((h.tableSetSlow t key v).1.world, (h.tableSetSlow t key v).2) =
        h.world.tableSet t key v := by
  unfold Heap.tableSetSlow World.tableSet Heap.walkNewindexChain
  rw [walkNewindexLoop_eq hok]
  show _ ∧ _ ∧ _ = match h.store.newindexChain luaTables _ _ _ _ with
    | NewIndexChain.rawSet target => _
    | NewIndexChain.invoke func receiver => _
    | NewIndexChain.exhausted => _
  cases h.store.newindexChain luaTables (keyOf key) (Key.str Metamethod.newindex.name) maxTagLoop
      t with
  | rawSet target => exact rawSetOp_spec hok target key v
  | invoke func receiver => exact ⟨hok, Heap.Grows.refl h, rfl⟩
  | exhausted => exact ⟨hok, Heap.Grows.refl h, rfl⟩

/-- A key that is present, or a table without a `__newindex`, takes the write itself. -/
theorem tableSet_self {w : World} {t : TableId} {key : Value} (v : Value)
    (hw : w.get t key ≠ Value.nil ∨
      w.store.field luaTables t (Key.str Metamethod.newindex.name) = Value.nil) :
    w.tableSet t key v = w.rawSet t key v := by
  have hchain : w.store.newindexChain luaTables (keyOf key) (Key.str Metamethod.newindex.name)
      maxTagLoop t = NewIndexChain.rawSet t := by
    show w.store.newindexChain luaTables _ _ (1999 + 1) t = _
    unfold TableStore.newindexChain
    by_cases hv : w.get t key ≠ Value.nil
    · exact if_pos hv
    · rcases hw with hw | hw
      · exact absurd hw hv
      · exact (if_neg hv).trans (if_pos hw)
  unfold World.tableSet
  rw [hchain]

end Tcvm
