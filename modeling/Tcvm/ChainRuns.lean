/-
The chains of every heap a run reaches.

The interpreter walks a chain with raw reads and metamethod bits, and reads the metatable of a
table without a check once the bit is set.  On every heap a run reaches, the bits are exact, so
the walks end where the chains of metatable fields end, and the unchecked reads find a metatable.

* `Heap.metafield` — the field of a table's metatable;
* `Heap.ReadEnds`, `Heap.WriteEnds` — where reading and writing a key of the heap ends;
* `ChainsExact`, `HeapOk.chainsExact` — the walks against these ends;
* **`index_chains_exact`** — they agree on every heap a run reaches.
-/

import Tcvm.ChainEnds
import Tcvm.TableRuns

namespace Tcvm

/-! ### The chains of a heap -/

namespace Heap

variable (h : Heap)

/-- The field of a table's metatable; nil when there is no metatable. -/
def metafield (t : TableId) (mm : Metamethod) : Value :=
  match (h.tables t).metatable with
  | some m => h.rawGet m (Value.string mm.name)
  | none => Value.nil

/-- Reading `key` ends at `o` from `receiver`, whose `__index` is `mm`, after `n` fields. -/
def ReadEnds (key : Value) (n : ℕ) (receiver mm : Value) (o : IndexChain Value) : Prop :=
  IndexEnds luaTables (fun t => h.rawGet t key) (fun t => h.metafield t Metamethod.index) n
    receiver mm o

/-- Writing `key` to `t` ends at `o` after `n` tables. -/
def WriteEnds (key : Value) (n : ℕ) (t : TableId) (o : NewIndexChain TableId Value) : Prop :=
  NewIndexEnds luaTables (fun t => h.rawGet t key)
    (fun t => h.metafield t Metamethod.newindex) n t o

end Heap

section Exact

variable {h : Heap}

/-- The fields of a heap are those of its store. -/
theorem metafield_eq (t : TableId) (mm : Metamethod) :
    h.metafield t mm = h.store.field luaTables t (Key.str mm.name) := by
  unfold Heap.metafield TableStore.field TableStore.field?
  change _ = ((h.tables t).metatable.map fun m => h.store.content m (Key.str mm.name)).getD _
  cases (h.tables t).metatable with
  | none => rfl
  | some m => exact Heap.rawGet_string h m mm.name

theorem readEnds_iff {key : Value} {n : ℕ} {receiver mm : Value} {o : IndexChain Value} :
    h.ReadEnds key n receiver mm o ↔
      IndexEnds luaTables (fun t => h.store.content t (keyOf key))
        (fun t => h.store.field luaTables t (Key.str Metamethod.index.name)) n receiver mm o := by
  simp only [Heap.ReadEnds, metafield_eq, Heap.rawGet_eq]

theorem writeEnds_iff {key : Value} {n : ℕ} {t : TableId} {o : NewIndexChain TableId Value} :
    h.WriteEnds key n t o ↔
      NewIndexEnds luaTables (fun t => h.store.content t (keyOf key))
        (fun t => h.store.field luaTables t (Key.str Metamethod.newindex.name)) n t o := by
  simp only [Heap.WriteEnds, metafield_eq, Heap.rawGet_eq]

/-- The walks of a heap against the ends of its chains. -/
structure ChainsExact (h : Heap) : Prop where
  /-- The `__index` walk from the metatable `mt` ends where its chain ends. -/
  index : ∀ (key receiver : Value) (mt : TableId) (o : IndexChain Value),
    o ≠ IndexChain.exhausted →
      (h.walkIndexChain receiver mt key = o ↔
        ∃ n ≤ maxTagLoop,
          h.ReadEnds key n receiver (h.rawGet mt (Value.string Metamethod.index.name)) o)
  /-- It is exhausted by the chains beyond the bound, endless ones among them, and no others. -/
  indexExhausted : ∀ (key receiver : Value) (mt : TableId),
    h.walkIndexChain receiver mt key = IndexChain.exhausted ↔
      ∀ n o, h.ReadEnds key n receiver (h.rawGet mt (Value.string Metamethod.index.name)) o →
        maxTagLoop < n
  newindex : ∀ (key : Value) (t : TableId) (o : NewIndexChain TableId Value),
    o ≠ NewIndexChain.exhausted →
      (h.walkNewindexChain t key = o ↔ ∃ n ≤ maxTagLoop, h.WriteEnds key n t o)
  newindexExhausted : ∀ (key : Value) (t : TableId),
    h.walkNewindexChain t key = NewIndexChain.exhausted ↔
      ∀ n o, h.WriteEnds key n t o → maxTagLoop < n
  /-- Where a bit is set the metatable that is read without a check is there. -/
  unchecked : ∀ (t : TableId) (mm : Metamethod), h.hasMM (h.tables t).shape mm = true →
    ∃ m, (h.tables t).metatable = some m

theorem maxTagLoop_pos : 0 < maxTagLoop := by decide

/-- On a well-formed heap the walks end where the chains do. -/
theorem HeapOk.chainsExact (hok : HeapOk h) : ChainsExact h := by
  refine ⟨?_, ?_, ?_, ?_, ?_⟩
  · intro key receiver mt o ho
    unfold Heap.walkIndexChain
    rw [walkIndexLoop_eq hok]
    constructor
    · intro hwalk
      obtain ⟨n, hn, hends⟩ := indexEnds_of_indexChain hwalk ho
      exact ⟨n, hn, readEnds_iff.2 hends⟩
    · rintro ⟨n, hn, hends⟩
      exact (readEnds_iff.1 hends).indexChain_eq hn maxTagLoop_pos
  · intro key receiver mt
    unfold Heap.walkIndexChain
    rw [walkIndexLoop_eq hok, indexChain_eq_exhausted_iff maxTagLoop_pos]
    simp only [readEnds_iff]
  · intro key t o ho
    unfold Heap.walkNewindexChain
    rw [walkNewindexLoop_eq hok]
    constructor
    · intro hwalk
      obtain ⟨n, hn, hends⟩ := newIndexEnds_of_newindexChain hwalk ho
      exact ⟨n, hn, writeEnds_iff.2 hends⟩
    · rintro ⟨n, hn, hends⟩
      exact (writeEnds_iff.1 hends).newindexChain_eq hn
  · intro key t
    unfold Heap.walkNewindexChain
    rw [walkNewindexLoop_eq hok, newindexChain_eq_exhausted_iff]
    simp only [writeEnds_iff]
  · intro t mm hmm
    obtain ⟨m, hm, -⟩ := exists_metatable_of_hasMM hok hmm
    exact ⟨m, hm⟩

end Exact

/-! ### Runs -/

/-- **The chains of every heap a run reaches**: both walks end within their bound, where the chain
of metatable fields ends, and give up only on the chains that are longer. -/
theorem index_chains_exact {ι : Type*} [DecidableEq ι] (keyAt : ι → LuaString) (ops : List (Op ι))
    (gc : ℕ → ShapeId → Bool) :
    ChainsExact ((cachedMachine keyAt).run (Vm.boot ι) (schedule gc ops)).1.heap :=
  (run_presents keyAt ops gc).chainsExact

end Tcvm
