/-
What a heap of tables is for: finite maps with metatables.

This module states the purpose of the table implementation in its own terms, over arbitrary types
of addresses, keys and values.  A store gives every table its contents and, possibly, a metatable;
writing a key and replacing a metatable are pointwise updates.  The metamethod tests and the
`__index` and `__newindex` chains are defined from these two maps alone, so an implementation that
refines the store, however it lays out its tables and whatever it caches, takes the same
decisions.

* `TableStore`, `TableStore.set`, `TableStore.setMetatable` — the store and its updates;
* `TableStore.field?`, `TableStore.field` — the metamethod a table's metatable defines;
* `IndexChain`, `TableStore.indexChain` — the bounded `__index` walk;
* `NewIndexChain`, `TableStore.newindexChain` — the bounded `__newindex` walk.
-/

import Mathlib.Data.Nat.Notation
import Mathlib.Logic.Function.Basic

/-- Tables `α` with contents `κ → ν` and metatables. -/
@[ext] structure TableStore (α κ ν : Type*) where
  /-- The value under a key. -/
  content : α → κ → ν
  /-- The metatable. -/
  metatable : α → Option α

namespace TableStore

variable {α κ ν : Type*}

section Updates

variable [DecidableEq α]

/-- Replace the metatable of one table. -/
def setMetatable (st : TableStore α κ ν) (t : α) (m : Option α) : TableStore α κ ν :=
  { st with metatable := Function.update st.metatable t m }

@[simp] theorem content_setMetatable (st : TableStore α κ ν) (t : α) (m : Option α) :
    (st.setMetatable t m).content = st.content := rfl

theorem metatable_setMetatable (st : TableStore α κ ν) (t t' : α) (m : Option α) :
    (st.setMetatable t m).metatable t' = if t' = t then m else st.metatable t' := by
  unfold setMetatable
  by_cases ht : t' = t
  · subst ht; simp
  · simp [ht]

variable [DecidableEq κ]

/-- Write one key of one table. -/
def set (st : TableStore α κ ν) (t : α) (k : κ) (v : ν) : TableStore α κ ν :=
  { st with content := Function.update st.content t (Function.update (st.content t) k v) }

@[simp] theorem metatable_set (st : TableStore α κ ν) (t : α) (k : κ) (v : ν) :
    (st.set t k v).metatable = st.metatable := rfl

theorem content_set (st : TableStore α κ ν) (t t' : α) (k k' : κ) (v : ν) :
    (st.set t k v).content t' k' = if t' = t ∧ k' = k then v else st.content t' k' := by
  unfold set
  by_cases ht : t' = t
  · subst ht
    by_cases hk : k' = k
    · subst hk; simp
    · simp [hk]
  · simp [ht]

end Updates

/-- The contents of `t`'s metatable under `name`, when there is a metatable. -/
def field? (st : TableStore α κ ν) (t : α) (name : κ) : Option ν :=
  (st.metatable t).map fun m => st.content m name

end TableStore

/-! ### Chains -/

/-- How values speak of tables: which value says that there is nothing, which values are tables,
and the value a table is. -/
structure TableValues (α ν : Type*) where
  nil : ν
  asTable : ν → Option α
  ofTable : α → ν

/-- Where reading a key through metatables ends. -/
inductive IndexChain (ν : Type*)
  /-- At a value. -/
  | resolved (v : ν)
  /-- At a callable, to be invoked on `receiver` and the key. -/
  | invoke (func receiver : ν)
  /-- Beyond the bound. -/
  | exhausted
  deriving DecidableEq

/-- Where writing a key through metatables ends. -/
inductive NewIndexChain (α ν : Type*)
  /-- At a table, to be written directly. -/
  | rawSet (t : α)
  /-- At a callable, to be invoked on `receiver`, the key and the value. -/
  | invoke (func receiver : ν)
  /-- Beyond the bound. -/
  | exhausted
  deriving DecidableEq

namespace TableStore

variable {α κ ν : Type*} [DecidableEq ν] (V : TableValues α ν) (st : TableStore α κ ν)

/-- The metamethod a table defines under `name`; nothing when it has no metatable. -/
def field (t : α) (name : κ) : ν := (st.field? t name).getD V.nil

/-- Walk the `name` fields from `mm` on, with at most the given number of hops. -/
def indexChain (key name : κ) : ℕ → ν → ν → IndexChain ν
  | 0, _, _ => IndexChain.exhausted
  | n + 1, receiver, mm =>
      if mm = V.nil then IndexChain.resolved V.nil
      else
        match V.asTable mm with
        | none => IndexChain.invoke mm receiver
        | some next =>
            if st.content next key ≠ V.nil then IndexChain.resolved (st.content next key)
            else if st.field V next name = V.nil then IndexChain.resolved V.nil
            else indexChain key name n (V.ofTable next) (st.field V next name)

/-- Walk the `name` fields from the table `t` on, to the table that takes the write. -/
def newindexChain (key name : κ) : ℕ → α → NewIndexChain α ν
  | 0, _ => NewIndexChain.exhausted
  | n + 1, t =>
      if st.content t key ≠ V.nil then NewIndexChain.rawSet t
      else if st.field V t name = V.nil then NewIndexChain.rawSet t
      else
        match V.asTable (st.field V t name) with
        | some next => newindexChain key name n next
        | none => NewIndexChain.invoke (st.field V t name) (V.ofTable t)

end TableStore
