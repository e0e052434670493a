/-
Where a chain of metatable fields ends.

The walks of `Tcvm/TableStore.lean` are bounded; the relations of this module are not.  They say
where reading or writing a key ends by following one link at a time, and count what was followed,
so a chain that goes round in a circle has no end.  A bounded walk is right about every chain that
ends within its bound and gives up on all the others.

* `IndexEnds`, `NewIndexEnds` — the ends of a chain and the number of links to it;
* `IndexEnds.indexChain_eq`, `indexEnds_of_indexChain` — the bounded `__index` walk finds them;
* `indexChain_eq_exhausted_iff` — **it is exhausted exactly by the chains beyond its bound**;
* `NewIndexEnds.newindexChain_eq`, `newIndexEnds_of_newindexChain`,
  `newindexChain_eq_exhausted_iff` — the same for `__newindex`.
-/

import Tcvm.TableStore

section Ends

variable {α κ ν : Type*} (V : TableValues α ν) (get handler : α → ν)

/-- Reading ends at `o` from `receiver`, whose field is `mm`, after `n` fields were followed.
Here `get t` is the raw value of the key in `t`, and `handler t` the field of `t`. -/
inductive IndexEnds : ℕ → ν → ν → IndexChain ν → Prop
  /-- No field: there is nothing under the key. -/
  | nil (receiver : ν) : IndexEnds 0 receiver V.nil (IndexChain.resolved V.nil)
  /-- A field that is no table is called on the object that has it. -/
  | invoke {receiver mm : ν} (hmm : mm ≠ V.nil) (hno : V.asTable mm = none) :
      IndexEnds 1 receiver mm (IndexChain.invoke mm receiver)
  /-- The first table with the key. -/
  | found {receiver mm : ν} {next : α} (hmm : mm ≠ V.nil) (ht : V.asTable mm = some next)
      (hv : get next ≠ V.nil) : IndexEnds 1 receiver mm (IndexChain.resolved (get next))
  /-- A table without the key passes on to its own field. -/
  | hop {receiver mm : ν} {next : α} {n : ℕ} {o : IndexChain ν} (hmm : mm ≠ V.nil)
      (ht : V.asTable mm = some next) (hv : get next = V.nil)
      (hrest : IndexEnds n (V.ofTable next) (handler next) o) : IndexEnds (n + 1) receiver mm o

/-- Writing ends at `o` from `t`, after `n` tables were tried. -/
inductive NewIndexEnds : ℕ → α → NewIndexChain α ν → Prop
  /-- A table with the key takes the write. -/
  | found {t : α} (hv : get t ≠ V.nil) : NewIndexEnds 1 t (NewIndexChain.rawSet t)
  /-- So does the last table. -/
  | last {t : α} (hv : get t = V.nil) (hmm : handler t = V.nil) :
      NewIndexEnds 1 t (NewIndexChain.rawSet t)
  /-- A field that is no table is called on the table that has it. -/
  | invoke {t : α} (hv : get t = V.nil) (hmm : handler t ≠ V.nil)
      (hno : V.asTable (handler t) = none) :
      NewIndexEnds 1 t (NewIndexChain.invoke (handler t) (V.ofTable t))
  /-- A table without the key passes on to its field. -/
  | hop {t next : α} {n : ℕ} {o : NewIndexChain α ν} (hv : get t = V.nil)
      (hmm : handler t ≠ V.nil) (ht : V.asTable (handler t) = some next)
      (hrest : NewIndexEnds n next o) : NewIndexEnds (n + 1) t o

variable {V get handler}

/-- A chain never ends at the bound of a walk. -/
theorem IndexEnds.ne_exhausted {n : ℕ} {receiver mm : ν} {o : IndexChain ν}
    (h : IndexEnds V get handler n receiver mm o) : o ≠ IndexChain.exhausted := by
  induction h with
  | nil receiver => simp
  | invoke hmm hno => simp
  | found hmm ht hv => simp
  | hop hmm ht hv hrest ih => exact ih

/-- Without a field nothing is followed. -/
theorem IndexEnds.of_nil {n : ℕ} {receiver mm : ν} {o : IndexChain ν}
    (h : IndexEnds V get handler n receiver mm o) (hnil : mm = V.nil) :
    o = IndexChain.resolved V.nil := by
  cases h with
  | nil receiver => rfl
  | invoke hmm hno => exact absurd hnil hmm
  | found hmm ht hv => exact absurd hnil hmm
  | hop hmm ht hv hrest => exact absurd hnil hmm

theorem IndexEnds.pos {n : ℕ} {receiver mm : ν} {o : IndexChain ν}
    (h : IndexEnds V get handler n receiver mm o) (hne : mm ≠ V.nil) : 0 < n := by
  cases h with
  | nil receiver => exact absurd rfl hne
  | invoke hmm hno => exact Nat.one_pos
  | found hmm ht hv => exact Nat.one_pos
  | hop hmm ht hv hrest => exact Nat.succ_pos _

theorem NewIndexEnds.ne_exhausted {n : ℕ} {t : α} {o : NewIndexChain α ν}
    (h : NewIndexEnds V get handler n t o) : o ≠ NewIndexChain.exhausted := by
  induction h with
  | found hv => simp
  | last hv hmm => simp
  | invoke hv hmm hno => simp
  | hop hv hmm ht hrest ih => exact ih

end Ends

section Walks

variable {α κ ν : Type*} [DecidableEq ν] {V : TableValues α ν} {st : TableStore α κ ν}
  {key name : κ}

/-! ### Reading -/

/-- A walk whose bound covers the chain ends where the chain does. -/
theorem IndexEnds.indexChain_eq {n : ℕ} {receiver mm : ν} {o : IndexChain ν}
    (h : IndexEnds V (fun t => st.content t key) (fun t => st.field V t name) n receiver mm o)
    {bound : ℕ} (hn : n ≤ bound) (hpos : 0 < bound) :
    st.indexChain V key name bound receiver mm = o := by
  induction h generalizing bound with
  | nil receiver =>
      obtain ⟨k, rfl⟩ : ∃ k, bound = k + 1 := ⟨bound - 1, by omega⟩
      simp [TableStore.indexChain]
  | invoke hmm hno =>
      obtain ⟨k, rfl⟩ : ∃ k, bound = k + 1 := ⟨bound - 1, by omega⟩
      simp only [TableStore.indexChain, if_neg hmm, hno]
  | found hmm ht hv =>
      obtain ⟨k, rfl⟩ : ∃ k, bound = k + 1 := ⟨bound - 1, by omega⟩
      simp only [TableStore.indexChain, if_neg hmm, ht, if_pos hv]
  | @hop receiver mm next n o hmm ht hv hrest ih =>
      obtain ⟨k, rfl⟩ : ∃ k, bound = k + 1 := ⟨bound - 1, by omega⟩
      simp only [TableStore.indexChain, if_neg hmm, ht, if_neg (not_not_intro hv)]
      by_cases hf : st.field V next name = V.nil
      · -- the walk stops a hop early where the next field is missing
        rw [if_pos hf, hrest.of_nil hf]
      · have hlinks := hrest.pos hf
        rw [if_neg hf]
        exact ih (by omega) (by omega)

/-- Where a walk ends within its bound, the chain ends. -/
theorem indexEnds_of_indexChain {bound : ℕ} {receiver mm : ν} {o : IndexChain ν}
    (h : st.indexChain V key name bound receiver mm = o) (ho : o ≠ IndexChain.exhausted) :
    ∃ n ≤ bound,
      IndexEnds V (fun t => st.content t key) (fun t => st.field V t name) n receiver mm o := by
  induction bound generalizing receiver mm with
  | zero => exact absurd h.symm ho
  | succ k ih =>
      rw [TableStore.indexChain] at h
      by_cases hmm : mm = V.nil
      · rw [if_pos hmm] at h
        subst hmm h
        exact ⟨0, Nat.zero_le _, IndexEnds.nil receiver⟩
      · rw [if_neg hmm] at h
        cases ht : V.asTable mm with
        | none =>
            rw [ht] at h
            subst h
            exact ⟨1, by omega, IndexEnds.invoke hmm ht⟩
        | some next =>
            rw [ht] at h
            dsimp only at h
            by_cases hv : st.content next key = V.nil
            · rw [if_neg (not_not_intro hv)] at h
              by_cases hf : st.field V next name = V.nil
              · rw [if_pos hf] at h
                subst h
                refine ⟨1, by omega, IndexEnds.hop hmm ht hv ?_⟩
                rw [hf]
                exact IndexEnds.nil _
              · rw [if_neg hf] at h
                obtain ⟨n, hn, hrest⟩ := ih h
                exact ⟨n + 1, by omega, IndexEnds.hop hmm ht hv hrest⟩
            · rw [if_pos hv] at h
              subst h
              exact ⟨1, by omega, IndexEnds.found hmm ht hv⟩

/-- **A walk is exhausted exactly when the chain has no end within its bound.** -/
theorem indexChain_eq_exhausted_iff {bound : ℕ} (hpos : 0 < bound) {receiver mm : ν} :
    st.indexChain V key name bound receiver mm = IndexChain.exhausted ↔
      ∀ n o, IndexEnds V (fun t => st.content t key) (fun t => st.field V t name) n receiver mm o →
        bound < n := by
  constructor
  · intro h n o hends
    by_contra hn
    exact hends.ne_exhausted ((hends.indexChain_eq (Nat.le_of_not_lt hn) hpos).symm.trans h)
  · intro h
    by_contra hne
    obtain ⟨n, hn, hends⟩ := indexEnds_of_indexChain rfl hne
    exact absurd (h n _ hends) (Nat.not_lt.2 hn)

/-! ### Writing -/

theorem NewIndexEnds.newindexChain_eq {n : ℕ} {t : α} {o : NewIndexChain α ν}
    (h : NewIndexEnds V (fun t => st.content t key) (fun t => st.field V t name) n t o)
    {bound : ℕ} (hn : n ≤ bound) : st.newindexChain V key name bound t = o := by
  induction h generalizing bound with
  | found hv =>
      obtain ⟨k, rfl⟩ : ∃ k, bound = k + 1 := ⟨bound - 1, by omega⟩
      simp only [TableStore.newindexChain, if_pos hv]
  | last hv hmm =>
      obtain ⟨k, rfl⟩ : ∃ k, bound = k + 1 := ⟨bound - 1, by omega⟩
      simp only [TableStore.newindexChain, if_neg (not_not_intro hv), if_pos hmm]
  | invoke hv hmm hno =>
      obtain ⟨k, rfl⟩ : ∃ k, bound = k + 1 := ⟨bound - 1, by omega⟩
      simp only [TableStore.newindexChain, if_neg (not_not_intro hv), if_neg hmm, hno]
  | hop hv hmm ht hrest ih =>
      obtain ⟨k, rfl⟩ : ∃ k, bound = k + 1 := ⟨bound - 1, by omega⟩
      simp only [TableStore.newindexChain, if_neg (not_not_intro hv), if_neg hmm, ht]
      exact ih (by omega)

theorem newIndexEnds_of_newindexChain {bound : ℕ} {t : α} {o : NewIndexChain α ν}
    (h : st.newindexChain V key name bound t = o) (ho : o ≠ NewIndexChain.exhausted) :
    ∃ n ≤ bound,
      NewIndexEnds V (fun t => st.content t key) (fun t => st.field V t name) n t o := by
  induction bound generalizing t with
  | zero => exact absurd h.symm ho
  | succ k ih =>
      rw [TableStore.newindexChain] at h
      by_cases hv : st.content t key = V.nil
      · rw [if_neg (not_not_intro hv)] at h
        by_cases hmm : st.field V t name = V.nil
        · rw [if_pos hmm] at h
          subst h
          exact ⟨1, by omega, NewIndexEnds.last hv hmm⟩
        · rw [if_neg hmm] at h
          cases ht : V.asTable (st.field V t name) with
          | none =>
              rw [ht] at h
              subst h
              exact ⟨1, by omega, NewIndexEnds.invoke hv hmm ht⟩
          | some next =>
              rw [ht] at h
              obtain ⟨n, hn, hrest⟩ := ih h
              exact ⟨n + 1, by omega, NewIndexEnds.hop hv hmm ht hrest⟩
      · rw [if_pos hv] at h
        subst h
        exact ⟨1, by omega, NewIndexEnds.found hv⟩

/-- **A walk is exhausted exactly when the chain has no end within its bound.** -/
theorem newindexChain_eq_exhausted_iff {bound : ℕ} {t : α} :
    st.newindexChain V key name bound t = NewIndexChain.exhausted ↔
      ∀ n o, NewIndexEnds V (fun t => st.content t key) (fun t => st.field V t name) n t o →
        bound < n := by
  constructor
  · intro h n o hends
    by_contra hn
    exact hends.ne_exhausted ((hends.newindexChain_eq (Nat.le_of_not_lt hn)).symm.trans h)
  · intro h
    by_contra hne
    obtain ⟨n, hn, hends⟩ := newIndexEnds_of_newindexChain rfl hne
    exact absurd (h n _ hends) (Nat.not_lt.2 hn)

end Walks
