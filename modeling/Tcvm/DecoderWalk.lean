/-
Walks of a decoder.

A decoder reads one item at a position and says where the next one starts.  A walk reads items one
after another until it has reached the bound, or a position where nothing can be read.  Nothing
here is about a particular program.

* `Walk` — the items that are read from a position on, and the position where the walk is stuck;
* `exists_walk`, `Walk.unique` — there is one walk from each position;
* `Walk.restrict`, `Walk.behind` — **a part of a walk is a walk**;
* `Walk.next` — the starts of a walk that ends follow one another.
-/

import Mathlib.Data.List.Basic

namespace DecoderWalk

variable {α : Type*} {dec : ℕ → Option (α × ℕ)} {bound bound' pos : ℕ} {items items' : List (ℕ × α)}
  {stuck stuck' : Option ℕ}

/-- From `pos` on the items are read, each with its position; `stuck` is the position in front of
the bound where nothing can be read. -/
inductive Walk (dec : ℕ → Option (α × ℕ)) (bound : ℕ) : ℕ → List (ℕ × α) → Option ℕ → Prop
  | ends {pos : ℕ} : bound ≤ pos → Walk dec bound pos [] none
  | stuck {pos : ℕ} : pos < bound → dec pos = none → Walk dec bound pos [] (some pos)
  | item {pos next : ℕ} {a : α} {items : List (ℕ × α)} {stuck : Option ℕ} : pos < bound →
      dec pos = some (a, next) → Walk dec bound next items stuck →
      Walk dec bound pos ((pos, a) :: items) stuck

/-- What is read lies behind the position. -/
def Advances (dec : ℕ → Option (α × ℕ)) : Prop :=
  ∀ pos a next, dec pos = some (a, next) → pos < next

theorem Walk.unique (h : Walk dec bound pos items stuck) (h' : Walk dec bound pos items' stuck') :
    items = items' ∧ stuck = stuck' := by
  induction h generalizing items' with
  | ends hpos =>
      cases h' with
      | ends => exact ⟨rfl, rfl⟩
      | stuck hlt | item hlt => exact absurd hlt (Nat.not_lt.2 hpos)
  | stuck hlt hdec =>
      cases h' with
      | ends hpos => exact absurd hlt (Nat.not_lt.2 hpos)
      | stuck => exact ⟨rfl, rfl⟩
      | item _ hdec' =>
          rw [hdec] at hdec'
          cases hdec'
  | item hlt hdec _ ih =>
      cases h' with
      | ends hpos => exact absurd hlt (Nat.not_lt.2 hpos)
      | stuck _ hdec' =>
          rw [hdec] at hdec'
          cases hdec'
      | item _ hdec' htail =>
          rw [hdec] at hdec'
          cases hdec'
          obtain ⟨rfl, rfl⟩ := ih htail
          exact ⟨rfl, rfl⟩

theorem exists_walk (hdec : Advances dec) (bound pos : ℕ) :
    ∃ items stuck, Walk dec bound pos items stuck := by
  -- the distance to the bound falls
  generalize hn : bound - pos = n
  induction n using Nat.strongRecOn generalizing pos with
  | _ n ih =>
      by_cases hlt : pos < bound
      · cases hread : dec pos with
        | none => exact ⟨[], some pos, Walk.stuck hlt hread⟩
        | some r =>
            have hnext := hdec pos r.1 r.2 hread
            obtain ⟨items, stuck, htail⟩ := ih (bound - r.2) (by omega) r.2 rfl
            exact ⟨(pos, r.1) :: items, stuck, Walk.item hlt hread htail⟩
      · exact ⟨[], none, Walk.ends (Nat.not_lt.1 hlt)⟩

/-! ### Positions -/

theorem Walk.le_of_mem (hdec : Advances dec) (h : Walk dec bound pos items stuck) {r : ℕ × α}
    (hr : r ∈ items) : pos ≤ r.1 := by
  induction h with
  | ends | stuck => exact absurd hr List.not_mem_nil
  | item _ hread _ ih =>
      rcases List.mem_cons.1 hr with rfl | hr
      · exact Nat.le_refl _
      · exact Nat.le_of_lt (Nat.lt_of_lt_of_le (hdec _ _ _ hread) (ih hr))

theorem Walk.le_stuck (hdec : Advances dec) {p : ℕ} (h : Walk dec bound pos items (some p)) :
    pos ≤ p := by
  generalize hstuck : some p = stuck at h
  induction h with
  | ends => cases hstuck
  | stuck =>
      cases hstuck
      exact Nat.le_refl _
  | item _ hread _ ih => exact Nat.le_of_lt (Nat.lt_of_lt_of_le (hdec _ _ _ hread) (ih hstuck))

theorem Walk.length_le (hdec : Advances dec) (h : Walk dec bound pos items stuck) :
    items.length ≤ bound - pos := by
  induction h with
  | ends | stuck => exact Nat.zero_le _
  | item hlt hread _ ih =>
      have hnext := hdec _ _ _ hread
      rw [List.length_cons]
      omega

/-! ### Parts of a walk -/

/-- **With a smaller bound** the walk stops sooner. -/
theorem Walk.restrict (hdec : Advances dec) (hbound : bound' ≤ bound)
    (h : Walk dec bound pos items stuck) :
    Walk dec bound' pos (items.filter fun r => r.1 < bound')
      (stuck.filter fun p => p < bound') := by
  induction h with
  | ends hpos => exact Walk.ends (Nat.le_trans hbound hpos)
  | @stuck pos hlt hread =>
      by_cases hlt' : pos < bound'
      · rw [Option.filter_some, if_pos (decide_eq_true hlt')]
        exact Walk.stuck hlt' hread
      · rw [Option.filter_some, if_neg (by simpa using hlt')]
        exact Walk.ends (Nat.not_lt.1 hlt')
  | @item pos next a items stuck hlt hread htail ih =>
      by_cases hlt' : pos < bound'
      · rw [List.filter_cons, if_pos (decide_eq_true hlt')]
        exact Walk.item hlt' hread ih
      · -- nothing of the rest is in front of the bound
        have hnext := hdec _ _ _ hread
        have hrest : items.filter (fun r => r.1 < bound') = [] := by
          refine List.filter_eq_nil_iff.2 fun r hr hlt => ?_
          have hle := htail.le_of_mem hdec hr
          have hlt := of_decide_eq_true hlt
          omega
        have hstuck : stuck.filter (fun p => p < bound') = none := by
          refine Option.filter_eq_none_iff.2 fun p hp hlt => ?_
          subst hp
          have hle := htail.le_stuck hdec
          have hlt := of_decide_eq_true hlt
          omega
        rw [List.filter_cons, if_neg (by simpa using hlt'), hrest, hstuck]
        exact Walk.ends (Nat.not_lt.1 hlt')

/-- The positions where the walk reads, and the one where it stops. -/
def starts (items : List (ℕ × α)) (last : ℕ) : List ℕ := items.map Prod.fst ++ [last]

/-- **From a later start** the walk is the rest of it. -/
theorem Walk.behind (hdec : Advances dec) (h : Walk dec bound pos items stuck) {start : ℕ}
    (hstart : start ∈ starts items (stuck.getD bound)) :
    Walk dec bound start (items.filter fun r => start ≤ r.1) stuck := by
  induction h with
  | ends hpos =>
      obtain rfl := List.mem_singleton.1 hstart
      exact Walk.ends (Nat.le_refl _)
  | stuck hlt hread =>
      obtain rfl := List.mem_singleton.1 hstart
      exact Walk.stuck hlt hread
  | @item pos next a items stuck hlt hread htail ih =>
      have hnext := hdec _ _ _ hread
      rcases List.mem_cons.1 hstart with rfl | hstart
      · -- the walk itself
        have hall : ∀ r ∈ (start, a) :: items, decide (start ≤ r.1) = true := by
          intro r hr
          exact decide_eq_true ((Walk.item hlt hread htail).le_of_mem hdec hr)
        rw [List.filter_eq_self.2 hall]
        exact Walk.item hlt hread htail
      · have hbehind : pos < start := by
          rcases List.mem_append.1 hstart with hmem | hlast
          · obtain ⟨r, hr, rfl⟩ := List.mem_map.1 hmem
            exact Nat.lt_of_lt_of_le hnext (htail.le_of_mem hdec hr)
          · obtain rfl := List.mem_singleton.1 hlast
            cases stuck with
            | none => exact hlt
            | some p => exact Nat.lt_of_lt_of_le hnext (htail.le_stuck hdec)
        have hhead : ¬ decide (start ≤ pos) = true := by simpa using hbehind
        rw [List.filter_cons, if_neg hhead]
        exact ih hstart

/-! ### Walks that end -/

/-- The decoder stays in front of the bound. -/
def FitsIn (dec : ℕ → Option (α × ℕ)) (bound : ℕ) : Prop :=
  ∀ pos a next, dec pos = some (a, next) → next ≤ bound

theorem Walk.first (h : Walk dec bound pos items none) (hpos : pos ≤ bound) :
    (starts items bound)[0]? = some pos := by
  cases h with
  | ends hle =>
      obtain rfl := Nat.le_antisymm hpos hle
      rfl
  | item => rfl

/-- **The next start** is where the item ends. -/
theorem Walk.next (hfits : FitsIn dec bound) (h : Walk dec bound pos items none) :
    ∀ {k : ℕ} {r : ℕ × α}, items[k]? = some r →
      ∃ next, dec r.1 = some (r.2, next) ∧ (starts items bound)[k + 1]? = some next := by
  generalize hstuck : none = stuck at h
  induction h with
  | ends =>
      intro k r hr
      cases hr
  | stuck => cases hstuck
  | @item pos next a items stuck hlt hread htail ih =>
      intro k r hr
      subst hstuck
      cases k with
      | zero =>
          obtain rfl := Option.some.inj hr
          exact ⟨next, hread, htail.first (hfits _ _ _ hread)⟩
      | succ k => exact ih rfl hr

end DecoderWalk
