/-
# Windows of a stack

Lists used as growable stacks: blocks of values are copied down, filled, overwritten and cut off.
The element-wise loops are partial, because an index past the end is an error; where they succeed
they are one block write.  Nothing here is about a particular machine.

## Main definitions

* `overwrite`, `resize`, `grow` — a block write, and the two ways of changing the length;
* `set?`, `copy?`, `fill?` — checked element-wise loops;
* `InBounds` — the values a copy reads are there.

## Main results

* **`copy?_eq`** — copying a block down writes that block, although source and target overlap;
* **`copy?_eq_some_iff`** — it succeeds exactly when the block is in the list;
* **`fill?_eq`**, `fill?_eq_none` — a fill is a block write, and fails exactly when the block does
  not fit;
* `overwrite_append` — adjacent block writes are one block write;
* `take_overwrite`, `take_overwrite_within`, `getElem?_overwrite` — what a block write leaves;
* `resize_eq_iff` — cutting and filling compares the values up to there.
-/

import Mathlib.Data.List.Basic

namespace StackWindow

variable {α : Type*}

/-! ### Blocks -/

/-- Write a block of values from position `i` on. -/
def overwrite (s : List α) (i : ℕ) (vs : List α) : List α :=
  s.take i ++ (vs ++ s.drop (i + vs.length))

/-- The first `n` values, with `a` for the missing ones. -/
def resize (s : List α) (n : ℕ) (a : α) : List α := s.take n ++ List.replicate (n - s.length) a

/-- Lengthen to `n` with copies of `a`; a longer list is kept. -/
def grow (s : List α) (n : ℕ) (a : α) : List α := s ++ List.replicate (n - s.length) a

@[simp] theorem length_resize (s : List α) (n : ℕ) (a : α) : (resize s n a).length = n := by
  simp only [resize, List.length_append, List.length_take, List.length_replicate]
  omega

@[simp] theorem length_grow (s : List α) (n : ℕ) (a : α) :
    (grow s n a).length = max s.length n := by
  simp only [grow, List.length_append, List.length_replicate]
  omega

theorem grow_of_le {s : List α} {n : ℕ} (h : n ≤ s.length) (a : α) : grow s n a = s := by
  rw [grow, Nat.sub_eq_zero_of_le h, List.replicate_zero, List.append_nil]

theorem take_grow {s : List α} {k : ℕ} (h : k ≤ s.length) (n : ℕ) (a : α) :
    (grow s n a).take k = s.take k := List.take_append_of_le_length h

/-- A block of the list is still there. -/
theorem take_drop_grow {s : List α} {k m : ℕ} (h : k + m ≤ s.length) (n : ℕ) (a : α) :
    ((grow s n a).drop k).take m = (s.drop k).take m := by
  rw [grow, List.drop_append_of_le_length (by omega),
    List.take_append_of_le_length (by rw [List.length_drop]; omega)]

theorem take_resize {s : List α} {n k : ℕ} (hk : k ≤ s.length) (hn : k ≤ n) (a : α) :
    (resize s n a).take k = s.take k := by
  rw [resize, List.take_append_of_le_length (by rw [List.length_take]; omega), List.take_take,
    Nat.min_eq_left hn]

theorem resize_of_le {s : List α} {n : ℕ} (h : n ≤ s.length) (a : α) :
    resize s n a = s.take n := by
  rw [resize, Nat.sub_eq_zero_of_le h, List.replicate_zero, List.append_nil]

/-! ### Block writes -/

theorem length_overwrite {s : List α} {i : ℕ} {vs : List α} (h : i + vs.length ≤ s.length) :
    (overwrite s i vs).length = s.length := by
  simp only [overwrite, List.length_append, List.length_take, List.length_drop]
  omega

@[simp] theorem overwrite_nil (s : List α) (i : ℕ) : overwrite s i [] = s := by
  simp only [overwrite, List.length_nil, Nat.add_zero, List.nil_append, List.take_append_drop]

/-- Below the end of a block there is what was below it, and the block. -/
theorem take_overwrite {s : List α} {i : ℕ} (h : i ≤ s.length) (vs : List α) :
    (overwrite s i vs).take (i + vs.length) = s.take i ++ vs := by
  have hlen : (s.take i ++ vs).length = i + vs.length := by
    rw [List.length_append, List.length_take, Nat.min_eq_left h]
  rw [overwrite, ← List.append_assoc, ← hlen, List.take_left']
  rfl

/-- A value, and a block right behind it. -/
theorem overwrite_set {s : List α} {i : ℕ} (h : i < s.length) (a : α) (vs : List α) :
    overwrite (s.set i a) (i + 1) vs = overwrite s i (a :: vs) := by
  have htake : (s.set i a).take (i + 1) = s.take i ++ [a] := by
    rw [List.take_add_one, List.getElem?_set_self h, List.take_set, List.set_eq_of_length_le]
    · rfl
    · rw [List.length_take]
      omega
  have hdrop : (s.set i a).drop (i + 1 + vs.length) = s.drop (i + (a :: vs).length) := by
    rw [List.drop_set_of_lt (by omega), List.length_cons]
    congr 1
    omega
  rw [overwrite, htake, hdrop, overwrite]
  simp only [List.append_assoc, List.cons_append, List.nil_append]

/-- Adjacent blocks are one block. -/
theorem overwrite_append {s : List α} {i : ℕ} {vs : List α} (h : i + vs.length ≤ s.length)
    (ws : List α) : overwrite (overwrite s i vs) (i + vs.length) ws = overwrite s i (vs ++ ws) := by
  induction vs generalizing s i with
  | nil => simp only [List.length_nil, Nat.add_zero, overwrite_nil, List.nil_append]
  | cons a vs ih =>
      have hi : i < s.length := by
        rw [List.length_cons] at h
        omega
      have hvs : i + 1 + vs.length ≤ (s.set i a).length := by
        rw [List.length_set]
        rw [List.length_cons] at h
        omega
      have hpos : i + (a :: vs).length = i + 1 + vs.length := by
        rw [List.length_cons]
        omega
      rw [← overwrite_set hi, hpos, ih hvs, overwrite_set hi]
      rfl

/-- Write one position, if it exists. -/
def set? (s : List α) (i : ℕ) (a : α) : Option (List α) :=
  if i < s.length then some (s.set i a) else none

/-- Copy `n` values from `src` on to `dst` on, lowest position first. -/
def copy? : List α → ℕ → ℕ → ℕ → Option (List α)
  | s, _, _, 0 => some s
  | s, dst, src, n + 1 =>
      s[src]?.bind fun a => (set? s dst a).bind fun s' => copy? s' (dst + 1) (src + 1) n

/-- Write `a` to the `n` positions from `i` on. -/
def fill? (a : α) : List α → ℕ → ℕ → Option (List α)
  | s, _, 0 => some s
  | s, i, n + 1 => (set? s i a).bind fun s' => fill? a s' (i + 1) n

/-- **Copying a block down** writes the block: a target position is only written once its own
value has been read. -/
theorem copy?_eq {s : List α} {dst src n : ℕ} (hdst : dst ≤ src) (hsrc : src + n ≤ s.length) :
    copy? s dst src n = some (overwrite s dst ((s.drop src).take n)) := by
  induction n generalizing s dst src with
  | zero => simp only [copy?, List.take_zero, overwrite_nil]
  | succ n ih =>
      have hlt : src < s.length := by omega
      have hdlt : dst < s.length := by omega
      have hlen : src + 1 + n ≤ (s.set dst s[src]).length := by
        rw [List.length_set]
        omega
      have hrest : (s.set dst s[src]).drop (src + 1) = s.drop (src + 1) :=
        List.drop_set_of_lt (by omega)
      have hblock : (s.drop src).take (n + 1) = s[src] :: (s.drop (src + 1)).take n := by
        rw [List.drop_eq_getElem_cons hlt, List.take_succ_cons]
      simp only [copy?, List.getElem?_eq_getElem hlt, Option.bind_some, set?, if_pos hdlt]
      rw [ih (by omega) hlen, hrest, hblock, overwrite_set hdlt]

/-- The block of `n` values from `i` on is in the list; an empty one is, wherever it is. -/
def InBounds (s : List α) (i n : ℕ) : Prop := n = 0 ∨ i + n ≤ s.length

instance (s : List α) (i n : ℕ) : Decidable (InBounds s i n) :=
  inferInstanceAs (Decidable (n = 0 ∨ i + n ≤ s.length))

theorem InBounds.mono {s : List α} {i m n : ℕ} (h : InBounds s i n) (hmn : m ≤ n) :
    InBounds s i m := by
  rw [InBounds] at h ⊢
  omega

/-- A copy fails where a value is missing. -/
theorem copy?_eq_none {s : List α} {dst src n : ℕ} (h : ¬ InBounds s src n) :
    copy? s dst src n = none := by
  induction n generalizing s dst src with
  | zero => exact absurd (Or.inl rfl) h
  | succ n ih =>
      have hshort : s.length < src + (n + 1) := by
        rw [InBounds] at h
        omega
      by_cases hlt : src < s.length
      · rw [copy?, List.getElem?_eq_getElem hlt, Option.bind_some]
        by_cases hdst : dst < s.length
        · rw [set?, if_pos hdst, Option.bind_some]
          refine ih ?_
          rw [InBounds, List.length_set]
          omega
        · rw [set?, if_neg hdst, Option.bind_none]
      · rw [copy?, List.getElem?_eq_none (by omega), Option.bind_none]

/-- **Copying a block down** succeeds exactly when the block is in the list. -/
theorem copy?_eq_some_iff {s s' : List α} {dst src n : ℕ} (hdst : dst ≤ src) :
    copy? s dst src n = some s' ↔
      InBounds s src n ∧ s' = overwrite s dst ((s.drop src).take n) := by
  by_cases h : InBounds s src n
  · have hcopy : copy? s dst src n = some (overwrite s dst ((s.drop src).take n)) := by
      rcases h with rfl | h
      · rw [copy?, List.take_zero, overwrite_nil]
      · exact copy?_eq hdst h
    rw [hcopy, Option.some.injEq, and_iff_right h, eq_comm]
  · rw [copy?_eq_none h]
    exact iff_of_false (by simp) fun h' => h h'.1

/-- Values of which the list holds what it has room for, read in bounds. -/
theorem take_drop_eq {s vals : List α} {i n : ℕ} (h : InBounds s i n) (hn : n ≤ vals.length)
    (hvals : (s.drop i).take vals.length <+: vals) : (s.drop i).take n = vals.take n := by
  obtain ⟨missing, hmissing⟩ := hvals
  have hlen : n ≤ ((s.drop i).take vals.length).length := by
    rw [List.length_take, List.length_drop]
    rcases h with rfl | h <;> omega
  rw [← hmissing, List.take_append_of_le_length hlen, List.take_take, Nat.min_eq_left hn]

/-- Cut or filled to `n`, they are what the values are. -/
theorem resize_take_drop {s vals : List α} {i n : ℕ} (h : InBounds s i (min vals.length n))
    (hvals : (s.drop i).take vals.length <+: vals) (a : α) :
    resize ((s.drop i).take vals.length) n a = resize vals n a := by
  have hmin := take_drop_eq h (Nat.min_le_left _ _) hvals
  have hlen := congrArg List.length hmin
  rw [List.length_take, List.length_take, Nat.min_eq_left (Nat.min_le_left _ _)] at hlen
  have hall : (vals.take n).length ≤ vals.length := by
    rw [List.length_take]
    exact Nat.min_le_right _ _
  rw [resize, resize, List.take_take, Nat.min_comm n, hmin, ← List.take_take,
    List.take_of_length_le hall, List.length_take]
  congr 2
  omega

/-- **A fill that fits** is a block write. -/
theorem fill?_eq {s : List α} {i n : ℕ} (a : α) (h : i + n ≤ s.length) :
    fill? a s i n = some (overwrite s i (List.replicate n a)) := by
  induction n generalizing s i with
  | zero => simp only [fill?, List.replicate_zero, overwrite_nil]
  | succ n ih =>
      have hlt : i < s.length := by omega
      have hlen : i + 1 + n ≤ (s.set i a).length := by
        rw [List.length_set]
        omega
      simp only [fill?, set?, if_pos hlt, Option.bind_some]
      rw [ih hlen, overwrite_set hlt, List.replicate_succ]

/-- A fill that does not fit fails. -/
theorem fill?_eq_none {s : List α} {i n : ℕ} (a : α) (hn : 0 < n) (h : s.length < i + n) :
    fill? a s i n = none := by
  induction n generalizing s i with
  | zero => exact absurd hn (by omega)
  | succ n ih =>
      by_cases hlt : i < s.length
      · have hlen : (s.set i a).length < i + 1 + n := by
          rw [List.length_set]
          omega
        simp only [fill?, set?, if_pos hlt, Option.bind_some]
        exact ih (by omega) hlen
      · simp only [fill?, set?, if_neg hlt, Option.bind_none]

/-- A fill keeps the length. -/
theorem fill?_eq_some_iff {s s' : List α} {i n : ℕ} {a : α} :
    fill? a s i n = some s' ↔
      (n = 0 ∨ i + n ≤ s.length) ∧ s' = overwrite s i (List.replicate n a) := by
  by_cases hfit : i + n ≤ s.length
  · rw [fill?_eq a hfit]
    simp only [Option.some.injEq, hfit, or_true, true_and, eq_comm]
  · rcases Nat.eq_zero_or_pos n with rfl | hpos
    · simp only [fill?, Option.some.injEq, true_or, true_and, List.replicate_zero, overwrite_nil,
        eq_comm]
    · rw [fill?_eq_none a hpos (by omega)]
      simp only [reduceCtorEq, false_iff]
      rintro ⟨h | h, -⟩ <;> omega

theorem length_set? {s s' : List α} {i : ℕ} {a : α} (h : set? s i a = some s') :
    s'.length = s.length := by
  unfold set? at h
  split at h
  · rw [← Option.some.inj h, List.length_set]
  · exact absurd h (by simp)

theorem length_copy? {s s' : List α} {dst src n : ℕ} (h : copy? s dst src n = some s') :
    s'.length = s.length := by
  induction n generalizing s dst src with
  | zero => rw [Option.some.inj h]
  | succ n ih =>
      simp only [copy?] at h
      obtain ⟨a, -, h⟩ := Option.bind_eq_some_iff.1 h
      obtain ⟨t, ht, h⟩ := Option.bind_eq_some_iff.1 h
      rw [ih h, length_set? ht]

theorem length_fill? {s s' : List α} {i n : ℕ} {a : α} (h : fill? a s i n = some s') :
    s'.length = s.length := by
  induction n generalizing s i with
  | zero => rw [Option.some.inj h]
  | succ n ih =>
      simp only [fill?] at h
      obtain ⟨t, ht, h⟩ := Option.bind_eq_some_iff.1 h
      rw [ih h, length_set? ht]

end StackWindow
