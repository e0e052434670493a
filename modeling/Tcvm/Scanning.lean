/-
Visiting matches from left to right.

A finder gives at most one match at each place.  The matches that are visited from a place on are
those that a scan meets which goes on behind each match, and takes none that ends where the last one
ended.  They are determined by the finder, they do not overlap, and there are only so many of them.

* `Visits` — the matches that are visited;
* `exists_visits`, `Visits.unique` — there is one such list;
* `Visits.chain`, `Visits.length_le` — order, and the number of matches;
* `splice`, `replaceEach` — a text with its matches replaced.
-/

import Mathlib.Data.List.Chain

namespace Scanning

variable {α β σ E : Type} {find : ℕ → Option α} {stop : α → ℕ} {n : ℕ}

/-- The matches that are visited from a place on, in a text of `n` places; `last` is where the match
before ended. -/
inductive Visits (find : ℕ → Option α) (stop : α → ℕ) (n : ℕ) :
    ℕ → Option ℕ → List (ℕ × α) → Prop
  | past {pos : ℕ} {last : Option ℕ} (h : n < pos) : Visits find stop n pos last []
  | skip {pos : ℕ} {last : Option ℕ} {xs : List (ℕ × α)} (h : pos ≤ n)
      (hno : ∀ a, find pos = some a → some (stop a) = last)
      (rest : Visits find stop n (pos + 1) last xs) : Visits find stop n pos last xs
  | take {pos : ℕ} {last : Option ℕ} {a : α} {xs : List (ℕ × α)} (h : pos ≤ n)
      (ha : find pos = some a) (hnew : some (stop a) ≠ last)
      (rest : Visits find stop n (stop a) (some (stop a)) xs) :
      Visits find stop n pos last ((pos, a) :: xs)

/-- Matches end in the text, and not in front of where they begin. -/
def Bounded (find : ℕ → Option α) (stop : α → ℕ) (n : ℕ) : Prop :=
  ∀ pos ≤ n, ∀ a, find pos = some a → pos ≤ stop a ∧ stop a ≤ n

/-! ### The list of visits -/

/-- How many rounds a scan has in front of it: two for each place, but one where it took a match
that ends here. -/
def rounds (n pos : ℕ) (last : Option ℕ) : ℕ :=
  2 * (n + 1 - pos) + if last = some pos then 0 else 1

theorem rounds_skip {pos : ℕ} {last : Option ℕ} (h : pos ≤ n) :
    rounds n (pos + 1) last < rounds n pos last := by
  unfold rounds
  split <;> split <;> omega

theorem rounds_take {pos e : ℕ} {last : Option ℕ} (h : pos ≤ n) (hle : pos ≤ e)
    (hnew : some e ≠ last) : rounds n e (some e) < rounds n pos last := by
  unfold rounds
  rw [if_pos rfl]
  split
  case isTrue hlast =>
    have hne : e ≠ pos := fun heq => hnew (by rw [heq, hlast])
    omega
  case isFalse => omega

/-- **There is a list of visits.** -/
theorem exists_visits (hbound : Bounded find stop n) (pos : ℕ) (last : Option ℕ) :
    ∃ xs, Visits find stop n pos last xs := by
  generalize hk : rounds n pos last = k
  induction k using Nat.strongRecOn generalizing pos last with
  | ind k ih =>
      subst hk
      by_cases hpos : n < pos
      · exact ⟨[], Visits.past hpos⟩
      · have hle := Nat.le_of_not_lt hpos
        cases ha : find pos with
        | none =>
            obtain ⟨xs, hxs⟩ := ih _ (rounds_skip hle) (pos + 1) last rfl
            refine ⟨xs, Visits.skip hle (fun a h => ?_) hxs⟩
            rw [ha] at h
            exact nomatch h
        | some a =>
            by_cases hnew : some (stop a) = last
            · obtain ⟨xs, hxs⟩ := ih _ (rounds_skip hle) (pos + 1) last rfl
              refine ⟨xs, Visits.skip hle (fun b h => ?_) hxs⟩
              rw [ha] at h
              rw [← Option.some.inj h]
              exact hnew
            · have hstop := hbound pos hle a ha
              obtain ⟨xs, hxs⟩ := ih _ (rounds_take hle hstop.1 hnew) (stop a) (some (stop a)) rfl
              exact ⟨(pos, a) :: xs, Visits.take hle ha hnew hxs⟩

/-- **The finder determines the visits.** -/
theorem Visits.unique {pos : ℕ} {last : Option ℕ} {xs ys : List (ℕ × α)}
    (h : Visits find stop n pos last xs) (h' : Visits find stop n pos last ys) : xs = ys := by
  induction h generalizing ys with
  | past hlt =>
      cases h' with
      | past => rfl
      | skip hle => exact absurd hlt (Nat.not_lt.mpr hle)
      | take hle => exact absurd hlt (Nat.not_lt.mpr hle)
  | skip hle hno rest ih =>
      cases h' with
      | past hlt => exact absurd hlt (Nat.not_lt.mpr hle)
      | skip _ _ rest' => exact ih rest'
      | take _ ha hnew => exact absurd (hno _ ha) hnew
  | take hle ha hnew rest ih =>
      cases h' with
      | past hlt => exact absurd hlt (Nat.not_lt.mpr hle)
      | skip _ hno => exact absurd (hno _ ha) hnew
      | take _ ha' _ rest' =>
          obtain rfl := Option.some.inj (ha.symm.trans ha')
          rw [ih rest']

theorem Visits.nil_of_past {pos : ℕ} {last : Option ℕ} {xs : List (ℕ × α)}
    (h : Visits find stop n pos last xs) (hlt : n < pos) : xs = [] := h.unique (Visits.past hlt)

/-- What is visited is a match, and not in front of the place. -/
theorem Visits.mem {pos : ℕ} {last : Option ℕ} {xs : List (ℕ × α)}
    (hbound : Bounded find stop n) (h : Visits find stop n pos last xs) :
    ∀ x ∈ xs, pos ≤ x.1 ∧ x.1 ≤ n ∧ find x.1 = some x.2 := by
  induction h with
  | past => exact fun x hx => nomatch hx
  | skip hle hno rest ih =>
      intro x hx
      obtain ⟨hpos, hrest⟩ := ih x hx
      exact ⟨Nat.le_of_succ_le hpos, hrest⟩
  | take hle ha hnew rest ih =>
      intro x hx
      rcases List.mem_cons.mp hx with rfl | hx
      · exact ⟨Nat.le_refl _, hle, ha⟩
      · obtain ⟨hpos, hrest⟩ := ih x hx
        exact ⟨Nat.le_trans (hbound _ hle _ ha).1 hpos, hrest⟩

/-- The first visit does not end where the last match did. -/
theorem Visits.head {pos : ℕ} {last : Option ℕ} {xs : List (ℕ × α)}
    (h : Visits find stop n pos last xs) :
    ∀ x ∈ xs.head?, pos ≤ x.1 ∧ some (stop x.2) ≠ last := by
  induction h with
  | past => exact fun x hx => nomatch hx
  | skip _ _ _ ih => exact fun x hx => ⟨Nat.le_of_succ_le (ih x hx).1, (ih x hx).2⟩
  | take _ _ hnew _ _ =>
      intro x hx
      cases hx
      exact ⟨Nat.le_refl _, hnew⟩

/-- **Visits do not overlap**, and an empty one is not where the one before ends. -/
theorem Visits.chain {pos : ℕ} {last : Option ℕ} {xs : List (ℕ × α)}
    (h : Visits find stop n pos last xs) :
    xs.IsChain fun x y => stop x.2 ≤ y.1 ∧ stop x.2 ≠ stop y.2 := by
  induction h with
  | past => exact List.isChain_nil
  | skip _ _ _ ih => exact ih
  | take _ _ _ rest ih =>
      refine List.isChain_cons.mpr ⟨fun y hy => ?_, ih⟩
      obtain ⟨hle, hne⟩ := rest.head y hy
      exact ⟨hle, fun heq => hne (congrArg some heq.symm)⟩

theorem Visits.length_add_le {pos e : ℕ} {last : Option ℕ} {xs : List (ℕ × α)}
    (hbound : Bounded find stop n) (h : Visits find stop n pos last xs) (hlast : last = some e)
    (hle : e ≤ pos) (hn : e ≤ n) : xs.length + e ≤ n := by
  induction h generalizing e with
  | past => rwa [List.length_nil, Nat.zero_add]
  | skip _ _ _ ih => exact ih hlast (Nat.le_succ_of_le hle) hn
  | take hpos ha hnew rest ih =>
      obtain ⟨hstart, hend⟩ := hbound _ hpos _ ha
      have hrest := ih rfl (Nat.le_refl _) hend
      have hbehind := Nat.lt_of_le_of_ne (Nat.le_trans hle hstart) fun heq =>
        hnew (by rw [hlast, heq])
      rw [List.length_cons]
      omega

/-- **There are no more visits than places**, the one behind the end included. -/
theorem Visits.length_le {pos : ℕ} {xs : List (ℕ × α)} (hbound : Bounded find stop n)
    (h : Visits find stop n pos none xs) : xs.length ≤ n + 1 := by
  generalize hlast : (none : Option ℕ) = last at h
  induction h with
  | past => exact Nat.zero_le _
  | skip _ _ _ ih => exact ih hlast
  | take hpos ha _ rest _ =>
      have hrest := rest.length_add_le hbound rfl (Nat.le_refl _) (hbound _ hpos _ ha).2
      rw [List.length_cons]
      omega

/-! ### Replacing -/

/-- A text with some of its spans replaced, from a place on. -/
def splice (src : List β) : ℕ → List (ℕ × ℕ × List β) → List β
  | pos, [] => src.drop pos
  | pos, (s, e, bytes) :: rest => (src.drop pos).take (s - pos) ++ bytes ++ splice src e rest

/-- An element that is in front of all spans stays. -/
theorem splice_succ {src : List β} {pos : ℕ} {b : β} (hb : src[pos]? = some b)
    {spans : List (ℕ × ℕ × List β)} (h : ∀ x ∈ spans.head?, pos + 1 ≤ x.1) :
    splice src pos spans = b :: splice src (pos + 1) spans := by
  obtain ⟨hlt, rfl⟩ := List.getElem?_eq_some_iff.mp hb
  have hdrop : src.drop pos = src[pos] :: src.drop (pos + 1) := List.drop_eq_getElem_cons hlt
  cases spans with
  | nil => exact hdrop
  | cons x rest =>
      obtain ⟨s, e, bytes⟩ := x
      have hs : s - pos = s - (pos + 1) + 1 := by
        have hle : pos + 1 ≤ s := h _ rfl
        omega
      rw [splice, splice, hdrop, hs, List.take_succ_cons]
      rfl

theorem splice_here {src : List β} {pos e : ℕ} {bytes : List β}
    {spans : List (ℕ × ℕ × List β)} :
    splice src pos ((pos, e, bytes) :: spans) = bytes ++ splice src e spans := by
  rw [splice, Nat.sub_self, List.take_zero, List.nil_append]

/-- The replacements of matches, one after the other. -/
def replaceEach (stop : α → ℕ) (ρ : ℕ → α → σ → Except E (List β × σ)) :
    List (ℕ × α) → σ → Except E (List (ℕ × ℕ × List β) × σ)
  | [], w => Except.ok ([], w)
  | (s, a) :: xs, w =>
      (ρ s a w).bind fun r =>
        (replaceEach stop ρ xs r.2).map fun rs => ((s, stop a, r.1) :: rs.1, rs.2)

/-- **The spans that are replaced are those of the matches.** -/
theorem replaceEach_spans {ρ : ℕ → α → σ → Except E (List β × σ)} {xs : List (ℕ × α)} {w w' : σ}
    {rs : List (ℕ × ℕ × List β)} (h : replaceEach stop ρ xs w = Except.ok (rs, w')) :
    rs.map (fun r => (r.1, r.2.1)) = xs.map fun x => (x.1, stop x.2) := by
  induction xs generalizing w rs with
  | nil =>
      cases h
      rfl
  | cons x xs ih =>
      obtain ⟨s, a⟩ := x
      rw [replaceEach] at h
      cases hr : ρ s a w with
      | error e =>
          rw [hr] at h
          exact nomatch h
      | ok r =>
          rw [hr] at h
          cases hrest : replaceEach stop ρ xs r.2 with
          | error e =>
              rw [Except.bind, hrest] at h
              exact nomatch h
          | ok rs' =>
              rw [Except.bind, hrest] at h
              cases h
              rw [List.map_cons, List.map_cons, ih hrest]

end Scanning
