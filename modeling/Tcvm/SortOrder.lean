/-
# `table.sort` with an order

When the comparator of `table.sort` answers by a strict weak order, two indices are in an interval
that is left to sort, or not in the wrong order; the scans know which side of the pivot the
elements are on that they have passed, and stop at the median and at the pivot.

## Main definitions

* `LessAt`, `AtMost` — the order of the elements at two indices;
* `Separated`, `SortPc.Known`, `SortState.Ordered` — what has been established;
* `ConsistentAnswer` — an answer by an order.

## Main results

* `Separated.swap` — a swap inside of an interval;
* `SortMove.ordered` — **a move** that a consistent comparator answers;
* **`sort_correct`** — the function, over all comparators.
-/

import Mathlib.Logic.Equiv.Basic
import Tcvm.TableSort

namespace Tcvm

variable {α : Type*}

/-! ### Order -/

/-- The element at an index is less than the one at another index. -/
def LessAt (lt : α → α → Prop) (a : List α) (x y : ℕ) : Prop :=
  ∃ v w, elementAt a x = some v ∧ elementAt a y = some w ∧ lt v w

/-- The elements at two indices are not in the wrong order. -/
def AtMost (lt : α → α → Prop) (a : List α) (x y : ℕ) : Prop := ¬ LessAt lt a y x

section Positions

variable {lt : α → α → Prop} [IsStrictWeakOrder α lt] {a a' : List α} {x y z : ℕ}

theorem atMost_refl (lt : α → α → Prop) [IsStrictWeakOrder α lt] (a : List α) (x : ℕ) :
    AtMost lt a x x := by
  rintro ⟨v, w, hv, hw, hlt⟩
  obtain rfl := Option.some.inj (hv.symm.trans hw)
  exact irrefl_of lt v hlt

theorem LessAt.atMost (h : LessAt lt a x y) : AtMost lt a x y := by
  obtain ⟨v, w, hv, hw, hlt⟩ := h
  rintro ⟨w', v', hw', hv', hlt'⟩
  obtain rfl := Option.some.inj (hv.symm.trans hv')
  obtain rfl := Option.some.inj (hw.symm.trans hw')
  exact asymm_of lt hlt hlt'

/-- In a strict weak order, an element is on one side of two that are ordered. -/
theorem lt_or_lt {u v : α} (h : lt u v) (w : α) : lt u w ∨ lt w v := by
  by_contra hnot
  obtain ⟨huw, hwv⟩ := not_or.1 hnot
  have hwu : ¬ lt w u := fun hwu => hwv (trans_of lt hwu h)
  have hvw : ¬ lt v w := fun hvw => huw (trans_of lt h hvw)
  exact (IsStrictWeakOrder.incomp_trans u w v ⟨huw, hwu⟩ ⟨hwv, hvw⟩).1 h

theorem AtMost.trans (h : AtMost lt a x y) (h' : AtMost lt a y z) (hy : 1 ≤ y)
    (hlen : y ≤ a.length) : AtMost lt a x z := by
  rintro ⟨w, u, hw, hu, hlt⟩
  obtain ⟨v, hv, -⟩ := elementAt_of_mem hy hlen
  rcases lt_or_lt hlt v with hwv | hvu
  · exact h' ⟨w, v, hw, hv, hwv⟩
  · exact h ⟨v, u, hv, hu, hvu⟩

end Positions

section Swaps

variable {lt : α → α → Prop} {a a' : List α} {x y : ℕ}

/-- A swap exchanges two indices. -/
theorem elementAt_sortSwap (h : sortSwap a x y = some a') (z : ℕ) :
    elementAt a' z = elementAt a (Equiv.swap x y z) := by
  obtain ⟨vx, hvx, h⟩ := Option.bind_eq_some_iff.1 h
  obtain ⟨vy, hvy, rfl⟩ := Option.map_eq_some_iff.1 h
  have hpos : ∀ {z : ℕ} {v : α}, elementAt a z = some v → 1 ≤ z ∧ z - 1 < a.length := by
    intro z v hz
    unfold elementAt at hz
    split at hz
    · next hle => exact ⟨hle, (List.getElem?_eq_some_iff.1 hz).1⟩
    · exact absurd hz (by simp)
  obtain ⟨hx, hxlen⟩ := hpos hvx
  obtain ⟨hy, hylen⟩ := hpos hvy
  rw [Equiv.swap_apply_def]
  split
  · next heq =>
      subst heq
      rw [hvy]
      unfold elementAt
      rw [if_pos hx]
      by_cases hxy : y = z
      · subst hxy
        rw [List.getElem?_set_self (by rwa [List.length_set])]
        rw [← hvx, hvy]
      · rw [List.getElem?_set_ne (by omega), List.getElem?_set_self hxlen]
  · next hzx =>
      split
      · next heq =>
          subst heq
          rw [hvx]
          unfold elementAt
          rw [if_pos hy, List.getElem?_set_self (by rwa [List.length_set])]
      · next hzy =>
          unfold elementAt
          split
          · rw [List.getElem?_set_ne (by omega), List.getElem?_set_ne (by omega)]
          · rfl

theorem atMost_sortSwap (h : sortSwap a x y = some a') (u v : ℕ) :
    AtMost lt a' u v ↔ AtMost lt a (Equiv.swap x y u) (Equiv.swap x y v) := by
  unfold AtMost LessAt
  rw [elementAt_sortSwap h, elementAt_sortSwap h]

/-- Two intervals have no index in common. -/
def Apart (v w : ℕ × ℕ) : Prop := v.2 < w.1 ∨ w.2 < v.1

/-- Two indices are in an interval that is left to sort, or not in the wrong order. -/
def Separated (lt : α → α → Prop) (a : List α) (ws : List (ℕ × ℕ)) : Prop :=
  ∀ k l, 1 ≤ k → k < l → l ≤ a.length → (∃ w ∈ ws, w.1 ≤ k ∧ l ≤ w.2) ∨ AtMost lt a k l

/-- A swap inside of an interval. -/
theorem Separated.swap {lo up : ℕ} {work : List (ℕ × ℕ)} (h : Separated lt a ((lo, up) :: work))
    (hapart : ∀ w ∈ work, Apart (lo, up) w) (hlo : 1 ≤ lo) (hlen : up ≤ a.length)
    (hx : lo ≤ x ∧ x ≤ up) (hy : lo ≤ y ∧ y ≤ up) (hswap : sortSwap a x y = some a') :
    Separated lt a' ((lo, up) :: work) := by
  have hlength : a'.length = a.length := (sortSwap_perm hswap).length_eq
  have hinside : ∀ z, lo ≤ z ∧ z ≤ up → lo ≤ Equiv.swap x y z ∧ Equiv.swap x y z ≤ up := by
    intro z hz
    rw [Equiv.swap_apply_def]
    split
    · exact hy
    · split
      · exact hx
      · exact hz
  have houtside : ∀ z, ¬ (lo ≤ z ∧ z ≤ up) → Equiv.swap x y z = z := by
    intro z hz
    refine Equiv.swap_apply_of_ne_of_ne ?_ ?_
    · rintro rfl
      exact hz hx
    · rintro rfl
      exact hz hy
  intro k l hk hkl hl
  rw [hlength] at hl
  rw [atMost_sortSwap hswap]
  by_cases hkin : lo ≤ k ∧ k ≤ up
  · by_cases hlin : lo ≤ l ∧ l ≤ up
    · exact Or.inl ⟨(lo, up), List.mem_cons_self .., hkin.1, hlin.2⟩
    · have hk' := hinside k hkin
      rw [houtside l hlin]
      rcases h (Equiv.swap x y k) l (by omega) (by omega) hl with ⟨w, hw, hwk, hwl⟩ | hle
      · rcases List.mem_cons.1 hw with rfl | hw
        · simp only at hwl
          omega
        · have hw' := hapart w hw
          unfold Apart at hw'
          simp only at hw'
          omega
      · exact Or.inr hle
  · rw [houtside k hkin]
    by_cases hlin : lo ≤ l ∧ l ≤ up
    · have hl' := hinside l hlin
      rcases h k (Equiv.swap x y l) hk (by omega) (by omega) with ⟨w, hw, hwk, hwl⟩ | hle
      · rcases List.mem_cons.1 hw with rfl | hw
        · simp only at hwk
          omega
        · have hw' := hapart w hw
          unfold Apart at hw'
          simp only at hw'
          omega
      · exact Or.inr hle
    · rw [houtside l hlin]
      exact h k l hk hkl hl

/-- An interval that is sorted is left out. -/
theorem Separated.tail {lo up : ℕ} {work : List (ℕ × ℕ)} (h : Separated lt a ((lo, up) :: work))
    (hsorted : ∀ k l, lo ≤ k → k < l → l ≤ up → AtMost lt a k l) : Separated lt a work := by
  intro k l hk hkl hl
  rcases h k l hk hkl hl with ⟨w, hw, hwk, hwl⟩ | hle
  · rcases List.mem_cons.1 hw with rfl | hw
    · exact Or.inr (hsorted k l hwk hkl hwl)
    · exact Or.inl ⟨w, hw, hwk, hwl⟩
  · exact Or.inr hle

end Swaps

/-- The interval in hand. -/
def SortPc.interval : SortPc → List (ℕ × ℕ)
  | endpoints lo up => [(lo, up)]
  | medianLow lo up _ => [(lo, up)]
  | medianHigh lo up _ => [(lo, up)]
  | advance lo up _ _ _ => [(lo, up)]
  | retreat lo up _ _ _ => [(lo, up)]
  | _ => []

/-- What the comparator has said about the interval in hand: which of the first, the last and the
median are in order, and which side of the pivot the elements are on that have been scanned. -/
def SortPc.Known (lt : α → α → Prop) (a : List α) : SortPc → Prop
  | endpoints _ _ => True
  | medianLow lo up _ => AtMost lt a lo up
  | medianHigh lo up p => AtMost lt a lo up ∧ AtMost lt a lo p
  | advance lo up piv i j =>
      (∀ k, lo ≤ k → k < i → AtMost lt a k piv) ∧ ∀ l, j ≤ l → l ≤ up → AtMost lt a piv l
  | retreat lo up piv i j =>
      (∀ k, lo ≤ k → k < i → AtMost lt a k piv) ∧ (∀ l, j < l → l ≤ up → AtMost lt a piv l) ∧
        AtMost lt a piv i
  | finished => True
  | invalidOrder => False
  | panic => False

/-- What a consistent comparator has established. -/
structure SortState.Ordered (lt : α → α → Prop) (s : SortState α) : Prop where
  apart : (s.pc.interval ++ s.work).Pairwise Apart
  separated : Separated lt s.array (s.pc.interval ++ s.work)
  known : s.pc.Known lt s.array

/-- The comparator answers by an order. -/
def AnswersBy (lt : α → α → Prop) (a : List α) (pc : SortPc) (less : Bool) : Prop :=
  ∀ x y, pc.request = some (x, y) → (less = true ↔ LessAt lt a x y)

section Ordered

variable {lt : α → α → Prop} {a a' : List α} {work : List (ℕ × ℕ)} {s : SortState α}

/-- The intervals of the work list. -/
theorem sortLoop_ordered {ws : List (ℕ × ℕ)} (hapart : ws.Pairwise Apart)
    (hsep : Separated lt a ws) : (sortLoop a ws).Ordered lt := by
  induction ws with
  | nil => exact ⟨hapart, hsep, trivial⟩
  | cons w ws ih =>
      obtain ⟨lo, up⟩ := w
      unfold sortLoop
      split
      · exact ⟨hapart, hsep, trivial⟩
      · exact ih (List.pairwise_cons.1 hapart).2 (hsep.tail fun k l hk hkl hl => by omega)

variable [IsStrictWeakOrder α lt]

/-- A swap that puts two elements in order. -/
theorem sortSwapIf_atMost {x y : ℕ} {less : Bool} (hless : less = true ↔ LessAt lt a y x)
    (h : sortSwapIf less a x y = some a') : AtMost lt a' x y := by
  cases less with
  | false =>
      rw [← Option.some.inj h]
      intro hlt
      exact absurd (hless.2 hlt) (by simp)
  | true =>
      rw [atMost_sortSwap h, Equiv.swap_apply_left, Equiv.swap_apply_right]
      exact (hless.1 rfl).atMost

omit [IsStrictWeakOrder α lt] in
theorem Separated.swapIf {lo up x y : ℕ} {less : Bool}
    (h : Separated lt a ((lo, up) :: work)) (hapart : ∀ w ∈ work, Apart (lo, up) w) (hlo : 1 ≤ lo)
    (hlen : up ≤ a.length) (hx : lo ≤ x ∧ x ≤ up) (hy : lo ≤ y ∧ y ≤ up)
    (hswap : sortSwapIf less a x y = some a') : Separated lt a' ((lo, up) :: work) := by
  cases less with
  | false =>
      rw [← Option.some.inj hswap]
      exact h
  | true => exact h.swap hapart hlo hlen hx hy hswap

/-- What follows the median, when the three elements are in order. -/
theorem sortAfterMedian_ordered {lo up p : ℕ} (hlo : 1 ≤ lo) (hlt : lo + 1 < up)
    (hup : up ≤ a.length) (hp : p = (lo + up) / 2) (hapart : ((lo, up) :: work).Pairwise Apart)
    (hsep : Separated lt a ((lo, up) :: work)) (hlow : AtMost lt a lo p)
    (hhigh : AtMost lt a p up) (h : sortAfterMedian a work lo up p = some s) : s.Ordered lt := by
  rcases sortAfterMedian_cases work hlo hlt hup hp with
    ⟨rfl, hs⟩ | ⟨hwide, b, hb, hs⟩
  · rw [hs] at h
    rw [← Option.some.inj h]
    refine sortLoop_ordered (List.pairwise_cons.1 hapart).2 (hsep.tail fun k l hk hkl hl => ?_)
    have hboth := hlow.trans hhigh (by omega) (by omega)
    have hp' : p = lo + 1 := by omega
    subst hp'
    rcases (by omega : (k = lo ∧ l = lo + 1) ∨ (k = lo ∧ l = lo + 2) ∨
      (k = lo + 1 ∧ l = lo + 2)) with ⟨rfl, rfl⟩ | ⟨rfl, rfl⟩ | ⟨rfl, rfl⟩
    · exact hlow
    · exact hboth
    · exact hhigh
  · rw [hs] at h
    rw [← Option.some.inj h]
    have hpiv : Equiv.swap p (up - 1) (up - 1) = p := Equiv.swap_apply_right ..
    have hfirst : Equiv.swap p (up - 1) lo = lo :=
      Equiv.swap_apply_of_ne_of_ne (by omega) (by omega)
    have hlast : Equiv.swap p (up - 1) up = up :=
      Equiv.swap_apply_of_ne_of_ne (by omega) (by omega)
    refine ⟨hapart, hsep.swap (List.pairwise_cons.1 hapart).1 hlo hup ⟨by omega, by omega⟩
      ⟨by omega, by omega⟩ hb, fun k hk hki => ?_, fun l hl hlup => ?_⟩
    · obtain rfl : k = lo := by omega
      rw [atMost_sortSwap hb, hfirst, hpiv]
      exact hlow
    · rcases (by omega : l = up - 1 ∨ l = up) with rfl | rfl
      · exact atMost_refl lt b _
      · rw [atMost_sortSwap hb, hlast, hpiv]
        exact hhigh

/-- The pivot is in its place. -/
theorem sortSplit_ordered {lo up part : ℕ} (hlo : 1 ≤ lo) (hpart : lo < part) (hlt : part < up)
    (hup : up ≤ a.length) (hapart : ((lo, up) :: work).Pairwise Apart)
    (hsep : Separated lt a ((lo, up) :: work))
    (hlow : ∀ k, lo ≤ k → k < part → AtMost lt a k part)
    (hhigh : ∀ l, part < l → l ≤ up → AtMost lt a part l)
    (h : sortSplit a work lo up part = some s) : s.Ordered lt := by
  obtain ⟨hhead, htail⟩ := List.pairwise_cons.1 hapart
  -- an interval inside of the one in hand
  have hinside : ∀ v : ℕ × ℕ, lo ≤ v.1 → v.2 ≤ up → ∀ w ∈ work, Apart v w := by
    intro v hv hv' w hw
    have hw' := hhead w hw
    unfold Apart at hw' ⊢
    simp only at hw'
    omega
  have hboth : ∀ v w : ℕ × ℕ, v = (part + 1, up) ∧ w = (lo, part - 1) ∨
      v = (lo, part - 1) ∧ w = (part + 1, up) → (sortLoop a (v :: w :: work)).Ordered lt := by
    intro v w hvw
    have hmem : (part + 1, up) ∈ v :: w :: work ∧ (lo, part - 1) ∈ v :: w :: work := by
      rcases hvw with ⟨rfl, rfl⟩ | ⟨rfl, rfl⟩
      · simp
      · simp
    refine sortLoop_ordered ?_ fun k l hk hkl hl => ?_
    · have hbounds : (lo ≤ v.1 ∧ v.2 ≤ up) ∧ (lo ≤ w.1 ∧ w.2 ≤ up) ∧ Apart v w := by
        unfold Apart
        rcases hvw with ⟨rfl, rfl⟩ | ⟨rfl, rfl⟩
        · simp only
          omega
        · simp only
          omega
      obtain ⟨hv, hw, hvw'⟩ := hbounds
      refine List.pairwise_cons.2 ⟨List.forall_mem_cons.2 ⟨hvw', hinside v hv.1 hv.2⟩,
        List.pairwise_cons.2 ⟨hinside w hw.1 hw.2, htail⟩⟩
    · rcases hsep k l hk hkl hl with ⟨u, hu, huk, hul⟩ | hle
      · rcases List.mem_cons.1 hu with rfl | hu
        · simp only at huk hul
          rcases Nat.lt_or_ge l part with hlpart | hlpart
          · refine Or.inl ⟨_, hmem.2, huk, ?_⟩
            show l ≤ part - 1
            omega
          · rcases Nat.lt_or_ge part k with hkpart | hkpart
            · refine Or.inl ⟨_, hmem.1, ?_, hul⟩
              show part + 1 ≤ k
              omega
            · -- the two are on both sides of the pivot
              have hk' : AtMost lt a k part := by
                rcases Nat.lt_or_ge k part with hlt | hge
                · exact hlow k huk hlt
                · obtain rfl : k = part := by omega
                  exact atMost_refl lt a k
              have hl' : AtMost lt a part l := by
                rcases Nat.lt_or_ge part l with hlt | hge
                · exact hhigh l hlt hul
                · obtain rfl : l = part := by omega
                  exact atMost_refl lt a l
              exact Or.inr (hk'.trans hl' (by omega) (by omega))
        · exact Or.inl ⟨u, List.mem_cons_of_mem _ (List.mem_cons_of_mem _ hu), huk, hul⟩
      · exact Or.inr hle
  rcases sortSplit_cases a work hpart hlt with hs | hs
  · rw [hs] at h
    rw [← Option.some.inj h]
    exact hboth _ _ (Or.inl ⟨rfl, rfl⟩)
  · rw [hs] at h
    rw [← Option.some.inj h]
    exact hboth _ _ (Or.inr ⟨rfl, rfl⟩)

/-- **A move** that a consistent comparator answers. -/
theorem SortMove.ordered {n : ℕ} {pc : SortPc} {less : Bool}
    (hmove : SortMove a work pc less s) (hlen : a.length = n) (hpc : pc.Bounded n)
    (hanswer : AnswersBy lt a pc less)
    (h : SortState.Ordered lt { array := a, work := work, pc := pc }) : s.Ordered lt := by
  obtain ⟨hapart, hsep, hknown⟩ := h
  simp only at hapart hsep hknown
  cases hmove with
  | @pair lo up _ a' hwidth hswap =>
      obtain ⟨hlo, hlt, hup⟩ := hpc
      obtain ⟨hhead, htail⟩ := List.pairwise_cons.1 hapart
      have hle := sortSwapIf_atMost (hanswer up lo rfl) hswap
      refine sortLoop_ordered htail ((hsep.swapIf hhead hlo (by omega) ⟨by omega, by omega⟩
        ⟨by omega, by omega⟩ hswap).tail fun k l hk hkl hl => ?_)
      obtain rfl : k = lo := by omega
      obtain rfl : l = up := by omega
      exact hle
  | @endpoints lo up _ a' hwidth hswap =>
      obtain ⟨hlo, hlt, hup⟩ := hpc
      exact ⟨hapart, hsep.swapIf (List.pairwise_cons.1 hapart).1 hlo (by omega)
        ⟨by omega, by omega⟩ ⟨by omega, by omega⟩ hswap,
        sortSwapIf_atMost (hanswer up lo rfl) hswap⟩
  | @medianLow lo up p =>
      exact ⟨hapart, hsep, hknown, fun hlt => absurd ((hanswer p lo rfl).2 hlt) (by simp)⟩
  | @medianLowSwap lo up p a' s hswap hafter =>
      obtain ⟨hlo, hlt, hup, hp⟩ := hpc
      have hless := (hanswer p lo rfl).1 rfl
      have hsep' := hsep.swap (List.pairwise_cons.1 hapart).1 hlo (by omega)
        ⟨by omega, by omega⟩ ⟨by omega, by omega⟩ hswap
      have hlast : Equiv.swap p lo up = up :=
        Equiv.swap_apply_of_ne_of_ne (by omega) (by omega)
      refine sortAfterMedian_ordered hlo hlt ?_ hp hapart hsep' ?_ ?_ hafter
      · rw [(sortSwap_perm hswap).length_eq]
        omega
      · rw [atMost_sortSwap hswap, Equiv.swap_apply_right, Equiv.swap_apply_left]
        exact hless.atMost
      · rw [atMost_sortSwap hswap, Equiv.swap_apply_left, hlast]
        exact hknown
  | @medianHigh lo up p _ a' s hswap hafter =>
      obtain ⟨hlo, hlt, hup, hp⟩ := hpc
      obtain ⟨hends, hlow⟩ := hknown
      have hless := hanswer up p rfl
      have hsep' := hsep.swapIf (List.pairwise_cons.1 hapart).1 hlo (by omega)
        ⟨by omega, by omega⟩ ⟨by omega, by omega⟩ hswap
      refine sortAfterMedian_ordered hlo hlt ?_ hp hapart hsep' ?_
        (sortSwapIf_atMost hless hswap) hafter
      · rw [(sortSwapIf_perm hswap).length_eq]
        omega
      · cases less with
        | false =>
            rw [← Option.some.inj hswap]
            exact hlow
        | true =>
            have hfirst : Equiv.swap p up lo = lo :=
              Equiv.swap_apply_of_ne_of_ne (by omega) (by omega)
            have hswap' : sortSwap a p up = some a' := hswap
            rw [atMost_sortSwap hswap', hfirst, Equiv.swap_apply_left]
            exact hends
  | @advanceError lo up piv j =>
      -- the pivot is not less than itself
      exact absurd ((hanswer piv piv rfl).1 rfl) (atMost_refl lt a piv)
  | @advance lo up piv i j hi =>
      obtain ⟨hlow, hhigh⟩ := hknown
      refine ⟨hapart, hsep, fun k hk hki => ?_, hhigh⟩
      rcases Nat.lt_or_ge k i with hlt | hge
      · exact hlow k hk hlt
      · obtain rfl : k = i := by omega
        exact ((hanswer k piv rfl).1 rfl).atMost
  | @turn lo up piv i j =>
      obtain ⟨hlow, hhigh⟩ := hknown
      exact ⟨hapart, hsep, hlow, fun l hl hlup => hhigh l (by omega) hlup,
        fun hlt => absurd ((hanswer i piv rfl).2 hlt) (by simp)⟩
  | @retreatError lo up piv i j hji =>
      -- what has been scanned from below is not above the pivot
      obtain ⟨hlo, hup, hpiv, hli, hip, hj, hjp⟩ := hpc
      exact absurd ((hanswer piv j rfl).1 rfl) (hknown.1 j hj hji)
  | @retreat lo up piv i j hij =>
      obtain ⟨hlow, hhigh, hi⟩ := hknown
      refine ⟨hapart, hsep, hlow, fun l hl hlup => ?_, hi⟩
      rcases Nat.lt_or_ge (j + 1) l with hlt | hge
      · exact hhigh l hlt hlup
      · obtain rfl : l = j + 1 := by omega
        exact ((hanswer piv (j + 1) rfl).1 rfl).atMost
  | @split lo up piv i j a' s hji hswap hsplit =>
      obtain ⟨hlo, hup, hpiv, hli, hip, hj, hjp⟩ := hpc
      obtain ⟨hlow, hhigh, hi⟩ := hknown
      have hsep' := hsep.swap (List.pairwise_cons.1 hapart).1 hlo (by omega)
        ⟨by omega, by omega⟩ ⟨by omega, by omega⟩ hswap
      refine sortSplit_ordered hlo hli (by omega) ?_ hapart hsep' (fun k hk hki => ?_)
        (fun l hl hlup => ?_) hsplit
      · rw [(sortSwap_perm hswap).length_eq]
        omega
      · have hsame : Equiv.swap piv i k = k :=
          Equiv.swap_apply_of_ne_of_ne (by omega) (by omega)
        rw [atMost_sortSwap hswap, hsame, Equiv.swap_apply_right]
        exact hlow k hk hki
      · rw [atMost_sortSwap hswap, Equiv.swap_apply_right]
        by_cases heq : l = piv
        · rw [heq, Equiv.swap_apply_left]
          exact hi
        · rw [Equiv.swap_apply_of_ne_of_ne heq (by omega)]
          exact hhigh l (by omega) hlup
  | @exchange lo up piv i j a' hij hswap =>
      obtain ⟨hlo, hup, hpiv, hli, hip, hj, hjp⟩ := hpc
      obtain ⟨hlow, hhigh, hi⟩ := hknown
      have hjle : AtMost lt a j piv := fun hlt => absurd ((hanswer piv j rfl).2 hlt) (by simp)
      have hsame : Equiv.swap i j piv = piv :=
        Equiv.swap_apply_of_ne_of_ne (by omega) (by omega)
      refine ⟨hapart, hsep.swap (List.pairwise_cons.1 hapart).1 hlo (by omega)
        ⟨by omega, by omega⟩ ⟨by omega, by omega⟩ hswap, fun k hk hki => ?_,
        fun l hl hlup => ?_⟩
      · rw [atMost_sortSwap hswap, hsame]
        by_cases heq : k = i
        · rw [heq, Equiv.swap_apply_left]
          exact hjle
        · rw [Equiv.swap_apply_of_ne_of_ne heq (by omega)]
          exact hlow k hk (by omega)
      · rw [atMost_sortSwap hswap, hsame]
        by_cases heq : l = j
        · rw [heq, Equiv.swap_apply_right]
          exact hi
        · rw [Equiv.swap_apply_of_ne_of_ne (by omega) heq]
          exact hhigh l (by omega) hlup
  | stopped hreq => exact ⟨hapart, hsep, hknown⟩

end Ordered

/-! ### The end -/

section Finished

variable {a : List α} {work : List (ℕ × ℕ)} {s : SortState α}

theorem work_sortLoop {ws : List (ℕ × ℕ)} (h : (sortLoop a ws).pc = SortPc.finished) :
    (sortLoop a ws).work = [] := by
  induction ws with
  | nil => rfl
  | cons w ws ih =>
      obtain ⟨lo, up⟩ := w
      unfold sortLoop at h ⊢
      split
      · next hlt =>
          rw [if_pos hlt] at h
          cases h
      · next hlt =>
          rw [if_neg hlt] at h
          exact ih h

theorem work_sortAfterMedian {lo up p : ℕ} (hs : sortAfterMedian a work lo up p = some s)
    (h : s.pc = SortPc.finished) : s.work = [] := by
  obtain ⟨width, -, hs⟩ := Option.bind_eq_some_iff.1 hs
  split at hs
  · rw [← Option.some.inj hs] at h ⊢
    exact work_sortLoop h
  · obtain ⟨piv, -, hs⟩ := Option.bind_eq_some_iff.1 hs
    obtain ⟨b, -, rfl⟩ := Option.map_eq_some_iff.1 hs
    cases h

theorem work_sortSplit {lo up part : ℕ} (hs : sortSplit a work lo up part = some s)
    (h : s.pc = SortPc.finished) : s.work = [] := by
  obtain ⟨below, -, hs⟩ := Option.bind_eq_some_iff.1 hs
  obtain ⟨above, -, hs⟩ := Option.bind_eq_some_iff.1 hs
  obtain ⟨last, -, rfl⟩ := Option.map_eq_some_iff.1 hs
  split at h
  · next hlt =>
      rw [if_pos hlt]
      exact work_sortLoop h
  · next hlt =>
      rw [if_neg hlt]
      exact work_sortLoop h

/-- **The function ends** when no interval is left. -/
theorem SortMove.finished {pc : SortPc} {less : Bool} (hmove : SortMove a work pc less s)
    (hwork : pc = SortPc.finished → work = []) (h : s.pc = SortPc.finished) : s.work = [] := by
  cases hmove with
  | pair hwidth hswap => exact work_sortLoop h
  | medianLowSwap hswap hafter => exact work_sortAfterMedian hafter h
  | medianHigh hswap hafter => exact work_sortAfterMedian hafter h
  | split hji hswap hsplit => exact work_sortSplit hsplit h
  | stopped hreq => exact hwork h
  | _ => cases h

end Finished

/-! ### All comparators -/

/-- The comparator answers by an order in the state it is asked in. -/
def ConsistentAnswer (lt : α → α → Prop) (s : SortState α) (less : Bool) : Prop :=
  AnswersBy lt s.array s.pc less

theorem sortRun_finished (a : List α) (answers : List Bool)
    (h : ((sortMachine α).run (sortStart a) answers).1.pc = SortPc.finished) :
    ((sortMachine α).run (sortStart a) answers).1.work = [] := by
  have hinv : (sortMachine α).Invariant fun s =>
      s.Bounded a.length ∧ (s.pc = SortPc.finished → s.work = []) := by
    rintro s less ⟨hs, hwork⟩
    have hmove := sortStep_moves hs less
    exact ⟨(hmove.bounded hs.length hs.pc hs.work).1, hmove.finished hwork⟩
  exact (hinv.run ⟨sortStart_bounded a, work_sortLoop⟩ answers).2 h

theorem sortRun_ordered {lt : α → α → Prop} [IsStrictWeakOrder α lt] (a : List α)
    {answers : List Bool}
    (h : (sortMachine α).Admits (ConsistentAnswer lt) (sortStart a) answers) :
    ((sortMachine α).run (sortStart a) answers).1.Ordered lt := by
  have hstep : ∀ (s : SortState α) (less : Bool), s.Bounded a.length ∧ s.Ordered lt →
      ConsistentAnswer lt s less →
      (((sortMachine α).step s less).1.Bounded a.length ∧
        ((sortMachine α).step s less).1.Ordered lt) ∧ True := by
    rintro s less ⟨hs, hordered⟩ hanswer
    have hmove := sortStep_moves hs less
    exact ⟨⟨(hmove.bounded hs.length hs.pc hs.work).1,
      hmove.ordered hs.length hs.pc hanswer hordered⟩, trivial⟩
  have hstart : (sortStart a).Ordered lt := by
    refine sortLoop_ordered (List.pairwise_singleton _ _) fun k l hk hkl hl => ?_
    exact Or.inl ⟨(1, a.length), List.mem_singleton.2 rfl, hk, hl⟩
  exact (Machine.run_of_admits (Q := fun _ => True) hstep ⟨sortStart_bounded a, hstart⟩ h).1.2

/-- Elements that are in order at all indices. -/
theorem pairwise_of_separated {lt : α → α → Prop} {a : List α} (h : Separated lt a []) :
    a.Pairwise fun v w => ¬ lt w v := by
  rw [List.pairwise_iff_getElem]
  intro k l hk hl hkl hlt
  rcases h (k + 1) (l + 1) (by omega) (by omega) (by omega) with ⟨w, hw, -⟩ | hle
  · exact absurd hw List.not_mem_nil
  · refine hle ⟨a[l], a[k], ?_, ?_, hlt⟩
    · rw [elementAt, if_pos (by omega), Nat.add_sub_cancel, List.getElem?_eq_getElem hl]
    · rw [elementAt, if_pos (by omega), Nat.add_sub_cancel, List.getElem?_eq_getElem hk]

/-- **`table.sort`**, for all arrays and all answers of the comparator: no subtraction goes below
zero, no index is outside of the array, and the array is a permutation whenever the comparator is
called and at the end, which comes after a bounded number of answers.  If they are those of a
strict weak order, there is no error, and in the end the array is sorted. -/
theorem sort_correct (a : List α) :
    (∀ answers : List Bool,
      ((sortMachine α).run (sortStart a) answers).1.pc ≠ SortPc.panic ∧
      ((sortMachine α).run (sortStart a) answers).1.array.Perm a ∧
      (∀ x y, ((sortMachine α).run (sortStart a) answers).1.pc.request = some (x, y) →
        (1 ≤ x ∧ x ≤ a.length) ∧ (1 ≤ y ∧ y ≤ a.length)) ∧
      ((a.length + 1) * (4 * a.length + 5) ≤ answers.length →
        ((sortMachine α).run (sortStart a) answers).1.pc = SortPc.finished ∨
          ((sortMachine α).run (sortStart a) answers).1.pc = SortPc.invalidOrder)) ∧
    ∀ (lt : α → α → Prop), IsStrictWeakOrder α lt → ∀ answers : List Bool,
      (sortMachine α).Admits (ConsistentAnswer lt) (sortStart a) answers →
      ((sortMachine α).run (sortStart a) answers).1.pc ≠ SortPc.invalidOrder ∧
      (((sortMachine α).run (sortStart a) answers).1.pc = SortPc.finished →
        ((sortMachine α).run (sortStart a) answers).1.array.Pairwise fun v w => ¬ lt w v) := by
  have hnever : ∀ answers : List Bool,
      ((sortMachine α).run (sortStart a) answers).1.pc ≠ SortPc.panic := by
    intro answers hpanic
    have hpc := (sortRun_bounded a answers).1.pc
    rw [hpanic] at hpc
    exact hpc
  refine ⟨fun answers => ⟨hnever answers, (sortRun_bounded a answers).2, fun x y hreq =>
    (sortRun_bounded a answers).1.pc.request hreq, fun hlen => ?_⟩, fun lt hlt answers h => ?_⟩
  · have hended := sortRun_stops a hlen
    cases hpc : ((sortMachine α).run (sortStart a) answers).1.pc with
    | finished => exact Or.inl rfl
    | invalidOrder => exact Or.inr rfl
    | panic => exact absurd hpc (hnever answers)
    | _ =>
        rw [hpc] at hended
        cases hended
  · have hordered := sortRun_ordered a h
    refine ⟨fun hpc => ?_, fun hpc => ?_⟩
    · have hknown := hordered.known
      rw [hpc] at hknown
      exact hknown
    · have hsep := hordered.separated
      rw [hpc, sortRun_finished a answers hpc] at hsep
      exact pairwise_of_separated hsep

/-- The numbers are in order. -/
theorem isStrictWeakOrder_lt : IsStrictWeakOrder ℕ fun v w => v < w where
  irrefl := Nat.lt_irrefl
  trans _ _ _ h h' := Nat.lt_trans h h'
  incomp_trans v w u h h' := by omega

/-- Four numbers are sorted. -/
theorem sort_correct_four :
    ((sortMachine ℕ).run (sortStart [3, 1, 4, 2])
        [true, true, false, true, false, true]).1.array.Pairwise fun v w => ¬ w < v := by
  -- an answer to a comparison of two elements that are known
  have hanswer : ∀ (s : SortState ℕ) (less : Bool) (x y v w : ℕ), s.pc.request = some (x, y) →
      elementAt s.array x = some v → elementAt s.array y = some w → (less = true ↔ v < w) →
      ConsistentAnswer (fun v w : ℕ => v < w) s less := by
    intro s less x y v w hreq hv hw hless x' y' hreq'
    obtain ⟨rfl, rfl⟩ := Prod.mk.inj (Option.some.inj (hreq.symm.trans hreq'))
    rw [hless]
    constructor
    · exact fun hlt => ⟨v, w, hv, hw, hlt⟩
    · rintro ⟨v', w', hv', hw', hlt⟩
      obtain rfl := Option.some.inj (hv.symm.trans hv')
      obtain rfl := Option.some.inj (hw.symm.trans hw')
      exact hlt
  have hanswers : (sortMachine ℕ).Admits (ConsistentAnswer fun v w : ℕ => v < w)
      (sortStart [3, 1, 4, 2]) [true, true, false, true, false, true] := by
    refine ⟨hanswer _ _ 4 1 2 3 rfl rfl rfl (by decide),
      hanswer _ _ 2 1 1 2 rfl rfl rfl (by decide), hanswer _ _ 2 3 4 2 rfl rfl rfl (by decide),
      hanswer _ _ 3 2 2 4 rfl rfl rfl (by decide), hanswer _ _ 3 1 2 1 rfl rfl rfl (by decide),
      hanswer _ _ 4 3 3 4 rfl rfl rfl (by decide), trivial⟩
  exact ((sort_correct [3, 1, 4, 2]).2 _ isStrictWeakOrder_lt _ hanswers).2 (by decide)

end Tcvm
