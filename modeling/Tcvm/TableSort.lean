/-
# `table.sort`

`sort_run` is a quicksort with a list of intervals that are left to sort.  It is suspended at every
comparison: between two comparisons it is a state with the place it waits at, and the answer of the
comparator takes it to the next one.  Indices are those of the source, from 1 to the length; a
subtraction below zero and an access outside of the array are kept apart from what goes on.

## Main definitions

* `SortPc`, `SortState` — where the function waits, with the array and the work list;
* `sortStep` — an answer of the comparator;
* `sortMachine` — the function as a machine;
* `SortMove` — what an answer can do.

## Main results

* `sortStep_moves` — every answer is a move;
* `SortMove.bounded`, `SortMove.perm`, `SortMove.measure` — bounds, contents, termination;
* `sortRun_bounded`, `sortRun_stops` — **runs**, over all answers.
-/

import Mathlib.Data.List.Perm.Basic
import Mathlib.Algebra.GroupWithZero.Nat
import Tcvm.Machine

namespace Tcvm

/-! ### `sort_run` -/

/-- Where `sort_run` waits for the comparator: at the comparison of the endpoints of an interval,
at one of the two comparisons with the median, or where the scans from below and from above are. -/
inductive SortPc
  | endpoints (lo up : ℕ)
  | medianLow (lo up p : ℕ)
  | medianHigh (lo up p : ℕ)
  | advance (lo up piv i j : ℕ)
  | retreat (lo up piv i j : ℕ)
  | finished
  /-- The error "invalid order function for sorting". -/
  | invalidOrder
  /-- A subtraction below zero, or an index outside of the array. -/
  | panic
  deriving DecidableEq

namespace SortPc

/-- The indices `sort_less` compares. -/
def request : SortPc → Option (ℕ × ℕ)
  | endpoints lo up => some (up, lo)
  | medianLow lo _ p => some (p, lo)
  | medianHigh _ up p => some (up, p)
  | advance _ _ piv i _ => some (i, piv)
  | retreat _ _ piv _ j => some (piv, j)
  | _ => none

end SortPc

structure SortState (α : Type*) where
  array : List α
  work : List (ℕ × ℕ)
  pc : SortPc

variable {α : Type*}

/-- A subtraction of `usize`. -/
def usizeSub (a b : ℕ) : Option ℕ := if b ≤ a then some (a - b) else none

/-- `raw_get` at an index. -/
def elementAt (a : List α) (x : ℕ) : Option α := if 1 ≤ x then a[x - 1]? else none

/-- `sort_swap`. -/
def sortSwap (a : List α) (x y : ℕ) : Option (List α) :=
  (elementAt a x).bind fun vx => (elementAt a y).map fun vy => (a.set (x - 1) vy).set (y - 1) vx

/-- Go on with the first interval that has two elements. -/
def sortLoop (a : List α) : List (ℕ × ℕ) → SortState α
  | [] => { array := a, work := [], pc := SortPc.finished }
  | (lo, up) :: work =>
      if lo < up then { array := a, work := work, pc := SortPc.endpoints lo up }
      else sortLoop a work

/-- Swap if the answer says so. -/
def sortSwapIf (less : Bool) (a : List α) (x y : ℕ) : Option (List α) :=
  if less then sortSwap a x y else some a

/-- The median is in place: stash the pivot, and scan. -/
def sortAfterMedian (a : List α) (work : List (ℕ × ℕ)) (lo up p : ℕ) : Option (SortState α) :=
  (usizeSub up lo).bind fun width =>
    if width = 2 then some (sortLoop a work)
    else
      (usizeSub up 1).bind fun piv =>
        (sortSwap a p piv).map fun a' =>
          { array := a', work := work, pc := SortPc.advance lo up piv (lo + 1) piv }

/-- The pivot is at `part`: the smaller interval is put off, and the loop goes on with the larger
one. -/
def sortSplit (a : List α) (work : List (ℕ × ℕ)) (lo up part : ℕ) : Option (SortState α) :=
  (usizeSub part lo).bind fun below => (usizeSub up part).bind fun above =>
    (usizeSub part 1).map fun last =>
      if below < above then sortLoop a ((part + 1, up) :: (lo, last) :: work)
      else sortLoop a ((lo, last) :: (part + 1, up) :: work)

/-- `sort_run`, from one answer of the comparator to the next comparison. -/
def sortResume (s : SortState α) (less : Bool) : Option (SortState α) :=
  match s.pc with
  | SortPc.endpoints lo up =>
      (sortSwapIf less s.array lo up).bind fun a =>
        (usizeSub up lo).map fun width =>
          if width = 1 then sortLoop a s.work
          else { array := a, work := s.work, pc := SortPc.medianLow lo up ((lo + up) / 2) }
  | SortPc.medianLow lo up p =>
      if less then (sortSwap s.array p lo).bind fun a => sortAfterMedian a s.work lo up p
      else some { s with pc := SortPc.medianHigh lo up p }
  | SortPc.medianHigh lo up p =>
      (sortSwapIf less s.array p up).bind fun a => sortAfterMedian a s.work lo up p
  | SortPc.advance lo up piv i j =>
      if less then
        (usizeSub up 1).map fun last =>
          if i = last then { s with pc := SortPc.invalidOrder }
          else { s with pc := SortPc.advance lo up piv (i + 1) j }
      else (usizeSub j 1).map fun j' => { s with pc := SortPc.retreat lo up piv i j' }
  | SortPc.retreat lo up piv i j =>
      if less then
        if j < i then some { s with pc := SortPc.invalidOrder }
        else (usizeSub j 1).map fun j' => { s with pc := SortPc.retreat lo up piv i j' }
      else if j < i then
        (sortSwap s.array piv i).bind fun a => sortSplit a s.work lo up i
      else
        (sortSwap s.array i j).map fun a =>
          { s with array := a, pc := SortPc.advance lo up piv (i + 1) j }
  | _ => some s

def sortStep (s : SortState α) (less : Bool) : SortState α :=
  (sortResume s less).getD { s with pc := SortPc.panic }

/-- `sort_run` on an array. -/
def sortStart (a : List α) : SortState α := sortLoop a [(1, a.length)]

/-- The function, which answers of the comparator drive from comparison to comparison. -/
def sortMachine (α : Type*) : Machine (SortState α) Bool (Option (ℕ × ℕ)) where
  step s less := (sortStep s less, s.pc.request)

/-! ### Moves -/

/-- What an answer of the comparator can do. -/
inductive SortMove (a : List α) (work : List (ℕ × ℕ)) : SortPc → Bool → SortState α → Prop
  | pair {lo up : ℕ} {less : Bool} {a' : List α} (hwidth : up = lo + 1)
      (hswap : sortSwapIf less a lo up = some a') :
      SortMove a work (SortPc.endpoints lo up) less (sortLoop a' work)
  | endpoints {lo up : ℕ} {less : Bool} {a' : List α} (hwidth : lo + 1 < up)
      (hswap : sortSwapIf less a lo up = some a') :
      SortMove a work (SortPc.endpoints lo up) less
        { array := a', work := work, pc := SortPc.medianLow lo up ((lo + up) / 2) }
  | medianLow {lo up p : ℕ} :
      SortMove a work (SortPc.medianLow lo up p) false
        { array := a, work := work, pc := SortPc.medianHigh lo up p }
  | medianLowSwap {lo up p : ℕ} {a' : List α} {s : SortState α}
      (hswap : sortSwap a p lo = some a') (hafter : sortAfterMedian a' work lo up p = some s) :
      SortMove a work (SortPc.medianLow lo up p) true s
  | medianHigh {lo up p : ℕ} {less : Bool} {a' : List α} {s : SortState α}
      (hswap : sortSwapIf less a p up = some a')
      (hafter : sortAfterMedian a' work lo up p = some s) :
      SortMove a work (SortPc.medianHigh lo up p) less s
  | advanceError {lo up piv j : ℕ} :
      SortMove a work (SortPc.advance lo up piv piv j) true
        { array := a, work := work, pc := SortPc.invalidOrder }
  | advance {lo up piv i j : ℕ} (hi : i < piv) :
      SortMove a work (SortPc.advance lo up piv i j) true
        { array := a, work := work, pc := SortPc.advance lo up piv (i + 1) j }
  | turn {lo up piv i j : ℕ} :
      SortMove a work (SortPc.advance lo up piv i (j + 1)) false
        { array := a, work := work, pc := SortPc.retreat lo up piv i j }
  | retreatError {lo up piv i j : ℕ} (hji : j < i) :
      SortMove a work (SortPc.retreat lo up piv i j) true
        { array := a, work := work, pc := SortPc.invalidOrder }
  | retreat {lo up piv i j : ℕ} (hij : i ≤ j + 1) :
      SortMove a work (SortPc.retreat lo up piv i (j + 1)) true
        { array := a, work := work, pc := SortPc.retreat lo up piv i j }
  | split {lo up piv i j : ℕ} {a' : List α} {s : SortState α} (hji : j < i)
      (hswap : sortSwap a piv i = some a') (hsplit : sortSplit a' work lo up i = some s) :
      SortMove a work (SortPc.retreat lo up piv i j) false s
  | exchange {lo up piv i j : ℕ} {a' : List α} (hij : i ≤ j)
      (hswap : sortSwap a i j = some a') :
      SortMove a work (SortPc.retreat lo up piv i j) false
        { array := a', work := work, pc := SortPc.advance lo up piv (i + 1) j }
  | stopped {pc : SortPc} {less : Bool} (hpc : pc.request = none) :
      SortMove a work pc less { array := a, work := work, pc := pc }

/-! ### Bounds -/

/-- The indices of a place are those of an interval of the array. -/
def SortPc.Bounded (n : ℕ) : SortPc → Prop
  | endpoints lo up => 1 ≤ lo ∧ lo < up ∧ up ≤ n
  | medianLow lo up p => 1 ≤ lo ∧ lo + 1 < up ∧ up ≤ n ∧ p = (lo + up) / 2
  | medianHigh lo up p => 1 ≤ lo ∧ lo + 1 < up ∧ up ≤ n ∧ p = (lo + up) / 2
  | advance lo up piv i j =>
      1 ≤ lo ∧ up ≤ n ∧ up = piv + 1 ∧ lo < i ∧ i ≤ piv ∧ lo < j ∧ j ≤ piv
  | retreat lo up piv i j =>
      1 ≤ lo ∧ up ≤ n ∧ up = piv + 1 ∧ lo < i ∧ i ≤ piv ∧ lo ≤ j ∧ j < piv
  | finished => True
  | invalidOrder => True
  | panic => False

/-- All intervals are in the array. -/
structure SortState.Bounded (n : ℕ) (s : SortState α) : Prop where
  length : s.array.length = n
  pc : s.pc.Bounded n
  work : ∀ w ∈ s.work, 1 ≤ w.1 ∧ w.2 ≤ n

theorem sortLoop_bounded {n : ℕ} {a : List α} (hlen : a.length = n) {work : List (ℕ × ℕ)}
    (hwork : ∀ w ∈ work, 1 ≤ w.1 ∧ w.2 ≤ n) : (sortLoop a work).Bounded n := by
  induction work with
  | nil => exact ⟨hlen, trivial, hwork⟩
  | cons w work ih =>
      obtain ⟨lo, up⟩ := w
      obtain ⟨hlo, hup⟩ := hwork (lo, up) (List.mem_cons_self ..)
      have hrest : ∀ w ∈ work, 1 ≤ w.1 ∧ w.2 ≤ n := fun w hw =>
        hwork w (List.mem_cons_of_mem _ hw)
      unfold sortLoop
      split
      · next hlt => exact ⟨hlen, ⟨hlo, hlt, hup⟩, hrest⟩
      · exact ih hrest

theorem array_sortLoop (a : List α) (work : List (ℕ × ℕ)) : (sortLoop a work).array = a := by
  induction work with
  | nil => rfl
  | cons w work ih =>
      obtain ⟨lo, up⟩ := w
      unfold sortLoop
      split
      · rfl
      · exact ih

theorem usizeSub_of_le {a b : ℕ} (h : b ≤ a) : usizeSub a b = some (a - b) := if_pos h

theorem elementAt_of_mem {a : List α} {x : ℕ} (hx : 1 ≤ x) (hlen : x ≤ a.length) :
    ∃ v, elementAt a x = some v ∧ a[x - 1]? = some v := by
  have hlt : x - 1 < a.length := by omega
  refine ⟨a[x - 1], ?_, List.getElem?_eq_getElem hlt⟩
  rw [elementAt, if_pos hx, List.getElem?_eq_getElem hlt]

/-- A swap at two indices of the array. -/
theorem sortSwap_of_mem {a : List α} {x y : ℕ} (hx : 1 ≤ x) (hxlen : x ≤ a.length) (hy : 1 ≤ y)
    (hylen : y ≤ a.length) : ∃ a', sortSwap a x y = some a' := by
  obtain ⟨vx, hvx, -⟩ := elementAt_of_mem hx hxlen
  obtain ⟨vy, hvy, -⟩ := elementAt_of_mem hy hylen
  refine ⟨(a.set (x - 1) vy).set (y - 1) vx, ?_⟩
  unfold sortSwap
  rw [hvx, Option.bind_some, hvy, Option.map_some]

/-- A swap is a permutation. -/
theorem sortSwap_perm {a a' : List α} {x y : ℕ} (h : sortSwap a x y = some a') : a'.Perm a := by
  obtain ⟨vx, hvx, h⟩ := Option.bind_eq_some_iff.1 h
  obtain ⟨vy, hvy, rfl⟩ := Option.map_eq_some_iff.1 h
  have hget : ∀ {z : ℕ} {v : α}, elementAt a z = some v →
      ∃ hlt : z - 1 < a.length, a[z - 1] = v := by
    intro z v hz
    unfold elementAt at hz
    split at hz
    · exact List.getElem?_eq_some_iff.1 hz
    · exact absurd hz (by simp)
  obtain ⟨hx, rfl⟩ := hget hvx
  obtain ⟨hy, rfl⟩ := hget hvy
  exact List.set_set_perm hx hy

theorem sortSwapIf_perm {a a' : List α} {x y : ℕ} {less : Bool}
    (h : sortSwapIf less a x y = some a') : a'.Perm a := by
  unfold sortSwapIf at h
  split at h
  · exact sortSwap_perm h
  · rw [Option.some.inj h]

theorem sortSwapIf_of_mem {a : List α} {x y : ℕ} (less : Bool) (hx : 1 ≤ x) (hxlen : x ≤ a.length)
    (hy : 1 ≤ y) (hylen : y ≤ a.length) : ∃ a', sortSwapIf less a x y = some a' := by
  cases less with
  | false => exact ⟨a, rfl⟩
  | true => exact sortSwap_of_mem hx hxlen hy hylen

/-- What follows the median. -/
theorem sortAfterMedian_cases {a : List α} (work : List (ℕ × ℕ)) {lo up p : ℕ} (hlo : 1 ≤ lo)
    (hlt : lo + 1 < up) (hup : up ≤ a.length) (hp : p = (lo + up) / 2) :
    (up = lo + 2 ∧ sortAfterMedian a work lo up p = some (sortLoop a work)) ∨
      (lo + 2 < up ∧ ∃ a', sortSwap a p (up - 1) = some a' ∧
        sortAfterMedian a work lo up p = some
          { array := a', work := work
            pc := SortPc.advance lo up (up - 1) (lo + 1) (up - 1) }) := by
  have hwidth : usizeSub up lo = some (up - lo) := usizeSub_of_le (by omega)
  have hpiv : usizeSub up 1 = some (up - 1) := usizeSub_of_le (by omega)
  unfold sortAfterMedian
  rw [hwidth, Option.bind_some]
  by_cases htwo : up - lo = 2
  · rw [if_pos htwo]
    exact Or.inl ⟨by omega, rfl⟩
  · rw [if_neg htwo, hpiv, Option.bind_some]
    obtain ⟨a', ha'⟩ := sortSwap_of_mem (a := a) (x := p) (y := up - 1) (by omega) (by omega)
      (by omega) (by omega)
    rw [ha', Option.map_some]
    exact Or.inr ⟨by omega, a', rfl, rfl⟩

/-- The two intervals beside the pivot. -/
theorem sortSplit_cases (a : List α) (work : List (ℕ × ℕ)) {lo up part : ℕ} (hlo : lo < part)
    (hup : part < up) :
    sortSplit a work lo up part = some (sortLoop a ((part + 1, up) :: (lo, part - 1) :: work)) ∨
      sortSplit a work lo up part =
        some (sortLoop a ((lo, part - 1) :: (part + 1, up) :: work)) := by
  have hbelow : usizeSub part lo = some (part - lo) := usizeSub_of_le (by omega)
  have habove : usizeSub up part = some (up - part) := usizeSub_of_le (by omega)
  have hlast : usizeSub part 1 = some (part - 1) := usizeSub_of_le (by omega)
  unfold sortSplit
  rw [hbelow, Option.bind_some, habove, Option.bind_some, hlast, Option.map_some]
  split
  · exact Or.inl rfl
  · exact Or.inr rfl

/-- **Every answer is a move**: no subtraction goes below zero, and no index is outside. -/
theorem sortStep_moves {n : ℕ} {s : SortState α} (h : s.Bounded n) (less : Bool) :
    SortMove s.array s.work s.pc less (sortStep s less) := by
  obtain ⟨a, work, pc⟩ := s
  obtain ⟨hlen, hpc, -⟩ := h
  simp only at hlen hpc ⊢
  unfold sortStep sortResume
  simp only
  cases pc with
  | endpoints lo up =>
      obtain ⟨hlo, hlt, hup⟩ := hpc
      obtain ⟨a', ha'⟩ := sortSwapIf_of_mem (a := a) less hlo (by omega) (by omega : 1 ≤ up)
        (by omega)
      have hwidth : usizeSub up lo = some (up - lo) := usizeSub_of_le (by omega)
      simp only [ha', hwidth, Option.bind_some, Option.map_some, Option.getD_some]
      split
      · exact SortMove.pair (by omega) ha'
      · exact SortMove.endpoints (by omega) ha'
  | medianLow lo up p =>
      obtain ⟨hlo, hlt, hup, hp⟩ := hpc
      cases less with
      | false => exact SortMove.medianLow
      | true =>
          obtain ⟨a', ha'⟩ := sortSwap_of_mem (a := a) (x := p) (y := lo) (by omega) (by omega)
            hlo (by omega)
          have hlen' : up ≤ a'.length := by
            rw [(sortSwap_perm ha').length_eq]
            omega
          simp only [if_true, ha', Option.bind_some]
          rcases sortAfterMedian_cases work hlo hlt hlen' hp with ⟨-, hs⟩ | ⟨-, b, -, hs⟩
          · rw [hs]
            exact SortMove.medianLowSwap ha' hs
          · rw [hs]
            exact SortMove.medianLowSwap ha' hs
  | medianHigh lo up p =>
      obtain ⟨hlo, hlt, hup, hp⟩ := hpc
      obtain ⟨a', ha'⟩ := sortSwapIf_of_mem (a := a) less (x := p) (y := up) (by omega) (by omega)
        (by omega) (by omega)
      have hlen' : up ≤ a'.length := by
        rw [(sortSwapIf_perm ha').length_eq]
        omega
      simp only [ha', Option.bind_some]
      rcases sortAfterMedian_cases work hlo hlt hlen' hp with ⟨-, hs⟩ | ⟨-, b, -, hs⟩
      · rw [hs]
        exact SortMove.medianHigh ha' hs
      · rw [hs]
        exact SortMove.medianHigh ha' hs
  | advance lo up piv i j =>
      obtain ⟨hlo, hup, hpiv, hi, hip, hj, hjp⟩ := hpc
      cases less with
      | true =>
          have hlast : usizeSub up 1 = some piv := by
            rw [usizeSub_of_le (by omega)]
            congr 1
            omega
          simp only [if_true, hlast, Option.map_some]
          split
          · next heq =>
              subst heq
              exact SortMove.advanceError
          · exact SortMove.advance (by omega)
      | false =>
          obtain ⟨j', rfl⟩ : ∃ j', j = j' + 1 := ⟨j - 1, by omega⟩
          have hback : usizeSub (j' + 1) 1 = some j' := usizeSub_of_le (by omega)
          simp only [hback, Option.map_some]
          exact SortMove.turn
  | retreat lo up piv i j =>
      obtain ⟨hlo, hup, hpiv, hi, hip, hj, hjp⟩ := hpc
      cases less with
      | true =>
          simp only [if_true]
          split
          · next hji => exact SortMove.retreatError hji
          · next hji =>
              obtain ⟨j', rfl⟩ : ∃ j', j = j' + 1 := ⟨j - 1, by omega⟩
              have hback : usizeSub (j' + 1) 1 = some j' := usizeSub_of_le (by omega)
              simp only [hback, Option.map_some]
              exact SortMove.retreat (by omega)
      | false =>
          simp only [Bool.false_eq_true, if_false]
          split
          · next hji =>
              obtain ⟨a', ha'⟩ := sortSwap_of_mem (a := a) (x := piv) (y := i) (by omega)
                (by omega) (by omega) (by omega)
              simp only [ha', Option.bind_some]
              rcases sortSplit_cases a' work hi (by omega : i < up) with hs | hs
              · rw [hs]
                exact SortMove.split hji ha' hs
              · rw [hs]
                exact SortMove.split hji ha' hs
          · next hji =>
              obtain ⟨a', ha'⟩ := sortSwap_of_mem (a := a) (x := i) (y := j) (by omega)
                (by omega) (by omega) (by omega)
              simp only [ha', Option.map_some]
              exact SortMove.exchange (by omega) ha'
  | finished => exact SortMove.stopped rfl
  | invalidOrder => exact SortMove.stopped rfl
  | panic => exact absurd hpc id

/-- The indices that are compared are in the array. -/
theorem SortPc.Bounded.request {n : ℕ} {pc : SortPc} (h : pc.Bounded n) {x y : ℕ}
    (hreq : pc.request = some (x, y)) : (1 ≤ x ∧ x ≤ n) ∧ (1 ≤ y ∧ y ≤ n) := by
  cases pc with
  | endpoints lo up =>
      cases hreq
      obtain ⟨hlo, hlt, hup⟩ := h
      omega
  | medianLow lo up p =>
      cases hreq
      obtain ⟨hlo, hlt, hup, hp⟩ := h
      omega
  | medianHigh lo up p =>
      cases hreq
      obtain ⟨hlo, hlt, hup, hp⟩ := h
      omega
  | advance lo up piv i j =>
      cases hreq
      obtain ⟨hlo, hup, hpiv, hi, hip, -⟩ := h
      omega
  | retreat lo up piv i j =>
      cases hreq
      obtain ⟨hlo, hup, hpiv, hi, hip, hj, hjp⟩ := h
      omega
  | finished => cases hreq
  | invalidOrder => cases hreq
  | panic => cases hreq

section Moves

variable {n : ℕ} {a : List α} {work : List (ℕ × ℕ)} {pc : SortPc} {less : Bool} {s : SortState α}

/-- What follows the median is bounded, and permutes the array. -/
theorem sortAfterMedian_bounded {lo up p : ℕ} (hlen : a.length = n) (hlo : 1 ≤ lo)
    (hlt : lo + 1 < up) (hup : up ≤ n) (hp : p = (lo + up) / 2)
    (hwork : ∀ w ∈ work, 1 ≤ w.1 ∧ w.2 ≤ n) (h : sortAfterMedian a work lo up p = some s) :
    s.Bounded n ∧ s.array.Perm a := by
  rcases sortAfterMedian_cases work hlo hlt (by omega : up ≤ a.length) hp with
    ⟨-, hs⟩ | ⟨hwide, b, hb, hs⟩
  · rw [hs] at h
    rw [← Option.some.inj h]
    exact ⟨sortLoop_bounded hlen hwork, by rw [array_sortLoop]⟩
  · rw [hs] at h
    rw [← Option.some.inj h]
    refine ⟨⟨?_, ?_, hwork⟩, sortSwap_perm hb⟩
    · rw [(sortSwap_perm hb).length_eq]
      exact hlen
    · exact ⟨hlo, hup, by omega, by omega, by omega, by omega, by omega⟩

/-- The intervals beside the pivot are bounded. -/
theorem sortSplit_bounded {lo up part : ℕ} (hlen : a.length = n) (hlo : 1 ≤ lo) (hpart : lo < part)
    (hlt : part < up) (hup : up ≤ n) (hwork : ∀ w ∈ work, 1 ≤ w.1 ∧ w.2 ≤ n)
    (h : sortSplit a work lo up part = some s) : s.Bounded n ∧ s.array = a := by
  have habove : 1 ≤ (part + 1, up).1 ∧ (part + 1, up).2 ≤ n := ⟨by omega, hup⟩
  have hbelow : 1 ≤ (lo, part - 1).1 ∧ (lo, part - 1).2 ≤ n := ⟨hlo, by omega⟩
  rcases sortSplit_cases a work hpart hlt with hs | hs
  · rw [hs] at h
    rw [← Option.some.inj h]
    exact ⟨sortLoop_bounded hlen (List.forall_mem_cons.2
      ⟨habove, List.forall_mem_cons.2 ⟨hbelow, hwork⟩⟩), array_sortLoop a _⟩
  · rw [hs] at h
    rw [← Option.some.inj h]
    exact ⟨sortLoop_bounded hlen (List.forall_mem_cons.2
      ⟨hbelow, List.forall_mem_cons.2 ⟨habove, hwork⟩⟩), array_sortLoop a _⟩

/-- **A move** stays in bounds and permutes the array. -/
theorem SortMove.bounded (hmove : SortMove a work pc less s) (hlen : a.length = n)
    (hpc : pc.Bounded n) (hwork : ∀ w ∈ work, 1 ≤ w.1 ∧ w.2 ≤ n) :
    s.Bounded n ∧ s.array.Perm a := by
  have hlength : ∀ {a' : List α}, a'.Perm a → a'.length = n := fun hperm =>
    hperm.length_eq.trans hlen
  cases hmove with
  | pair hwidth hswap =>
      have hperm := sortSwapIf_perm hswap
      refine ⟨sortLoop_bounded (hlength hperm) hwork, ?_⟩
      rw [array_sortLoop]
      exact hperm
  | endpoints hwidth hswap =>
      have hperm := sortSwapIf_perm hswap
      exact ⟨⟨hlength hperm, ⟨hpc.1, hwidth, hpc.2.2, rfl⟩, hwork⟩, hperm⟩
  | medianLow => exact ⟨⟨hlen, hpc, hwork⟩, List.Perm.refl a⟩
  | medianLowSwap hswap hafter =>
      obtain ⟨hlo, hlt, hup, hp⟩ := hpc
      have hperm := sortSwap_perm hswap
      obtain ⟨hs, hs'⟩ := sortAfterMedian_bounded (hlength hperm) hlo hlt hup hp hwork hafter
      exact ⟨hs, hs'.trans hperm⟩
  | medianHigh hswap hafter =>
      obtain ⟨hlo, hlt, hup, hp⟩ := hpc
      have hperm := sortSwapIf_perm hswap
      obtain ⟨hs, hs'⟩ := sortAfterMedian_bounded (hlength hperm) hlo hlt hup hp hwork hafter
      exact ⟨hs, hs'.trans hperm⟩
  | advanceError => exact ⟨⟨hlen, trivial, hwork⟩, List.Perm.refl a⟩
  | advance hi =>
      obtain ⟨hlo, hup, hpiv, hli, hip, hj, hjp⟩ := hpc
      exact ⟨⟨hlen, ⟨hlo, hup, hpiv, by omega, by omega, hj, hjp⟩, hwork⟩, List.Perm.refl a⟩
  | turn =>
      obtain ⟨hlo, hup, hpiv, hli, hip, hj, hjp⟩ := hpc
      exact ⟨⟨hlen, ⟨hlo, hup, hpiv, hli, hip, by omega, by omega⟩, hwork⟩, List.Perm.refl a⟩
  | retreatError hji => exact ⟨⟨hlen, trivial, hwork⟩, List.Perm.refl a⟩
  | retreat hij =>
      obtain ⟨hlo, hup, hpiv, hli, hip, hj, hjp⟩ := hpc
      exact ⟨⟨hlen, ⟨hlo, hup, hpiv, hli, hip, by omega, by omega⟩, hwork⟩, List.Perm.refl a⟩
  | split hji hswap hsplit =>
      obtain ⟨hlo, hup, hpiv, hli, hip, hj, hjp⟩ := hpc
      have hperm := sortSwap_perm hswap
      obtain ⟨hs, hs'⟩ := sortSplit_bounded (hlength hperm) hlo hli (by omega) hup hwork hsplit
      rw [hs']
      exact ⟨hs, hperm⟩
  | exchange hij hswap =>
      obtain ⟨hlo, hup, hpiv, hli, hip, hj, hjp⟩ := hpc
      have hperm := sortSwap_perm hswap
      exact ⟨⟨hlength hperm, ⟨hlo, hup, hpiv, by omega, by omega, by omega, by omega⟩, hwork⟩,
        hperm⟩
  | stopped hreq => exact ⟨⟨hlen, hpc, hwork⟩, List.Perm.refl a⟩

end Moves

/-! ### Termination -/

/-- The elements in the intervals of the work list. -/
def workWidth (work : List (ℕ × ℕ)) : ℕ := (work.map fun w => w.2 + 1 - w.1).sum

/-- How many answers are left at most, where `n` is the length of the array: each interval of `m`
elements takes up to `m` rounds of up to `4 * n + 5` answers. -/
def SortState.measure (n : ℕ) (s : SortState α) : ℕ :=
  match s.pc with
  | SortPc.endpoints lo up => (up + 1 - lo + workWidth s.work) * (4 * n + 5) + (4 * n + 4)
  | SortPc.medianLow lo up _ => (up + 1 - lo + workWidth s.work) * (4 * n + 5) + (4 * n + 3)
  | SortPc.medianHigh lo up _ => (up + 1 - lo + workWidth s.work) * (4 * n + 5) + (4 * n + 2)
  | SortPc.advance lo up _ i j =>
      (up + 1 - lo + workWidth s.work) * (4 * n + 5) + (2 * (up - i) + 2 * j)
  | SortPc.retreat lo up _ i j =>
      (up + 1 - lo + workWidth s.work) * (4 * n + 5) + (2 * (up - i) + 2 * j + 1)
  | _ => 0

theorem measure_sortLoop (n : ℕ) (a : List α) (work : List (ℕ × ℕ)) :
    (sortLoop a work).measure n < (workWidth work + 1) * (4 * n + 5) := by
  induction work with
  | nil => simp [sortLoop, SortState.measure, workWidth]
  | cons w work ih =>
      obtain ⟨lo, up⟩ := w
      have hwidth : workWidth ((lo, up) :: work) = up + 1 - lo + workWidth work := by
        simp [workWidth]
      unfold sortLoop
      split
      · rw [hwidth, Nat.add_mul _ 1]
        simp only [SortState.measure]
        omega
      · refine Nat.lt_of_lt_of_le ih (Nat.mul_le_mul_right _ ?_)
        rw [hwidth]
        omega

section Measure

variable {n : ℕ} {a : List α} {work : List (ℕ × ℕ)} {pc : SortPc} {less : Bool} {s : SortState α}

/-- An interval that is done leaves the work list. -/
theorem measure_sortLoop_lt {width : ℕ} (hwidth : 1 ≤ width) (phase : ℕ) (a : List α)
    (work : List (ℕ × ℕ)) :
    (sortLoop a work).measure n < (width + workWidth work) * (4 * n + 5) + phase := by
  have hloop := measure_sortLoop n a work
  have hmul : (workWidth work + 1) * (4 * n + 5) ≤ (width + workWidth work) * (4 * n + 5) :=
    Nat.mul_le_mul_right _ (by omega)
  omega

theorem measure_sortAfterMedian_lt {lo up p : ℕ} (hlen : a.length = n) (hlo : 1 ≤ lo)
    (hlt : lo + 1 < up) (hup : up ≤ n) (hp : p = (lo + up) / 2)
    (h : sortAfterMedian a work lo up p = some s) :
    s.measure n < (up + 1 - lo + workWidth work) * (4 * n + 5) + (4 * n + 2) := by
  rcases sortAfterMedian_cases work hlo hlt (by omega : up ≤ a.length) hp with
    ⟨-, hs⟩ | ⟨hwide, b, hb, hs⟩
  · rw [hs] at h
    rw [← Option.some.inj h]
    exact measure_sortLoop_lt (by omega) _ a work
  · rw [hs] at h
    rw [← Option.some.inj h]
    simp only [SortState.measure]
    omega

theorem measure_sortSplit_lt {lo up part : ℕ} (hpart : lo < part) (hlt : part < up) (phase : ℕ)
    (h : sortSplit a work lo up part = some s) :
    s.measure n < (up + 1 - lo + workWidth work) * (4 * n + 5) + phase := by
  have hboth : ∀ v w : ℕ × ℕ, v = (part + 1, up) ∧ w = (lo, part - 1) ∨
      v = (lo, part - 1) ∧ w = (part + 1, up) →
      (sortLoop a (v :: w :: work)).measure n <
        (up + 1 - lo + workWidth work) * (4 * n + 5) + phase := by
    intro v w hvw
    have hloop := measure_sortLoop n a (v :: w :: work)
    have hwidth : workWidth (v :: w :: work) + 1 = up + 1 - lo + workWidth work := by
      rcases hvw with ⟨rfl, rfl⟩ | ⟨rfl, rfl⟩
      · simp only [workWidth, List.map_cons, List.sum_cons]
        omega
      · simp only [workWidth, List.map_cons, List.sum_cons]
        omega
    rw [hwidth] at hloop
    omega
  rcases sortSplit_cases a work hpart hlt with hs | hs
  · rw [hs] at h
    rw [← Option.some.inj h]
    exact hboth _ _ (Or.inl ⟨rfl, rfl⟩)
  · rw [hs] at h
    rw [← Option.some.inj h]
    exact hboth _ _ (Or.inr ⟨rfl, rfl⟩)

/-- **A move** comes closer to the end. -/
theorem SortMove.measure (hmove : SortMove a work pc less s) (hlen : a.length = n)
    (hpc : pc.Bounded n) (hreq : pc.request ≠ none) :
    s.measure n < SortState.measure n { array := a, work := work, pc := pc } := by
  cases hmove with
  | pair hwidth hswap =>
      obtain ⟨hlo, hlt, hup⟩ := hpc
      exact measure_sortLoop_lt (by omega) _ _ work
  | endpoints hwidth hswap =>
      simp only [SortState.measure]
      omega
  | medianLow =>
      simp only [SortState.measure]
      omega
  | medianLowSwap hswap hafter =>
      obtain ⟨hlo, hlt, hup, hp⟩ := hpc
      have hless := measure_sortAfterMedian_lt
        ((sortSwap_perm hswap).length_eq.trans hlen) hlo hlt hup hp hafter
      refine Nat.lt_trans hless ?_
      simp only [SortState.measure]
      omega
  | medianHigh hswap hafter =>
      obtain ⟨hlo, hlt, hup, hp⟩ := hpc
      exact measure_sortAfterMedian_lt ((sortSwapIf_perm hswap).length_eq.trans hlen) hlo hlt hup
        hp hafter
  | @advanceError lo up piv j =>
      obtain ⟨hlo, hup, hpiv, hli, hip, hj, hjp⟩ := hpc
      simp only [SortState.measure]
      omega
  | advance hi =>
      obtain ⟨hlo, hup, hpiv, hli, hip, hj, hjp⟩ := hpc
      simp only [SortState.measure]
      omega
  | turn =>
      simp only [SortState.measure]
      omega
  | retreatError hji =>
      simp only [SortState.measure]
      omega
  | retreat hij =>
      simp only [SortState.measure]
      omega
  | split hji hswap hsplit =>
      obtain ⟨hlo, hup, hpiv, hli, hip, hj, hjp⟩ := hpc
      exact measure_sortSplit_lt hli (by omega) _ hsplit
  | exchange hij hswap =>
      obtain ⟨hlo, hup, hpiv, hli, hip, hj, hjp⟩ := hpc
      simp only [SortState.measure]
      omega
  | stopped hnone => exact absurd hnone hreq

end Measure

/-! ### Runs -/

section Runs

theorem sortStart_bounded (a : List α) : (sortStart a).Bounded a.length := by
  refine sortLoop_bounded rfl ?_
  intro w hw
  rw [List.mem_singleton.1 hw]
  exact ⟨Nat.le_refl 1, Nat.le_refl _⟩

/-- **Bounds and contents** after any answers. -/
theorem sortRun_bounded (a : List α) (answers : List Bool) :
    ((sortMachine α).run (sortStart a) answers).1.Bounded a.length ∧
      ((sortMachine α).run (sortStart a) answers).1.array.Perm a := by
  have hinv : (sortMachine α).Invariant fun s => s.Bounded a.length ∧ s.array.Perm a := by
    rintro s less ⟨hs, hperm⟩
    obtain ⟨hnext, hperm'⟩ := (sortStep_moves hs less).bounded hs.length hs.pc hs.work
    exact ⟨hnext, hperm'.trans hperm⟩
  refine hinv.run ⟨sortStart_bounded a, ?_⟩ answers
  unfold sortStart
  rw [array_sortLoop]

/-- A function that has ended does not wait again. -/
theorem sortStep_ended {s : SortState α} (h : s.pc.request = none) (less : Bool) :
    sortStep s less = s := by
  obtain ⟨a, work, pc⟩ := s
  cases pc with
  | finished => rfl
  | invalidOrder => rfl
  | panic => rfl
  | _ => cases h

theorem sortRun_ended {s : SortState α} (h : s.pc.request = none) (answers : List Bool) :
    ((sortMachine α).run s answers).1 = s := by
  induction answers with
  | nil => rfl
  | cons less answers ih =>
      show ((sortMachine α).run (sortStep s less) answers).1 = s
      rw [sortStep_ended h]
      exact ih

/-- A function that waits has been answered less often than it can be. -/
theorem measure_sortRun {n : ℕ} (answers : List Bool) (s : SortState α) (hs : s.Bounded n)
    (hwaits : ((sortMachine α).run s answers).1.pc.request ≠ none) :
    ((sortMachine α).run s answers).1.measure n + answers.length ≤ s.measure n := by
  induction answers generalizing s with
  | nil => exact Nat.le_refl _
  | cons less answers ih =>
      have hmove := sortStep_moves hs less
      obtain ⟨hnext, -⟩ := hmove.bounded hs.length hs.pc hs.work
      have hrest := ih (sortStep s less) hnext hwaits
      have hreq : s.pc.request ≠ none := by
        intro hnone
        rw [sortRun_ended hnone] at hwaits
        exact hwaits hnone
      have hless : (sortStep s less).measure n < s.measure n := hmove.measure hs.length hs.pc hreq
      show ((sortMachine α).run (sortStep s less) answers).1.measure n + (answers.length + 1) ≤ _
      omega

/-- **The function ends**, whatever the comparator answers. -/
theorem sortRun_stops (a : List α) {answers : List Bool}
    (hlen : (a.length + 1) * (4 * a.length + 5) ≤ answers.length) :
    ((sortMachine α).run (sortStart a) answers).1.pc.request = none := by
  by_contra hwaits
  have hmeasure := measure_sortRun answers (sortStart a) (sortStart_bounded a) hwaits
  have hstart := measure_sortLoop a.length a [(1, a.length)]
  have hwidth : workWidth [(1, a.length)] = a.length := by simp [workWidth]
  rw [hwidth] at hstart
  unfold sortStart at hmeasure
  omega

end Runs

end Tcvm
