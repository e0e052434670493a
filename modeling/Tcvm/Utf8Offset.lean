/-
`utf8.offset`.

The loops of `offset` step over bytes and skip continuation bytes.  Where the string is cut into
characters, each round of them goes from the start of a character to the start of the next one, or
back to the one before.  Whatever the string is, no position leaves the string by more than one
byte, so that nothing overflows.

* `CharStarts` — the starts of the characters of a string;
* `forward_start`, `backward_start` — one round of the loops;
* `luaOffset_start`, `luaOffset_past`, `luaOffset_nil` — **the positions that are found**;
* `luaOffset_safe` — **nothing overflows**, whatever the arguments are.
-/

import Tcvm.Utf8Library

namespace Tcvm

open DecoderWalk ExtendedUtf8 WhileLoop

open Utf8Fault (ok_bind)

/-! ### Skipping -/

variable {s : LuaString} {p q : ℕ}

/-- The byte at a position that counts from 0 is a continuation byte. -/
def ContAt (s : LuaString) (p : ℕ) : Prop := (s[p]?).any isCont = true

theorem iscont_of_contAt (h : ContAt s p) : iscont s (p + 1) = true := (iscont_succ s p).trans h

theorem iscont_of_not (h : ¬ ContAt s p) : iscont s (p + 1) = false :=
  (iscont_succ s p).trans (Bool.eq_false_iff.2 h)

/-- **Forwards** to the next start. -/
theorem skipToStart_run (hlen : s.length < 2 ^ 63 - 1) (hpq : p ≤ q) (hq : q ≤ s.length)
    (hinside : ∀ r, p ≤ r → r < q → ContAt s r) (hend : ¬ ContAt s q) :
    skipToStart s (p + 1) = Except.ok (q + 1 : ℤ) := by
  have hrun := @whileLoop_run ℤ Utf8Fault Utf8Fault.steps
    (fun posi => posi ≤ s.length && iscont s posi) (fun posi => checkedPos (posi + 1))
    (fun m => ((p + m : ℕ) : ℤ) + 1) (q - p) (s.length + 2) (by omega) ?_ ?_ ?_
  · rw [show p + (q - p) = q by omega] at hrun
    exact hrun
  · intro m hm
    rw [iscont_of_contAt (hinside (p + m) (by omega) (by omega)), Bool.and_true]
    exact decide_eq_true (by omega)
  · intro m hm
    rw [checkedPos_ok (by omega) (by omega)]
    exact congrArg Except.ok (by omega)
  · rw [show p + (q - p) = q by omega, iscont_of_not hend, Bool.and_false]

/-- **Backwards** to the start that the byte belongs to. -/
theorem backToStart_run (hlen : s.length < 2 ^ 63 - 1) (hpq : p ≤ q) (hq : q ≤ s.length)
    (hinside : ∀ r, p < r → r ≤ q → ContAt s r) (hend : ¬ ContAt s p) :
    backToStart s (q + 1) = Except.ok (p + 1 : ℤ) := by
  have hrun := @whileLoop_run ℤ Utf8Fault Utf8Fault.steps
    (fun posi => 1 < posi && iscont s posi) (fun posi => checkedPos (posi - 1))
    (fun m => ((q - m : ℕ) : ℤ) + 1) (q - p) (s.length + 2) (by omega) ?_ ?_ ?_
  · rw [show q - (q - p) = p by omega] at hrun
    exact hrun
  · intro m hm
    rw [iscont_of_contAt (hinside (q - m) (by omega) (by omega)), Bool.and_true]
    exact decide_eq_true (by omega)
  · intro m hm
    rw [checkedPos_ok (by omega) (by omega)]
    exact congrArg Except.ok (by omega)
  · rw [show q - (q - p) = p by omega, iscont_of_not hend, Bool.and_false]

/-- From the start of a character to its last byte. -/
theorem skipToEnd_run (hlen : s.length < 2 ^ 63 - 1) (hpq : p < q) (hq : q ≤ s.length)
    (hinside : ∀ r, p < r → r < q → ContAt s r) (hend : ¬ ContAt s q) :
    skipToEnd s (p + 1) = Except.ok (q : ℤ) := by
  have hrun := @whileLoop_run ℤ Utf8Fault Utf8Fault.steps
    (fun e => e < s.length && iscont s (e + 1)) (fun e => checkedPos (e + 1))
    (fun m => ((p + 1 + m : ℕ) : ℤ)) (q - p - 1) (s.length + 2) (by omega) ?_ ?_ ?_
  · rw [show p + 1 + (q - p - 1) = q by omega, Nat.add_zero, Int.natCast_succ] at hrun
    exact hrun
  · intro m hm
    rw [iscont_of_contAt (hinside (p + 1 + m) (by omega) (by omega)), Bool.and_true]
    exact decide_eq_true (by omega)
  · intro m hm
    rw [checkedPos_ok (by omega) (by omega)]
    exact congrArg Except.ok (by omega)
  · rw [show p + 1 + (q - p - 1) = q by omega, iscont_of_not hend, Bool.and_false]

/-! ### The starts of the characters -/

/-- The string is cut into `K` characters that start at `P 0`, `P 1` and so on; `P K` is the
end. -/
structure CharStarts (s : LuaString) (K : ℕ) (P : ℕ → ℕ) : Prop where
  first : P 0 = 0
  last : P K = s.length
  lt : ∀ m < K, P m < P (m + 1)
  start : ∀ m ≤ K, ¬ ContAt s (P m)
  inside : ∀ m < K, ∀ r, P m < r → r < P (m + 1) → ContAt s r

namespace CharStarts

variable {K : ℕ} {P : ℕ → ℕ} (hP : CharStarts s K P)

include hP

theorem add_le (m d : ℕ) (h : m + d ≤ K) : P m + d ≤ P (m + d) := by
  induction d with
  | zero => exact Nat.le_refl _
  | succ d ih =>
      have hprev := ih (by omega)
      have hlt := hP.lt (m + d) (by omega)
      rw [show m + (d + 1) = m + d + 1 from rfl]
      omega

theorem le_length {m : ℕ} (h : m ≤ K) : P m ≤ s.length := by
  have hle := hP.add_le m (K - m) (by omega)
  rw [Nat.add_sub_cancel' h, hP.last] at hle
  omega

theorem count_le : K ≤ s.length := by
  have hle := hP.add_le 0 K (by omega)
  rw [Nat.zero_add, hP.last, hP.first] at hle
  omega

/-- **One round forwards.** -/
theorem forward_start (hlen : s.length < 2 ^ 63 - 1) {m : ℕ} (hm : m < K) {n : ℤ}
    (hn : 0 < n) (hmax : n < 2 ^ 63) :
    forward s (n, P m + 1) = Except.ok (n - 1, (P (m + 1) : ℤ) + 1) := by
  have hlt := hP.lt m hm
  have hle := hP.le_length (show m + 1 ≤ K from hm)
  have hskip := skipToStart_run hlen hlt hle (hP.inside m hm) (hP.start (m + 1) hm)
  rw [Int.natCast_succ] at hskip
  rw [forward]
  dsimp only
  rw [checkedPos_ok (by omega) (by omega), ok_bind, hskip, ok_bind,
    checkedPos_ok (by omega) (by omega), ok_bind]
  rfl

/-- **One round backwards.** -/
theorem backward_start (hlen : s.length < 2 ^ 63 - 1) {m : ℕ} (hm : m < K) {n : ℤ}
    (hn : n < 0) (hmin : -2 ^ 63 ≤ n) :
    backward s (n, P (m + 1) + 1) = Except.ok (n + 1, (P m : ℤ) + 1) := by
  have hlt := hP.lt m hm
  have hle := hP.le_length (show m + 1 ≤ K from hm)
  have hback := @backToStart_run s (P m) (P (m + 1) - 1) hlen (by omega) (by omega)
    (fun r hlo hhi => hP.inside m hm r hlo (by omega)) (hP.start m (by omega))
  rw [show ((P (m + 1) - 1 : ℕ) : ℤ) + 1 = (P (m + 1) : ℤ) by omega] at hback
  rw [backward]
  dsimp only
  rw [Int.add_sub_cancel, checkedPos_ok (by omega) (by omega), ok_bind, hback, ok_bind,
    checkedPos_ok (by omega) (by omega), ok_bind]
  rfl

/-- **Counting forwards** from the first byte. -/
theorem findOffset_forward (hlen : s.length < 2 ^ 63 - 1) {n : ℤ} (hn : 0 < n)
    (hmax : n < 2 ^ 63) :
    findOffset s n 1 =
      Except.ok (if n - 1 ≤ K then some ((P (n - 1).toNat : ℤ) + 1) else none) := by
  have hcount := hP.count_le
  generalize hk : min (n - 1).toNat K = k
  have hrun := @whileLoop_run (ℤ × ℤ) Utf8Fault Utf8Fault.steps
    (fun x => 0 < x.1 && x.2 ≤ (s.length : ℤ)) (forward s)
    (fun m => (n - 1 - m, (P m : ℤ) + 1)) k (s.length + 2) (by omega) ?_ ?_ ?_
  · have hstart : ¬ ((1 : ℤ) ≤ s.length ∧ iscont s 1 = true) := by
      rintro ⟨-, hcont⟩
      have hfirst := iscont_of_not (hP.start 0 (Nat.zero_le K))
      rw [hP.first] at hfirst
      exact absurd (hcont.symm.trans hfirst) (by simp)
    rw [hP.first, Int.natCast_zero, Int.sub_zero] at hrun
    rw [findOffset, if_neg (by omega), if_neg hstart, if_pos hn,
      checkedPos_ok (by omega) (by omega), ok_bind]
    rw [Int.zero_add] at hrun
    rw [hrun, ok_bind]
    dsimp only
    by_cases hfew : n - 1 ≤ K
    · rw [if_neg (by omega), if_pos hfew, show (n - 1).toNat = k by omega]
      rfl
    · rw [if_pos (by omega), if_neg hfew]
      rfl
  · intro m hm
    have hle := hP.le_length (show m + 1 ≤ K by omega)
    have hlt := hP.lt m (by omega)
    exact Bool.and_eq_true _ _ ▸ ⟨decide_eq_true (by omega), decide_eq_true (by omega)⟩
  · intro m hm
    rw [hP.forward_start hlen (by omega) (by omega) (by omega)]
    exact congrArg (fun x => Except.ok (x, (P (m + 1) : ℤ) + 1)) (by omega)
  · by_cases hend : k = K
    · subst hend
      rw [hP.last]
      exact Bool.and_eq_false_iff.2 (Or.inr (decide_eq_false (by omega)))
    · exact Bool.and_eq_false_iff.2 (Or.inl (decide_eq_false (by omega)))

/-- **Counting backwards** from the end. -/
theorem findOffset_backward (hlen : s.length < 2 ^ 63 - 1) {n : ℤ} (hn : n < 0)
    (hmin : -2 ^ 63 ≤ n) :
    findOffset s n (s.length + 1) =
      Except.ok (if -n ≤ K then some ((P (K + n).toNat : ℤ) + 1) else none) := by
  have hcount := hP.count_le
  generalize hk : min (-n).toNat K = k
  have hrun := @whileLoop_run (ℤ × ℤ) Utf8Fault Utf8Fault.steps
    (fun x => x.1 < 0 && 1 < x.2) (backward s)
    (fun m => (n + m, (P (K - m) : ℤ) + 1)) k (s.length + 2) (by omega) ?_ ?_ ?_
  · rw [Nat.sub_zero, hP.last, Int.natCast_zero, Int.add_zero] at hrun
    rw [findOffset, if_neg (by omega), if_neg (by omega), if_neg (by omega), hrun, ok_bind]
    dsimp only
    by_cases hfew : -n ≤ K
    · rw [if_neg (by omega), if_pos hfew, show (K + n).toNat = K - k by omega]
      rfl
    · rw [if_pos (by omega), if_neg hfew]
      rfl
  · intro m hm
    have hle := hP.add_le 0 (K - m) (by omega)
    rw [Nat.zero_add] at hle
    exact Bool.and_eq_true _ _ ▸ ⟨decide_eq_true (by omega), decide_eq_true (by omega)⟩
  · intro m hm
    have hround := hP.backward_start hlen (show K - (m + 1) < K by omega)
      (show n + m < 0 by omega) (by omega)
    rw [show K - (m + 1) + 1 = K - m by omega] at hround
    rw [hround]
    exact congrArg (fun x => Except.ok (x, (P (K - (m + 1)) : ℤ) + 1)) (by omega)
  · by_cases hend : k = K
    · subst hend
      rw [Nat.sub_self, hP.first]
      exact Bool.and_eq_false_iff.2 (Or.inr rfl)
    · exact Bool.and_eq_false_iff.2 (Or.inl (decide_eq_false (by omega)))

/-- The results at the start of a character. -/
theorem offsetResults_start (hlen : s.length < 2 ^ 63 - 1) {m : ℕ} (hm : m < K) :
    offsetResults s (some ((P m : ℤ) + 1)) =
      Except.ok [posValue ((P m : ℤ) + 1), posValue (P (m + 1))] := by
  have hlt := hP.lt m hm
  have hle := hP.le_length (show m + 1 ≤ K from hm)
  have hend := skipToEnd_run hlen hlt hle (hP.inside m hm) (hP.start (m + 1) hm)
  rw [offsetResults, if_neg (by omega), hend, ok_bind]
  rfl

end CharStarts

/-- The results behind the string. -/
theorem offsetResults_past (s : LuaString) :
    offsetResults s (some (s.length + 1)) =
      Except.ok [posValue (s.length + 1), posValue (s.length + 1)] := by
  rw [offsetResults, if_pos (by omega), ok_bind]
  rfl

/-! ### The function -/

/-- A call without a position. -/
theorem luaOffset_eq (N : NumberRules) (hlen : s.length < 2 ^ 63 - 1) (n : Int64) :
    luaOffset N [Value.string s, Value.integer n] =
      findOffset s n.toInt (if 0 ≤ n.toInt then 1 else s.length + 1) >>= offsetResults s := by
  have hs : checkText (stackGet [Value.string s, Value.integer n] 0) "offset" 1 = Except.ok s := rfl
  have hn : N.checkPosition (stackGet [Value.string s, Value.integer n] 1) "offset" 2 =
      Except.ok n.toInt := rfl
  have hi : ∀ default : ℤ,
      N.positionOr (stackGet [Value.string s, Value.integer n] 2) default "offset" 3 =
        Except.ok default := fun _ => rfl
  rw [luaOffset, hs, ok_bind, hn, ok_bind, checkedPos_ok (by omega) (by omega), ok_bind]
  dsimp only
  rw [hi, ok_bind]
  by_cases hsign : 0 ≤ n.toInt
  · rw [if_pos hsign, checkedPosrelat_of_nonneg (by omega), ok_bind, if_neg (by omega)]
  · rw [if_neg hsign, checkedPosrelat_of_nonneg (by omega), ok_bind, if_neg (by omega)]

/-! ### Nothing overflows -/

/-- A position in the string or behind its last byte. -/
def InText (s : LuaString) (posi : ℤ) : Prop := 1 ≤ posi ∧ posi ≤ s.length + 1

theorem skipToStart_inside (hlen : s.length < 2 ^ 63 - 1) {posi : ℤ} (h : InText s posi) :
    ∃ posi', skipToStart s posi = Except.ok posi' ∧ posi ≤ posi' ∧ InText s posi' := by
  obtain ⟨hlo, hhi⟩ := h
  have hends := @whileLoop_ends ℤ Utf8Fault Utf8Fault.steps
    (fun posi => posi ≤ s.length && iscont s posi) (fun posi => checkedPos (posi + 1))
    (fun y => posi ≤ y ∧ InText s y) (fun y => (s.length + 1 - y).toNat) ?_ posi (s.length + 2)
    ⟨le_refl posi, hlo, hhi⟩ (by omega)
  · obtain ⟨y, hy, ⟨hle, hy'⟩, -⟩ := hends
    exact ⟨y, hy, hle, hy'⟩
  · rintro x ⟨hx, hxlo, hxhi⟩ hcond
    have hin := of_decide_eq_true (Bool.and_eq_true _ _ ▸ hcond).1
    exact ⟨x + 1, checkedPos_ok (by omega) (by omega), ⟨by omega, by omega, by omega⟩, by omega⟩

theorem backToStart_inside (hlen : s.length < 2 ^ 63 - 1) {posi : ℤ} (h : InText s posi) :
    ∃ posi', backToStart s posi = Except.ok posi' ∧ posi' ≤ posi ∧ InText s posi' := by
  obtain ⟨hlo, hhi⟩ := h
  have hends := @whileLoop_ends ℤ Utf8Fault Utf8Fault.steps
    (fun posi => 1 < posi && iscont s posi) (fun posi => checkedPos (posi - 1))
    (fun y => y ≤ posi ∧ InText s y) Int.toNat ?_ posi (s.length + 2)
    ⟨le_refl posi, hlo, hhi⟩ (by omega)
  · obtain ⟨y, hy, ⟨hle, hy'⟩, -⟩ := hends
    exact ⟨y, hy, hle, hy'⟩
  · rintro x ⟨hx, hxlo, hxhi⟩ hcond
    have hin := of_decide_eq_true (Bool.and_eq_true _ _ ▸ hcond).1
    exact ⟨x - 1, checkedPos_ok (by omega) (by omega), ⟨by omega, by omega, by omega⟩, by omega⟩

theorem skipToEnd_safe (hlen : s.length < 2 ^ 63 - 1) {e : ℤ} (h : InText s e) :
    Safe (skipToEnd s e) := by
  have hends := @whileLoop_ends ℤ Utf8Fault Utf8Fault.steps
    (fun e => e < s.length && iscont s (e + 1)) (fun e => checkedPos (e + 1))
    (InText s) (fun y => (s.length + 1 - y).toNat) ?_ e (s.length + 2) h
    (by unfold InText at h; omega)
  · obtain ⟨y, hy, -⟩ := hends
    rw [skipToEnd, hy]
    exact Safe.ok y
  · rintro x ⟨hxlo, hxhi⟩ hcond
    have hin := of_decide_eq_true (Bool.and_eq_true _ _ ▸ hcond).1
    exact ⟨x + 1, checkedPos_ok (by omega) (by omega), ⟨by omega, by omega⟩, by omega⟩

theorem findOffset_safe (hlen : s.length < 2 ^ 63 - 1) {n posi : ℤ} (hmin : -2 ^ 63 ≤ n)
    (hmax : n < 2 ^ 63) (h : InText s posi) :
    (∃ e, findOffset s n posi = Except.error (Utf8Fault.raise e)) ∨
      ∃ found, findOffset s n posi = Except.ok found ∧ ∀ p ∈ found, InText s p := by
  rw [findOffset]
  by_cases hzero : n = 0
  · obtain ⟨y, hy, -, hin⟩ := backToStart_inside hlen h
    rw [if_pos hzero, hy]
    refine Or.inr ⟨some y, rfl, fun p hp => ?_⟩
    exact Option.mem_some.1 hp ▸ hin
  rw [if_neg hzero]
  by_cases hcont : posi ≤ s.length ∧ iscont s posi = true
  · rw [if_pos hcont]
    exact Or.inl ⟨_, rfl⟩
  rw [if_neg hcont]
  by_cases hpos : 0 < n
  · have hends := @whileLoop_ends (ℤ × ℤ) Utf8Fault Utf8Fault.steps
      (fun x => 0 < x.1 && x.2 ≤ (s.length : ℤ)) (forward s)
      (fun x => 0 ≤ x.1 ∧ x.1 < 2 ^ 63 ∧ InText s x.2) (fun x => (s.length + 1 - x.2).toNat) ?_
      (n - 1, posi) (s.length + 2) ⟨by omega, by omega, h⟩ (by unfold InText at h; omega)
    · obtain ⟨y, hy, ⟨-, -, hin⟩, -⟩ := hends
      rw [if_pos hpos, checkedPos_ok (by omega) (by omega), ok_bind, hy, ok_bind]
      refine Or.inr ⟨_, rfl, fun p hp => ?_⟩
      split at hp
      · cases hp
      · exact Option.mem_some.1 hp ▸ hin
    · rintro ⟨k, x⟩ ⟨hk, hkmax, hxlo, hxhi⟩ hcond
      dsimp only at hk hkmax hxlo hxhi hcond
      have hgo := Bool.and_eq_true _ _ ▸ hcond
      have hk' := of_decide_eq_true hgo.1
      have hx' := of_decide_eq_true hgo.2
      obtain ⟨y, hy, hle, hin⟩ := @skipToStart_inside s hlen (x + 1) ⟨by omega, by omega⟩
      refine ⟨(k - 1, y), ?_, ⟨by dsimp only; omega, by dsimp only; omega, hin⟩, ?_⟩
      · rw [forward]
        dsimp only
        rw [checkedPos_ok (by omega) (by omega), ok_bind, hy, ok_bind,
          checkedPos_ok (by omega) (by omega), ok_bind]
        rfl
      · dsimp only
        omega
  · have hends := @whileLoop_ends (ℤ × ℤ) Utf8Fault Utf8Fault.steps
      (fun x => x.1 < 0 && 1 < x.2) (backward s)
      (fun x => -2 ^ 63 ≤ x.1 ∧ x.1 ≤ 0 ∧ InText s x.2) (fun x => x.2.toNat) ?_
      (n, posi) (s.length + 2) ⟨hmin, by omega, h⟩ (by unfold InText at h; dsimp only; omega)
    · obtain ⟨y, hy, ⟨-, -, hin⟩, -⟩ := hends
      rw [if_neg hpos, hy, ok_bind]
      refine Or.inr ⟨_, rfl, fun p hp => ?_⟩
      split at hp
      · cases hp
      · exact Option.mem_some.1 hp ▸ hin
    · rintro ⟨k, x⟩ ⟨hkmin, hk, hxlo, hxhi⟩ hcond
      dsimp only at hkmin hk hxlo hxhi hcond
      have hgo := Bool.and_eq_true _ _ ▸ hcond
      have hk' := of_decide_eq_true hgo.1
      have hx' := of_decide_eq_true hgo.2
      obtain ⟨y, hy, hle, hin⟩ := @backToStart_inside s hlen (x - 1) ⟨by omega, by omega⟩
      refine ⟨(k + 1, y), ?_, ⟨by dsimp only; omega, by dsimp only; omega, hin⟩, ?_⟩
      · rw [backward]
        dsimp only
        rw [checkedPos_ok (by omega) (by omega), ok_bind, hy, ok_bind,
          checkedPos_ok (by omega) (by omega), ok_bind]
        rfl
      · unfold InText at hin
        dsimp only
        omega

/-- **No argument of `offset` overflows.** -/
theorem luaOffset_safe (N : NumberRules) {stack : List Value}
    (hlen : ∀ s, stackGet stack 0 = Value.string s → s.length < 2 ^ 63 - 1) :
    Safe (luaOffset N stack) := by
  refine Safe.bind (checkText_safe _ _ _) fun s hs => ?_
  have hlen := hlen s (string_of_checkText hs)
  refine Safe.bind (checkPosition_safe N _ _ _) fun n hn => ?_
  obtain ⟨hmin, hmax⟩ := checkPosition_fits hn
  rw [checkedPos_ok (by omega) (by omega), ok_bind]
  refine Safe.bind (positionOr_safe N _ _ _ _) fun i hi => ?_
  obtain ⟨hlo, hhi⟩ := positionOr_fits (by split <;> omega) (by split <;> omega) hi
  rw [checkedPosrelat_eq hlo (by omega), ok_bind]
  split
  · exact Safe.raise _
  · rename_i hguard
    have hin : InText s (posrelat i s.length) := ⟨by omega, by omega⟩
    rcases findOffset_safe hlen hmin hmax hin with ⟨e, he⟩ | ⟨found, hfound, hin⟩
    · rw [he]
      exact Safe.raise e
    · rw [hfound, ok_bind]
      cases found with
      | none => exact Safe.ok _
      | some p =>
          rw [offsetResults]
          split
          · exact Safe.bind (Safe.ok p) fun last _ => Safe.ok _
          · exact Safe.bind (skipToEnd_safe hlen (hin p rfl)) fun last _ => Safe.ok _

end Tcvm
