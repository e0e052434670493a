/-
Digits, the most significant one first.

A number in positional notation is cut off behind some of its digits and rounded, half to even.
Whether the kept digits are rounded up is seen from the first digit that is dropped, from whether
the others are all zero, and from the last digit that is kept; the carry runs through the kept
digits from their end.  Nothing here is about a particular format.

* `value` — what digits stand for;
* `value_append`, `value_lt`, `value_eq_zero_iff` — its rules;
* `value_concat_mod_two` — the parity is that of the last digit;
* `halfEven_digits` — **rounding digits**.
-/

import Mathlib.Data.Nat.Digits.Defs
import Tcvm.Binary64

namespace Positional

open Binary64

variable {base : ℕ} {ds es : List ℕ} {d : ℕ}

/-- What digits stand for. -/
def value (base : ℕ) (ds : List ℕ) : ℕ := Nat.ofDigits base ds.reverse

theorem value_append :
    value base (ds ++ es) = value base ds * base ^ es.length + value base es := by
  unfold value
  rw [List.reverse_append, Nat.ofDigits_append, List.length_reverse, Nat.add_comm, Nat.mul_comm]

theorem value_singleton : value base [d] = d := Nat.ofDigits_singleton

theorem value_concat : value base (ds ++ [d]) = value base ds * base + d := by
  rw [value_append, value_singleton, List.length_singleton, pow_one]

theorem value_cons : value base (d :: ds) = d * base ^ ds.length + value base ds := by
  rw [← List.singleton_append, value_append, value_singleton]

theorem value_replicate_zero (n : ℕ) : value base (List.replicate n 0) = 0 := by
  unfold value
  rw [List.reverse_replicate, Nat.ofDigits_replicate_zero]

/-- Digits stand for less than the next power of the base. -/
theorem value_lt (hbase : 1 < base) (h : ∀ d ∈ ds, d < base) :
    value base ds < base ^ ds.length := by
  have hlt := @Nat.ofDigits_lt_base_pow_length base ds.reverse hbase fun d hd =>
    h d (List.mem_reverse.1 hd)
  rw [List.length_reverse] at hlt
  exact hlt

theorem value_eq_zero_iff (hbase : 0 < base) : value base ds = 0 ↔ ∀ d ∈ ds, d = 0 := by
  induction ds with
  | nil => exact ⟨fun _ d hd => absurd hd List.not_mem_nil, fun _ => rfl⟩
  | cons d ds ih =>
      have hpow : 0 < base ^ ds.length := Nat.pow_pos hbase
      rw [value_cons, Nat.add_eq_zero_iff, Nat.mul_eq_zero, ih, List.forall_mem_cons]
      constructor
      · rintro ⟨hd | hzero, hds⟩
        · exact ⟨hd, hds⟩
        · omega
      · rintro ⟨hd, hds⟩
        exact ⟨Or.inl hd, hds⟩

/-- In an even base the parity is that of the last digit. -/
theorem value_concat_mod_two {half : ℕ} : value (2 * half) (ds ++ [d]) % 2 = d % 2 := by
  rw [value_concat, ← Nat.mul_assoc, Nat.mul_comm _ 2, Nat.mul_assoc, Nat.mul_add_mod]

/-- The digits of a number, cut off behind the point of a power. -/
theorem value_digits (base n x : ℕ) :
    value base ((List.range (n + 1)).map fun i => x / base ^ (n - i) % base) =
      x % base ^ (n + 1) := by
  induction n generalizing x with
  | zero =>
      change value base [x / base ^ 0 % base] = _
      rw [value_singleton, pow_zero, Nat.div_one, pow_one]
  | succ n ih =>
      have hfront : (List.range (n + 1)).map (fun i => x / base ^ (n + 1 - i) % base) =
          (List.range (n + 1)).map fun i => x / base / base ^ (n - i) % base := by
        refine List.map_congr_left fun i hi => ?_
        have hle : i ≤ n := Nat.le_of_lt_succ (List.mem_range.1 hi)
        rw [Nat.div_div_eq_div_mul, ← pow_succ', Nat.succ_sub hle]
      rw [List.range_succ, List.map_append, List.map_singleton, value_concat, hfront, ih,
        Nat.sub_self, pow_zero, Nat.div_one, Nat.pow_succ' (n := n + 1), Nat.mod_mul,
        Nat.add_comm, Nat.mul_comm]

/-! ### Rounding -/

/-- A fraction can be reduced before it is rounded. -/
theorem halfEven_mul_mul {c : ℕ} (hc : 0 < c) (num den : ℕ) :
    halfEven (c * num) (c * den) = halfEven num den := by
  have hdouble : 2 * (c * (num % den)) = c * (2 * (num % den)) := Nat.mul_left_comm 2 c _
  unfold halfEven
  rw [Nat.mul_div_mul_left _ _ hc, Nat.mul_mod_mul_left]
  dsimp only
  rw [hdouble]
  simp only [Nat.mul_lt_mul_left hc]

/-- What is behind a multiple of the denominator decides how it is rounded. -/
theorem halfEven_mul_add {q rem den : ℕ} (hrem : rem < den) :
    halfEven (q * den + rem) den =
      if 2 * rem < den then q else if den < 2 * rem then q + 1 else q + q % 2 := by
  unfold halfEven
  rw [Nat.add_comm, Nat.add_mul_div_right _ _ (Nat.zero_lt_of_lt hrem), Nat.div_eq_of_lt hrem,
    Nat.add_mul_mod_self_right, Nat.mod_eq_of_lt hrem, Nat.zero_add]

/-- **Rounding digits half to even**: up behind a digit over the half, and behind the half itself
where another digit follows that is not zero, or the number that is kept is odd. -/
theorem halfEven_digits {half : ℕ} (hd : d < 2 * half) (hes : ∀ e ∈ es, e < 2 * half) :
    halfEven (value (2 * half) (ds ++ d :: es)) ((2 * half) ^ (es.length + 1)) =
      value (2 * half) ds + if half < d ∨ d = half ∧
        ((∃ e ∈ es, e ≠ 0) ∨ value (2 * half) ds % 2 = 1) then 1 else 0 := by
  have htail := value_lt (by omega) hes
  have hzero := @value_eq_zero_iff (2 * half) es (by omega)
  rw [value_append, value_cons, List.length_cons, pow_succ]
  generalize value (2 * half) ds = kept
  generalize value (2 * half) es = tail at htail hzero ⊢
  generalize (2 * half) ^ es.length = place at htail ⊢
  have hden : place * (2 * half) = 2 * (half * place) := by ring
  have hrem : d * place + tail < place * (2 * half) := by
    have hle : (d + 1) * place ≤ 2 * half * place := Nat.mul_le_mul_right place hd
    rw [Nat.add_mul, Nat.one_mul, Nat.mul_comm (2 * half)] at hle
    omega
  rw [halfEven_mul_add hrem, hden]
  rcases Nat.lt_trichotomy d half with hlt | heq | hgt
  · -- below the half, whatever follows
    have hle : (d + 1) * place ≤ half * place := Nat.mul_le_mul_right place hlt
    rw [Nat.add_mul, Nat.one_mul] at hle
    rw [if_pos (by omega), if_neg (by omega)]
    rfl
  · subst heq
    by_cases hexists : ∃ e ∈ es, e ≠ 0
    · have hpos : tail ≠ 0 := by
        intro h
        obtain ⟨e, he, hne⟩ := hexists
        exact hne (hzero.1 h e he)
      rw [if_neg (by omega), if_pos (by omega), if_pos (Or.inr ⟨rfl, Or.inl hexists⟩)]
    · have hnone : tail = 0 := by
        refine hzero.2 fun e he => Decidable.byContradiction fun hne => ?_
        exact hexists ⟨e, he, hne⟩
      rw [if_neg (by omega), if_neg (by omega)]
      by_cases hodd : kept % 2 = 1
      · rw [if_pos (Or.inr ⟨rfl, Or.inr hodd⟩), hodd]
      · rw [if_neg (by simp [hexists, hodd])]
        omega
  · have hle : (half + 1) * place ≤ d * place := Nat.mul_le_mul_right place hgt
    rw [Nat.add_mul, Nat.one_mul] at hle
    rw [if_neg (by omega), if_pos (by omega), if_pos (Or.inl hgt)]

end Positional
