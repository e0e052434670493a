/-
The binary64 format: what the bits of a double denote, and rounding to it.

Every finite double is a whole multiple of `2 ^ -1074`, so the value of a double is an integer in
that unit (`one` is the value of 1).  The bits below the sign are read as one natural number, which
orders the doubles of either sign; `magnitude` is what it denotes and `nearest` rounds a fraction
to it, ties to even.  An infinity gets the value `2 ^ 1024`, the first one beyond the finite
doubles, so comparing doubles other than NaN is comparing values.

* `magBits`, `sign`, `isNan`, `isInf`, `value` — the parts of a double;
* `halfEven`, `nearest`, `ofRatio`, `ofInt` — rounding;
* `lt`, `le`, `eq`, `neg`, `add`, `sub`, `mul`, `div`, `rem`, `floor` — the operations;
* `magnitude_lt_magnitude`, `nearest_magnitude`, `nearest_mono` — **rounding is monotone and leaves
  what is representable alone**;
* `value_ofScaled_mono`, `value_ofScaled_value` — the same with signs.
-/

import Mathlib.Tactic.Ring
import Mathlib.Tactic.Linarith

namespace Binary64

/-! ### The parts of a double -/

/-- The bits below the sign. -/
def magBits (f : UInt64) : ℕ := f.toNat % 2 ^ 63

/-- The bits of an infinity: all exponent bits set, and no fraction. -/
def infBits : ℕ := 2047 * 2 ^ 52

def sign (f : UInt64) : Bool := decide (2 ^ 63 ≤ f.toNat)

def isNan (f : UInt64) : Bool := decide (infBits < magBits f)

def isInf (f : UInt64) : Bool := decide (magBits f = infBits)

/-- The double with a sign and bits below it. -/
def ofSign (negative : Bool) (b : ℕ) : UInt64 :=
  UInt64.ofNat (if negative then 2 ^ 63 + b else b)

/-- Some NaN; which one an operation gives is not specified. -/
def nan : UInt64 := 0x7FF8000000000000

/-- The exponent of the last place. -/
def place (b : ℕ) : ℕ := b / 2 ^ 52 - 1

/-- What bits denote: a significand, with the implicit bit of normal numbers, at its place. -/
def magnitude (b : ℕ) : ℕ := (b - place b * 2 ^ 52) * 2 ^ place b

/-- The value of the double 1. -/
def one : ℕ := 2 ^ 1074

def value (f : UInt64) : ℤ :=
  if sign f then -(magnitude (magBits f) : ℤ) else magnitude (magBits f)

/-! ### Rounding -/

/-- The natural number closest to `num / den`, the even one of two. -/
def halfEven (num den : ℕ) : ℕ :=
  let q := num / den
  let r := num % den
  if 2 * r < den then q
  else if den < 2 * r then q + 1
  else q + q % 2

/-- The place to which a magnitude is rounded: 53 bits remain. -/
def roundPlace (n : ℕ) : ℕ := n.log2 - 52

/-- The bits closest to `num / den`.  A significand that is rounded up to `2 ^ 53` carries over
into the exponent, and what rounds beyond the finite doubles is an infinity. -/
def nearest (num den : ℕ) : ℕ :=
  let k := roundPlace (num / den)
  min infBits (k * 2 ^ 52 + halfEven num (den * 2 ^ k))

/-- Round a fraction. -/
def ofRatio (negative : Bool) (num den : ℕ) : UInt64 := ofSign negative (nearest num den)

/-- Round an integer number of units. -/
def ofScaled (z : ℤ) : UInt64 := ofRatio (decide (z < 0)) z.natAbs 1

/-- Round an integer. -/
def ofInt (z : ℤ) : UInt64 := ofScaled (z * one)

/-! ### Operations -/

def lt (a b : UInt64) : Bool := !isNan a && !isNan b && decide (value a < value b)

def le (a b : UInt64) : Bool := !isNan a && !isNan b && decide (value a ≤ value b)

def eq (a b : UInt64) : Bool := !isNan a && !isNan b && decide (value a = value b)

def neg (a : UInt64) : UInt64 := a ^^^ 0x8000000000000000

def add (a b : UInt64) : UInt64 :=
  if isNan a || isNan b then nan
  else if isInf a then if isInf b && sign a != sign b then nan else a
  else if isInf b then b
  else if value a + value b = 0 then ofSign (sign a && sign b) 0
  else ofScaled (value a + value b)

def sub (a b : UInt64) : UInt64 := add a (neg b)

def mul (a b : UInt64) : UInt64 :=
  let negative := sign a != sign b
  if isNan a || isNan b then nan
  else if isInf a || isInf b then
    if value a = 0 || value b = 0 then nan else ofSign negative infBits
  else ofRatio negative ((value a).natAbs * (value b).natAbs) one

def div (a b : UInt64) : UInt64 :=
  let negative := sign a != sign b
  if isNan a || isNan b then nan
  else if isInf a then if isInf b then nan else ofSign negative infBits
  else if isInf b then ofSign negative 0
  else if value b = 0 then if value a = 0 then nan else ofSign negative infBits
  else ofRatio negative ((value a).natAbs * one) (value b).natAbs

/-- The remainder of the truncated quotient; its sign is that of `a`. -/
def rem (a b : UInt64) : UInt64 :=
  if isNan a || isNan b || isInf a || value b = 0 then nan
  else if isInf b then a
  else ofRatio (sign a) ((value a).natAbs % (value b).natAbs) 1

/-- The largest integral double that is not above; the sign of a zero remains. -/
def floor (a : UInt64) : UInt64 :=
  if isNan a || isInf a then a
  else
    let n := (value a).natAbs
    let whole := if sign a then (n + (one - 1)) / one else n / one
    ofRatio (sign a) (whole * one) 1

/-! ### Magnitudes -/

theorem place_of_lt {b : ℕ} (h : b < 2 ^ 53) : place b = 0 := by
  unfold place
  omega

theorem magnitude_of_lt {b : ℕ} (h : b < 2 ^ 53) : magnitude b = b := by
  unfold magnitude
  rw [place_of_lt h]
  omega

/-- The bits split into a place and a significand. -/
theorem significand_bounds {b : ℕ} (h : 2 ^ 52 ≤ b) :
    2 ^ 52 ≤ b - place b * 2 ^ 52 ∧ b - place b * 2 ^ 52 < 2 ^ 53 := by
  unfold place
  omega

theorem magnitude_eq (k q : ℕ) (hq : q ≤ 2 ^ 53) (hk : k = 0 ∨ 2 ^ 52 ≤ q) :
    magnitude (k * 2 ^ 52 + q) = q * 2 ^ k := by
  by_cases hlow : k * 2 ^ 52 + q < 2 ^ 53
  · have hk0 : k = 0 := by omega
    subst hk0
    rw [magnitude_of_lt hlow]
    omega
  · unfold magnitude
    rcases Nat.lt_or_ge q (2 ^ 53) with hlt | hge
    · have hp : place (k * 2 ^ 52 + q) = k := by unfold place; omega
      rw [hp]
      congr 1
      omega
    · -- the significand carries over
      obtain rfl : q = 2 ^ 53 := by omega
      have hp : place (k * 2 ^ 52 + 2 ^ 53) = k + 1 := by unfold place; omega
      rw [hp]
      have hs : k * 2 ^ 52 + 2 ^ 53 - (k + 1) * 2 ^ 52 = 2 ^ 52 := by omega
      rw [hs, pow_succ]
      ring

/-- Larger bits denote more. -/
theorem magnitude_lt_magnitude {a b : ℕ} (h : a < b) : magnitude a < magnitude b := by
  by_cases hb : b < 2 ^ 53
  · rw [magnitude_of_lt hb, magnitude_of_lt (by omega)]
    exact h
  · obtain ⟨hbl, hbu⟩ := (significand_bounds (by omega) : 2 ^ 52 ≤ b - place b * 2 ^ 52 ∧ _)
    by_cases ha : a < 2 ^ 52
    · rw [magnitude_of_lt (by omega)]
      calc a < 2 ^ 52 := ha
        _ ≤ b - place b * 2 ^ 52 := hbl
        _ ≤ (b - place b * 2 ^ 52) * 2 ^ place b := Nat.le_mul_of_pos_right _ (by positivity)
    · obtain ⟨hal, hau⟩ := (significand_bounds (by omega) : 2 ^ 52 ≤ a - place a * 2 ^ 52 ∧ _)
      rcases Nat.lt_trichotomy (place a) (place b) with hp | hp | hp
      · unfold magnitude
        calc (a - place a * 2 ^ 52) * 2 ^ place a < 2 ^ 53 * 2 ^ place a :=
              Nat.mul_lt_mul_of_pos_right hau (by positivity)
          _ = 2 ^ 52 * 2 ^ (place a + 1) := by ring
          _ ≤ (b - place b * 2 ^ 52) * 2 ^ place b :=
              Nat.mul_le_mul hbl (Nat.pow_le_pow_right (by omega) hp)
      · have hlow : place b * 2 ^ 52 ≤ a := by
          rw [← hp]
          unfold place
          omega
        have hlt : a - place b * 2 ^ 52 < b - place b * 2 ^ 52 := Nat.sub_lt_sub_right hlow h
        unfold magnitude
        rw [hp]
        exact Nat.mul_lt_mul_of_pos_right hlt (by positivity)
      · exfalso
        unfold place at hp
        omega

theorem magnitude_le_magnitude {a b : ℕ} (h : a ≤ b) : magnitude a ≤ magnitude b := by
  rcases Nat.lt_or_eq_of_le h with hlt | rfl
  · exact Nat.le_of_lt (magnitude_lt_magnitude hlt)
  · exact Nat.le_refl _

/-! ### Rounding to nearest -/

theorem halfEven_bounds (num den : ℕ) :
    num / den ≤ halfEven num den ∧ halfEven num den ≤ num / den + 1 := by
  unfold halfEven
  dsimp only
  split
  · omega
  · split <;> omega

theorem halfEven_mul (q : ℕ) {den : ℕ} (hden : 0 < den) : halfEven (q * den) den = q := by
  unfold halfEven
  simp [Nat.mul_div_cancel q hden, hden]

theorem halfEven_mono {a b den : ℕ} (h : a ≤ b) :
    halfEven a den ≤ halfEven b den := by
  have hdiv : a / den ≤ b / den := Nat.div_le_div_right h
  obtain ⟨-, hau⟩ := halfEven_bounds a den
  obtain ⟨hbl, -⟩ := halfEven_bounds b den
  rcases Nat.lt_or_eq_of_le hdiv with hlt | heq
  · omega
  · -- with one quotient the remainders are ordered
    have hmod : a % den ≤ b % den := by
      have ha := Nat.div_add_mod a den
      have hb := Nat.div_add_mod b den
      rw [heq] at ha
      omega
    unfold halfEven
    dsimp only
    rw [heq]
    split <;> split <;> (try split) <;> (try split) <;> omega

theorem div_roundPlace_lt (n : ℕ) : n / 2 ^ roundPlace n < 2 ^ 53 := by
  rw [Nat.div_lt_iff_lt_mul (by positivity), ← pow_add]
  calc n < 2 ^ (n.log2 + 1) := Nat.lt_log2_self
    _ ≤ 2 ^ (53 + roundPlace n) := Nat.pow_le_pow_right (by omega) (by unfold roundPlace; omega)

theorem le_div_roundPlace {n : ℕ} (h : 0 < roundPlace n) : 2 ^ 52 ≤ n / 2 ^ roundPlace n := by
  have hlog : n.log2 = 52 + roundPlace n := by unfold roundPlace at h ⊢; omega
  have hn : n ≠ 0 := by
    rintro rfl
    simp [roundPlace] at h
  rw [Nat.le_div_iff_mul_le (by positivity), ← pow_add, ← hlog]
  exact Nat.log2_self_le hn

/-- The rounded significand, before infinities are cut off. -/
theorem rounded_bounds (n : ℕ) :
    halfEven n (1 * 2 ^ roundPlace n) ≤ 2 ^ 53 ∧
      (roundPlace n = 0 ∨ 2 ^ 52 ≤ halfEven n (1 * 2 ^ roundPlace n)) := by
  rw [Nat.one_mul]
  obtain ⟨hlow, hup⟩ := halfEven_bounds n (2 ^ roundPlace n)
  have hlt := div_roundPlace_lt n
  refine ⟨by omega, ?_⟩
  rcases Nat.eq_zero_or_pos (roundPlace n) with h0 | hpos
  · exact Or.inl h0
  · exact Or.inr (Nat.le_trans (le_div_roundPlace hpos) hlow)

theorem nearest_le_infBits (num den : ℕ) : nearest num den ≤ infBits := Nat.min_le_left _ _

/-- **What is representable is not rounded.** -/
theorem nearest_magnitude {b : ℕ} (h : b ≤ infBits) : nearest (magnitude b) 1 = b := by
  have hplace : roundPlace (magnitude b) = place b := by
    by_cases hb : b < 2 ^ 53
    · rw [magnitude_of_lt hb, place_of_lt hb]
      unfold roundPlace
      rcases Nat.eq_zero_or_pos b with rfl | hpos
      · simp
      · have := (Nat.log2_lt (Nat.ne_of_gt hpos)).2 hb
        omega
    · obtain ⟨hl, hu⟩ := (significand_bounds (by omega) : 2 ^ 52 ≤ b - place b * 2 ^ 52 ∧ _)
      have hlow : 2 ^ (52 + place b) ≤ magnitude b := by
        rw [pow_add]
        exact Nat.mul_le_mul_right _ hl
      have hup : magnitude b < 2 ^ (53 + place b) := by
        rw [pow_add]
        exact Nat.mul_lt_mul_of_pos_right hu (by positivity)
      have hne : magnitude b ≠ 0 := by
        have : 0 < 2 ^ (52 + place b) := by positivity
        omega
      have h1 := (Nat.le_log2 hne).2 hlow
      have h2 := (Nat.log2_lt hne).2 hup
      unfold roundPlace
      omega
  unfold nearest
  dsimp only
  rw [Nat.div_one, hplace, Nat.one_mul]
  have hround : halfEven (magnitude b) (2 ^ place b) = b - place b * 2 ^ 52 :=
    halfEven_mul _ (by positivity)
  rw [hround]
  have : place b * 2 ^ 52 ≤ b := by unfold place; omega
  omega

/-- A larger place is worth more than any significand. -/
theorem significand_carry {k l x y : ℕ} (h : k < l) (hx : x ≤ 2 ^ 53) (hy : 2 ^ 52 ≤ y) :
    k * 2 ^ 52 + x ≤ l * 2 ^ 52 + y := by
  omega

/-- **Rounding is monotone.** -/
theorem nearest_mono {m n : ℕ} (h : m ≤ n) : nearest m 1 ≤ nearest n 1 := by
  have hlog : m.log2 ≤ n.log2 := by
    rcases Nat.eq_zero_or_pos m with rfl | hpos
    · simp
    · exact (Nat.le_log2 (by omega)).2 (Nat.le_trans (Nat.log2_self_le (by omega)) h)
  have hplace : roundPlace m ≤ roundPlace n := Nat.sub_le_sub_right hlog _
  obtain ⟨hmu, -⟩ := rounded_bounds m
  obtain ⟨-, hnl⟩ := rounded_bounds n
  unfold nearest
  dsimp only
  rw [Nat.div_one, Nat.div_one]
  refine min_le_min_left _ ?_
  rcases Nat.lt_or_eq_of_le hplace with hlt | heq
  · rcases hnl with h0 | hnl
    · exact absurd hlt (by simp [h0])
    · exact significand_carry hlt hmu hnl
  · rw [heq]
    exact Nat.add_le_add_left (halfEven_mono h) _

/-! ### Signs -/

theorem infBits_lt : infBits < 2 ^ 63 := by decide

theorem toNat_ofSign {b : ℕ} (h : b < 2 ^ 63) (negative : Bool) :
    (ofSign negative b).toNat = if negative then 2 ^ 63 + b else b := by
  unfold ofSign
  rw [UInt64.toNat_ofNat']
  split <;> omega

@[simp] theorem magBits_ofSign {b : ℕ} (h : b < 2 ^ 63) (negative : Bool) :
    magBits (ofSign negative b) = b := by
  unfold magBits
  rw [toNat_ofSign h]
  split <;> omega

@[simp] theorem sign_ofSign {b : ℕ} (h : b < 2 ^ 63) (negative : Bool) :
    sign (ofSign negative b) = negative := by
  unfold sign
  rw [toNat_ofSign h]
  cases negative with
  | false => simpa using h
  | true => simp

theorem value_ofSign {b : ℕ} (h : b < 2 ^ 63) (negative : Bool) :
    value (ofSign negative b) = if negative then -(magnitude b : ℤ) else magnitude b := by
  unfold value
  rw [sign_ofSign h, magBits_ofSign h]

theorem isNan_ofSign {b : ℕ} (h : b ≤ infBits) (negative : Bool) :
    isNan (ofSign negative b) = false := by
  unfold isNan
  rw [magBits_ofSign (Nat.lt_of_le_of_lt h infBits_lt)]
  simpa using h

/-! ### Rounding integers -/

theorem value_ofScaled_of_nonneg {z : ℤ} (h : 0 ≤ z) :
    value (ofScaled z) = magnitude (nearest z.natAbs 1) := by
  unfold ofScaled ofRatio
  rw [value_ofSign (Nat.lt_of_le_of_lt (nearest_le_infBits _ _) infBits_lt)]
  simp [Int.not_lt.2 h]

theorem value_ofScaled_of_neg {z : ℤ} (h : z < 0) :
    value (ofScaled z) = -(magnitude (nearest z.natAbs 1) : ℤ) := by
  unfold ofScaled ofRatio
  rw [value_ofSign (Nat.lt_of_le_of_lt (nearest_le_infBits _ _) infBits_lt)]
  simp [h]

@[simp] theorem isNan_ofScaled (z : ℤ) : isNan (ofScaled z) = false :=
  isNan_ofSign (nearest_le_infBits _ _) _

@[simp] theorem isNan_ofInt (z : ℤ) : isNan (ofInt z) = false := isNan_ofScaled _

/-- **Rounding is monotone**, with signs. -/
theorem value_ofScaled_mono {x y : ℤ} (h : x ≤ y) : value (ofScaled x) ≤ value (ofScaled y) := by
  rcases Int.lt_or_le x 0 with hx | hx
  · rw [value_ofScaled_of_neg hx]
    rcases Int.lt_or_le y 0 with hy | hy
    · rw [value_ofScaled_of_neg hy]
      have hle : nearest y.natAbs 1 ≤ nearest x.natAbs 1 := nearest_mono (by omega)
      have := magnitude_le_magnitude hle
      omega
    · rw [value_ofScaled_of_nonneg hy]
      omega
  · have hy : 0 ≤ y := Int.le_trans hx h
    rw [value_ofScaled_of_nonneg hx, value_ofScaled_of_nonneg hy]
    exact_mod_cast magnitude_le_magnitude (nearest_mono (by omega))

theorem magBits_le_of_not_isNan {f : UInt64} (h : isNan f = false) : magBits f ≤ infBits := by
  unfold isNan at h
  simpa using h

/-- The value of a double is not rounded. -/
theorem value_ofScaled_value {f : UInt64} (h : isNan f = false) :
    value (ofScaled (value f)) = value f := by
  have hround := nearest_magnitude (magBits_le_of_not_isNan h)
  cases hs : sign f with
  | false =>
      have hv : value f = magnitude (magBits f) := by simp [value, hs]
      rw [hv, value_ofScaled_of_nonneg (by omega), Int.natAbs_natCast, hround]
  | true =>
      have hv : value f = -(magnitude (magBits f) : ℤ) := by simp [value, hs]
      rw [hv]
      rcases Nat.eq_zero_or_pos (magnitude (magBits f)) with h0 | hpos
      · rw [value_ofScaled_of_nonneg (by omega), Int.natAbs_neg, Int.natAbs_natCast, hround, h0]
        rfl
      · rw [value_ofScaled_of_neg (by omega), Int.natAbs_neg, Int.natAbs_natCast, hround]

/-- Rounding does not move a number past a double. -/
theorem value_ofScaled_le {f : UInt64} (h : isNan f = false) {z : ℤ} (hz : z ≤ value f) :
    value (ofScaled z) ≤ value f :=
  (value_ofScaled_mono hz).trans_eq (value_ofScaled_value h)

theorem le_value_ofScaled {f : UInt64} (h : isNan f = false) {z : ℤ} (hz : value f ≤ z) :
    value f ≤ value (ofScaled z) :=
  (value_ofScaled_value h).symm.trans_le (value_ofScaled_mono hz)

theorem value_one_pos : (0 : ℤ) < (one : ℤ) := by
  unfold one
  positivity

theorem value_ofInt_mono {x y : ℤ} (h : x ≤ y) : value (ofInt x) ≤ value (ofInt y) :=
  value_ofScaled_mono (Int.mul_le_mul_of_nonneg_right h value_one_pos.le)

/-! ### Comparing -/

theorem lt_iff {a b : UInt64} (ha : isNan a = false) (hb : isNan b = false) :
    lt a b = true ↔ value a < value b := by
  simp [lt, ha, hb]

theorem le_iff {a b : UInt64} (ha : isNan a = false) (hb : isNan b = false) :
    le a b = true ↔ value a ≤ value b := by
  simp [le, ha, hb]

theorem eq_iff {a b : UInt64} (ha : isNan a = false) (hb : isNan b = false) :
    eq a b = true ↔ value a = value b := by
  simp [eq, ha, hb]

end Binary64
