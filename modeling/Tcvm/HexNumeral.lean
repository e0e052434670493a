/-
Hexadecimal numerals with a binary exponent.

A numeral is a leading digit, the digits behind the point, and the exponent of two.  Its text says
which numeral it is, whatever the case of its letters.  A magnitude, in units of the least positive
double, is rounded to some digits behind the point of its significand, which is at least one and
less than two.

* `HexNumeral`, `HexNumeral.text`, `HexNumeral.value` — a numeral, its text and its value;
* `HexNumeral.text_injective` — **a text is that of one numeral**;
* `exactValue`, `roundedValue` — what is written without a precision and with one;
* `roundedValue_eq` — rounding the significand in units of its last place.
-/

import Mathlib.Tactic.FieldSimp
import Tcvm.NumeralText
import Tcvm.Positional

namespace Tcvm

/-! ### Numerals -/

structure HexNumeral where
  lead : Fin 16
  frac : List (Fin 16)
  exp : ℤ
  deriving DecidableEq

def hexChar (upper : Bool) (d : Fin 16) : Char :=
  if upper then (Nat.digitChar d).toUpper else Nat.digitChar d

namespace HexNumeral

/-- The text of a numeral. -/
def text (upper : Bool) (n : HexNumeral) : List Char :=
  '0' :: (if upper then 'X' else 'x') :: hexChar upper n.lead ::
    ((if n.frac = [] then [] else '.' :: n.frac.map (hexChar upper)) ++
      (if upper then 'P' else 'p') :: (if n.exp < 0 then '-' else '+') ::
        Nat.toDigits 10 n.exp.natAbs)

/-- All digits of a numeral. -/
def digits (n : HexNumeral) : List ℕ := (n.lead :: n.frac).map Fin.val

/-- The value of a numeral. -/
def value (n : HexNumeral) : ℚ :=
  (Positional.value 16 n.digits : ℚ) / 16 ^ n.frac.length * 2 ^ n.exp

end HexNumeral

theorem hexChar_not_mark : ∀ upper d, isBinaryMark (hexChar upper d) = false := by
  decide

theorem hexChar_inj : ∀ {upper upper' : Bool} {d d' : Fin 16},
    hexChar upper d = hexChar upper' d' → d = d' := by
  decide +kernel

theorem map_hexChar_inj {upper upper' : Bool} {ds ds' : List (Fin 16)}
    (h : ds.map (hexChar upper) = ds'.map (hexChar upper')) : ds = ds' := by
  induction ds generalizing ds' with
  | nil =>
      cases ds' with
      | nil => rfl
      | cons d' ds' => cases h
  | cons d ds ih =>
      cases ds' with
      | nil => cases h
      | cons d' ds' =>
          obtain ⟨hd, hds⟩ := List.cons.inj h
          rw [hexChar_inj hd, ih hds]

/-- What is in front of the exponent. -/
theorem splitFirst_mantissa (upper : Bool) (n : HexNumeral) (rest : List Char) :
    splitFirst isBinaryMark (hexChar upper n.lead ::
        ((if n.frac = [] then [] else '.' :: n.frac.map (hexChar upper)) ++
          (if upper then 'P' else 'p') :: rest)) =
      (hexChar upper n.lead :: (if n.frac = [] then [] else '.' :: n.frac.map (hexChar upper)),
        some rest) := by
  have hmark : isBinaryMark (if upper then 'P' else 'p') = true := by
    cases upper <;> rfl
  rw [← List.cons_append]
  refine splitFirst_some (fun c hc => ?_) hmark rest
  rcases List.mem_cons.1 hc with rfl | hc
  · exact hexChar_not_mark upper n.lead
  · split at hc
    · cases hc
    · rcases List.mem_cons.1 hc with rfl | hc
      · rfl
      · obtain ⟨d, -, rfl⟩ := List.mem_map.1 hc
        exact hexChar_not_mark upper d

/-- **A text is that of one numeral.** -/
theorem HexNumeral.text_injective {upper upper' : Bool} {n n' : HexNumeral}
    (h : n.text upper = n'.text upper') : n = n' := by
  obtain ⟨-, h⟩ := List.cons.inj h
  obtain ⟨-, h⟩ := List.cons.inj h
  have hsplit := congrArg (splitFirst isBinaryMark) h
  rw [splitFirst_mantissa, splitFirst_mantissa] at hsplit
  obtain ⟨hmantissa, hexp⟩ := Prod.mk.inj hsplit
  obtain ⟨hlead, hfrac⟩ := List.cons.inj hmantissa
  obtain ⟨hsign, hdigits⟩ := List.cons.inj (Option.some.inj hexp)
  have hlead' : n.lead = n'.lead := hexChar_inj hlead
  have hfrac' : n.frac = n'.frac := by
    split at hfrac
    · rename_i hnil
      split at hfrac
      · rename_i hnil'
        rw [hnil, hnil']
      · cases hfrac
    · split at hfrac
      · cases hfrac
      · exact map_hexChar_inj (List.cons.inj hfrac).2
  have hexp' : n.exp = n'.exp := by
    have habs := congrArg (digitsValue 10) hdigits
    rw [digitsValue_toDigits, digitsValue_toDigits] at habs
    split at hsign <;> split at hsign
    · omega
    · exact absurd hsign (by decide)
    · exact absurd hsign (by decide)
    · omega
  cases n
  cases n'
  dsimp only at hlead' hfrac' hexp'
  rw [hlead', hfrac', hexp']

/-! ### Values -/

/-- A magnitude in units of the least positive double. -/
def exactValue (m : ℕ) : ℚ := (m : ℚ) / 2 ^ 1074

/-- The significand rounded to `p` digits behind the point, half to even. -/
def roundedValue (p m : ℕ) : ℚ :=
  (Binary64.halfEven (16 ^ p * m) (2 ^ m.log2) : ℚ) / 16 ^ p * 2 ^ ((m.log2 : ℤ) - 1074)

/-- Zeros behind the point say nothing. -/
theorem HexNumeral.value_zeros (lead : Fin 16) (frac : List (Fin 16)) (exp : ℤ) (k : ℕ) :
    (⟨lead, frac ++ List.replicate k 0, exp⟩ : HexNumeral).value =
      (⟨lead, frac, exp⟩ : HexNumeral).value := by
  have hdigits : (⟨lead, frac ++ List.replicate k 0, exp⟩ : HexNumeral).digits =
      (⟨lead, frac, exp⟩ : HexNumeral).digits ++ List.replicate k 0 := by
    unfold HexNumeral.digits
    rw [← List.cons_append, List.map_append, List.map_replicate]
    rfl
  unfold HexNumeral.value
  rw [hdigits, Positional.value_append, Positional.value_replicate_zero, List.length_replicate,
    List.length_append, List.length_replicate, pow_add]
  push_cast
  field_simp
  ring

/-- A magnitude by its significand in units of the last of thirteen digits. -/
theorem exactValue_eq {m s : ℕ} (hs : s * 2 ^ m.log2 = m * 2 ^ 52) :
    exactValue m = (s : ℚ) / 16 ^ 13 * 2 ^ ((m.log2 : ℤ) - 1074) := by
  have hcast : (s : ℚ) * 2 ^ m.log2 = m * 2 ^ 52 := by exact_mod_cast hs
  have h16 : (16 : ℚ) ^ 13 = 2 ^ 52 := by norm_num
  unfold exactValue
  rw [h16, zpow_sub₀ (by norm_num), zpow_natCast, div_mul_div_comm, hcast,
    mul_comm ((2 : ℚ) ^ 52), mul_div_mul_right _ _ (by norm_num)]
  norm_cast

/-- **The significand is rounded in units of the last of thirteen digits.** -/
theorem roundedValue_eq {p m s : ℕ} (hs : s * 2 ^ m.log2 = m * 2 ^ 52) :
    roundedValue p m = (Binary64.halfEven (16 ^ p * s) (16 ^ 13) : ℚ) / 16 ^ p *
      2 ^ ((m.log2 : ℤ) - 1074) := by
  have hhalf : Binary64.halfEven (16 ^ p * m) (2 ^ m.log2) =
      Binary64.halfEven (16 ^ p * s) (16 ^ 13) := by
    have h16 : (16 : ℕ) ^ 13 = 2 ^ 52 := by norm_num
    rw [← Positional.halfEven_mul_mul (show 0 < 2 ^ 52 by norm_num) (16 ^ p * m),
      ← Positional.halfEven_mul_mul (show 0 < 2 ^ m.log2 by positivity) (16 ^ p * s), h16]
    congr 1
    · calc 2 ^ 52 * (16 ^ p * m) = 16 ^ p * (m * 2 ^ 52) := by ring
        _ = 16 ^ p * (s * 2 ^ m.log2) := by rw [hs]
        _ = 2 ^ m.log2 * (16 ^ p * s) := by ring
    · ring
  unfold roundedValue
  rw [hhalf]

end Tcvm
