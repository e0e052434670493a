/-
Hexadecimal text of floats.

The significand of a double is written with a leading digit and thirteen digits behind the point,
a subnormal one after it has been shifted up to its highest bit.  A precision cuts the digits off
and rounds, half to even; the carry runs through the kept digits from their end, and into the
leading digit.

* `hexParts`, `hexDigits`, `roundDigits`, `formatHexFloat` — the source's function;
* `hexParts_spec`, `value_hexDigits` — the significand and its digits;
* `rippleCarry_spec`, `roundDigits_spec` — the carry, and the rounding;
* `format_hex_float_exact` — **the value of the text**.
-/

import Mathlib.Data.List.DropRight
import Tcvm.HexNumeral

namespace Tcvm

/-! ### The function -/

/-- The leading digit, the exponent, and the fraction below the leading digit. -/
def hexParts (bits : UInt64) : UInt8 × ℤ × UInt64 :=
  let expBits := (bits >>> 52) &&& 0x7ff
  let rawFrac := bits &&& 0xfffffffffffff
  if expBits = 0 then
    if rawFrac = 0 then (0, 0, 0)
    else
      -- the highest bit of a subnormal number becomes the leading digit
      let hb := rawFrac.toNat.log2
      (1, (hb : ℤ) - 1074, (rawFrac <<< UInt64.ofNat (52 - hb)) &&& 0xfffffffffffff)
  else (1, (expBits.toNat : ℤ) - 1023, rawFrac)

/-- The digits of the fraction. -/
def hexDigits (frac : UInt64) : List UInt8 :=
  (List.range 13).map fun i => ((frac >>> UInt64.ofNat (48 - i * 4)) &&& 0xf).toUInt8

/-- The loop of the carry, from the digit in front of the index. -/
def rippleCarry : ℕ → List UInt8 → List UInt8 × Bool
  | 0, ds => (ds, true)
  | i + 1, ds =>
      if ds.getD i 0 = 0xf then rippleCarry i (ds.set i 0)
      else (ds.set i (ds.getD i 0 + 1), false)

/-- `round_up`: half to even, seen from the first digit that is dropped. -/
def roundUp (lead : UInt8) (digits : List UInt8) (p : ℕ) : Bool :=
  let first := digits.getD p 0
  let restNonzero := (digits.drop (p + 1)).any (· != 0)
  if first > 8 then true
  else if first < 8 then false
  else if restNonzero then true
  else
    let lastKept := if p = 0 then lead else digits.getD (p - 1) 0
    lastKept &&& 1 == 1

/-- The branch of `format_hex_float` for a precision. -/
def roundDigits (lead : UInt8) (digits : List UInt8) (p : ℕ) : UInt8 × List UInt8 :=
  if p < digits.length then
    let kept := digits.take p
    if roundUp lead digits p then
      let (kept, carry) := rippleCarry kept.length kept
      (if carry then lead + 1 else lead, kept)
    else (lead, kept)
  else (lead, digits.take p)

def hexdig (upper : Bool) (d : UInt8) : Char :=
  Char.ofNat (if d < 10 then 48 + d else if upper then 65 + (d - 10) else 97 + (d - 10)).toNat

/-- The text of the parts. -/
def hexText (upper : Bool) (prec : Option ℕ) (lead : UInt8) (exp : ℤ) (digits : List UInt8) :
    List Char :=
  let padding := match prec with
    | some p => List.replicate (p - digits.length) '0'
    | none => []
  let fraction :=
    if !digits.isEmpty || prec.any (0 < ·) then '.' :: (digits.map (hexdig upper) ++ padding)
    else []
  '0' :: (if upper then 'X' else 'x') :: Char.ofNat (48 + lead).toNat ::
    (fraction ++ (if upper then 'P' else 'p') :: (if exp < 0 then '-' else '+') ::
      Nat.toDigits 10 exp.natAbs)

/-- `format_hex_float`. -/
def formatHexFloat (bits : UInt64) (upper : Bool) (prec : Option ℕ) : List Char :=
  let (lead, exp, frac) := hexParts bits
  match prec with
  | some p =>
      let (lead, digits) := roundDigits lead (hexDigits frac) p
      hexText upper prec lead exp digits
  | none => hexText upper prec lead exp ((hexDigits frac).rdropWhile (· == 0))

/-! ### The significand -/

/-- The significand of a finite magnitude, in units of the last of thirteen digits. -/
structure Significand (m : ℕ) (lead : UInt8) (exp : ℤ) (frac : UInt64) : Prop where
  lead_le : lead.toNat ≤ 1
  frac_lt : frac.toNat < 2 ^ 52
  value_eq : (lead.toNat * 2 ^ 52 + frac.toNat) * 2 ^ m.log2 = m * 2 ^ 52
  exp_eq : m ≠ 0 → exp = (m.log2 : ℤ) - 1074

theorem log2_mul_two_pow {q k : ℕ} (hlow : 2 ^ 52 ≤ q) (hup : q < 2 ^ 53) :
    (q * 2 ^ k).log2 = 52 + k := by
  have hpos : 0 < 2 ^ k := by positivity
  refine (Nat.log2_eq_iff (by positivity)).2 ⟨?_, ?_⟩
  · rw [pow_add]
    exact Nat.mul_le_mul_right _ hlow
  · rw [show 52 + k + 1 = 53 + k by omega, pow_add]
    exact Nat.mul_lt_mul_of_pos_right hup hpos

/-- The fraction of a subnormal number, shifted so that the highest bit falls off. -/
theorem toNat_shifted {r : UInt64} (hpos : r.toNat ≠ 0) (hlt : r.toNat < 2 ^ 52) :
    2 ^ 52 + ((r <<< UInt64.ofNat (52 - r.toNat.log2)) &&& 0xfffffffffffff).toNat =
      r.toNat * 2 ^ (52 - r.toNat.log2) := by
  have hlog : r.toNat.log2 < 52 := (Nat.log2_lt hpos).2 hlt
  have hlow : 2 ^ r.toNat.log2 ≤ r.toNat := Nat.log2_self_le hpos
  have hup : r.toNat < 2 ^ (r.toNat.log2 + 1) := Nat.lt_log2_self
  generalize r.toNat.log2 = hb at hlog hlow hup ⊢
  have hpow : 2 ^ hb * 2 ^ (52 - hb) = 2 ^ 52 := by
    rw [← pow_add]
    congr 1
    omega
  have hge : 2 ^ 52 ≤ r.toNat * 2 ^ (52 - hb) := by
    rw [← hpow]
    exact Nat.mul_le_mul_right _ hlow
  have hlt' : r.toNat * 2 ^ (52 - hb) < 2 ^ 53 := by
    have hmul := Nat.mul_lt_mul_of_pos_right hup (show 0 < 2 ^ (52 - hb) by positivity)
    rw [pow_succ, Nat.mul_right_comm, hpow] at hmul
    exact hmul
  have hshift : (UInt64.ofNat (52 - hb)).toNat % 64 = 52 - hb := by
    rw [UInt64.toNat_ofNat']
    omega
  rw [UInt64.toNat_and, UInt64.toNat_shiftLeft, hshift, Nat.shiftLeft_eq]
  change _ + (_ &&& (2 ^ 52 - 1)) = _
  rw [Nat.and_two_pow_sub_one_eq_mod]
  omega

theorem hexParts_spec {bits : UInt64} (hfinite : Binary64.magBits bits < Binary64.infBits) :
    Significand (Binary64.magnitude (Binary64.magBits bits)) (hexParts bits).1 (hexParts bits).2.1
      (hexParts bits).2.2 := by
  have hexpBits : ((bits >>> 52) &&& 0x7ff).toNat = bits.toNat / 2 ^ 52 % 2 ^ 11 := by
    rw [UInt64.toNat_and, UInt64.toNat_shiftRight]
    change (bits.toNat >>> 52) &&& (2 ^ 11 - 1) = _
    rw [Nat.and_two_pow_sub_one_eq_mod, Nat.shiftRight_eq_div_pow]
  have hrawFrac : (bits &&& 0xfffffffffffff).toNat = bits.toNat % 2 ^ 52 := by
    rw [UInt64.toNat_and]
    change bits.toNat &&& (2 ^ 52 - 1) = _
    rw [Nat.and_two_pow_sub_one_eq_mod]
  have hmag : Binary64.magBits bits = ((bits >>> 52) &&& 0x7ff).toNat * 2 ^ 52 +
      (bits &&& 0xfffffffffffff).toNat := by
    have hbits := bits.toNat_lt
    unfold Binary64.magBits
    omega
  have hfrac : (bits &&& 0xfffffffffffff).toNat < 2 ^ 52 := by omega
  rw [hmag] at hfinite ⊢
  rw [hexParts]
  generalize (bits >>> 52) &&& 0x7ff = e at hfinite ⊢
  generalize bits &&& 0xfffffffffffff = r at hfinite hfrac ⊢
  dsimp only
  by_cases he : e = 0
  · subst he
    rw [if_pos rfl, show (0 : UInt64).toNat = 0 from rfl, Nat.zero_mul, Nat.zero_add,
      Binary64.magnitude_of_lt (by omega)]
    by_cases hr : r = 0
    · subst hr
      rw [if_pos rfl]
      exact ⟨by decide, by decide, by decide, fun h => absurd rfl h⟩
    · have hpos : r.toNat ≠ 0 := fun h => hr (UInt64.toNat_inj.1 h)
      have hshifted := toNat_shifted hpos hfrac
      have hlog : r.toNat.log2 < 52 := (Nat.log2_lt hpos).2 hfrac
      rw [if_neg hr]
      refine ⟨Nat.le_refl 1, ?_, ?_, fun _ => rfl⟩
      · dsimp only
        rw [UInt64.toNat_and]
        exact Nat.and_lt_two_pow _ (by decide)
      · dsimp only
        rw [show (1 : UInt8).toNat = 1 from rfl, Nat.one_mul, hshifted, Nat.mul_assoc, ← pow_add,
          Nat.sub_add_cancel (by omega)]
  · have hpos : e.toNat ≠ 0 := fun h => he (UInt64.toNat_inj.1 h)
    have hmagnitude : Binary64.magnitude (e.toNat * 2 ^ 52 + r.toNat) =
        (2 ^ 52 + r.toNat) * 2 ^ (e.toNat - 1) := by
      rw [← Binary64.magnitude_eq (e.toNat - 1) (2 ^ 52 + r.toNat) (by omega) (by omega)]
      exact congrArg Binary64.magnitude (by omega)
    have hlog := @log2_mul_two_pow (2 ^ 52 + r.toNat) (e.toNat - 1) (by omega) (by omega)
    rw [if_neg he, hmagnitude]
    refine ⟨Nat.le_refl 1, hfrac, ?_, fun _ => ?_⟩
    · rw [hlog, show (1 : UInt8).toNat = 1 from rfl, pow_add]
      ring
    · rw [hlog]
      dsimp only
      omega

/-! ### The digits -/

/-- The bytes of digits. -/
def hexValue (ds : List UInt8) : ℕ := Positional.value 16 (ds.map UInt8.toNat)

/-- Every byte is a digit. -/
def AllHex (ds : List UInt8) : Prop := ∀ d ∈ ds, d.toNat < 16

theorem hexValue_concat (ds : List UInt8) (d : UInt8) :
    hexValue (ds ++ [d]) = hexValue ds * 16 + d.toNat := by
  unfold hexValue
  rw [List.map_append]
  exact Positional.value_concat

theorem allHex_append {ds es : List UInt8} : AllHex (ds ++ es) ↔ AllHex ds ∧ AllHex es :=
  List.forall_mem_append

theorem hexDigits_spec {frac : UInt64} (hfrac : frac.toNat < 2 ^ 52) :
    (hexDigits frac).length = 13 ∧ AllHex (hexDigits frac) ∧
      hexValue (hexDigits frac) = frac.toNat := by
  have hdigit : ∀ i, i < 13 →
      ((frac >>> UInt64.ofNat (48 - i * 4)) &&& 0xf).toUInt8.toNat =
        frac.toNat / 16 ^ (12 - i) % 16 := by
    intro i hi
    have hshift : (UInt64.ofNat (48 - i * 4)).toNat % 64 = 4 * (12 - i) := by
      rw [UInt64.toNat_ofNat']
      omega
    rw [UInt64.toNat_toUInt8, UInt64.toNat_and, UInt64.toNat_shiftRight, hshift,
      Nat.shiftRight_eq_div_pow, pow_mul]
    change (_ &&& (2 ^ 4 - 1)) % _ = _
    rw [Nat.and_two_pow_sub_one_eq_mod, show (2 : ℕ) ^ 4 = 16 by norm_num]
    omega
  have hmap : (hexDigits frac).map UInt8.toNat =
      (List.range 13).map fun i => frac.toNat / 16 ^ (12 - i) % 16 := by
    unfold hexDigits
    rw [List.map_map]
    exact List.map_congr_left fun i hi => hdigit i (List.mem_range.1 hi)
  refine ⟨by rw [hexDigits, List.length_map, List.length_range], fun d hd => ?_, ?_⟩
  · obtain ⟨i, hi, rfl⟩ := List.mem_map.1 hd
    rw [hdigit i (List.mem_range.1 hi)]
    exact Nat.mod_lt _ (by decide)
  · rw [hexValue, hmap, Positional.value_digits 16 12, Nat.mod_eq_of_lt]
    calc frac.toNat < 2 ^ 52 := hfrac
      _ = 16 ^ 13 := by norm_num

/-! ### Rounding -/

/-- **The carry** adds one to the digits in front of the index, and is left where they were all
fifteen. -/
theorem rippleCarry_spec {front : List UInt8} (hfront : AllHex front) (back : List UInt8) :
    ∃ front' carry, rippleCarry front.length (front ++ back) = (front' ++ back, carry) ∧
      front'.length = front.length ∧ AllHex front' ∧
      hexValue front' + (if carry then 16 ^ front.length else 0) = hexValue front + 1 := by
  induction front using List.reverseRecOn generalizing back with
  | nil => exact ⟨[], true, rfl, rfl, fun d hd => absurd hd List.not_mem_nil, rfl⟩
  | append_singleton front d ih =>
      obtain ⟨hfront, hd⟩ := allHex_append.1 hfront
      have hget : (front ++ [d] ++ back).getD front.length 0 = d := by
        simp
      have hset : ∀ e, (front ++ [d] ++ back).set front.length e = front ++ e :: back := by
        intro e
        simp
      have hlt : d.toNat < 16 := hd d (List.mem_singleton_self d)
      rw [List.length_append, List.length_singleton, rippleCarry, hget]
      by_cases hfifteen : d = 0xf
      · rw [if_pos hfifteen, hset]
        obtain ⟨front', carry, heq, hlen, hall, hvalue⟩ := ih hfront (0 :: back)
        refine ⟨front' ++ [0], carry, by rw [heq]; simp, by simp [hlen], ?_, ?_⟩
        · refine allHex_append.2 ⟨hall, fun e he => ?_⟩
          rw [List.mem_singleton.1 he]
          decide
        · have hd15 : d.toNat = 15 := by rw [hfifteen]; rfl
          rw [hexValue_concat, hexValue_concat, hd15, pow_succ, show (0 : UInt8).toNat = 0 from rfl]
          split at hvalue
          · rename_i hcarry
            rw [if_pos hcarry]
            omega
          · rename_i hcarry
            rw [if_neg hcarry]
            omega
      · have hne : d.toNat ≠ 15 := fun h => hfifteen (UInt8.toNat_inj.1 h)
        have hsucc : (d + 1).toNat = d.toNat + 1 := by
          rw [UInt8.toNat_add]
          change (d.toNat + 1) % 256 = _
          omega
        rw [if_neg hfifteen, hset]
        refine ⟨front ++ [d + 1], false, by simp, by simp, ?_, ?_⟩
        · refine allHex_append.2 ⟨hfront, fun e he => ?_⟩
          rw [List.mem_singleton.1 he]
          omega
        · rw [hexValue_concat, hexValue_concat, hsucc, if_neg Bool.false_ne_true]
          omega

/-- The leading digit and the digits behind it. -/
theorem value_lead (lead : UInt8) (ds : List UInt8) :
    Positional.value (2 * 8) ((lead :: ds).map UInt8.toNat) =
      lead.toNat * 16 ^ ds.length + hexValue ds := by
  have hcons := @Positional.value_cons 16 (ds.map UInt8.toNat) lead.toNat
  rw [List.length_map] at hcons
  exact hcons

/-- The last digit that is kept decides whether what is kept is odd. -/
theorem lastKept_odd (lead : UInt8) (kept rest : List UInt8) :
    ((if kept.length = 0 then lead
        else (kept ++ rest).getD (kept.length - 1) 0) &&& 1 == 1) = true ↔
      Positional.value (2 * 8) ((lead :: kept).map UInt8.toNat) % 2 = 1 := by
  have hparity : ∀ d : UInt8, (d &&& 1 == 1) = true ↔ d.toNat % 2 = 1 := by
    intro d
    rw [beq_iff_eq, ← UInt8.toNat_inj, UInt8.toNat_and]
    change d.toNat &&& (2 ^ 1 - 1) = 1 ↔ _
    rw [Nat.and_two_pow_sub_one_eq_mod]
  induction kept using List.reverseRecOn with
  | nil =>
      rw [if_pos List.length_nil, hparity]
      exact iff_of_eq (congrArg (fun v => v % 2 = 1) Positional.value_singleton.symm)
  | append_singleton front d _ =>
      have hget : (front ++ [d] ++ rest).getD ((front ++ [d]).length - 1) 0 = d := by simp
      rw [if_neg (by simp), hget, hparity, ← List.cons_append, List.map_append]
      exact iff_of_eq (congrArg (fun v => v = 1)
        (@Positional.value_concat_mod_two ((lead :: front).map UInt8.toNat) d.toNat 8).symm)

/-- Where the digits are rounded up. -/
theorem roundUp_iff (lead first : UInt8) (kept rest : List UInt8) :
    roundUp lead (kept ++ first :: rest) kept.length = true ↔
      8 < first.toNat ∨ first.toNat = 8 ∧ ((∃ e ∈ rest.map UInt8.toNat, e ≠ 0) ∨
        Positional.value (2 * 8) ((lead :: kept).map UInt8.toNat) % 2 = 1) := by
  have hget : (kept ++ first :: rest).getD kept.length 0 = first := by simp
  have hdrop : (kept ++ first :: rest).drop (kept.length + 1) = rest := by
    rw [← List.drop_drop, List.drop_left]
    rfl
  have hany : rest.any (· != 0) = true ↔ ∃ e ∈ rest.map UInt8.toNat, e ≠ 0 := by
    rw [List.any_eq_true]
    constructor
    · rintro ⟨d, hd, hne⟩
      exact ⟨d.toNat, List.mem_map_of_mem hd, fun h => bne_iff_ne.1 hne (UInt8.toNat_inj.1 h)⟩
    · rintro ⟨e, he, hne⟩
      obtain ⟨d, hd, rfl⟩ := List.mem_map.1 he
      exact ⟨d, hd, bne_iff_ne.2 fun h => hne (by rw [h]; rfl)⟩
  have hodd := lastKept_odd lead kept (first :: rest)
  unfold roundUp
  rw [hget, hdrop, ← hany]
  dsimp only
  by_cases hgt : first > 8
  · rw [if_pos hgt]
    exact iff_of_true rfl (Or.inl (UInt8.lt_iff_toNat_lt.1 hgt))
  · rw [if_neg hgt]
    rw [gt_iff_lt, UInt8.lt_iff_toNat_lt, show (8 : UInt8).toNat = 8 from rfl] at hgt
    by_cases hlt : first < 8
    · rw [if_pos hlt]
      rw [UInt8.lt_iff_toNat_lt, show (8 : UInt8).toNat = 8 from rfl] at hlt
      exact iff_of_false Bool.false_ne_true (by omega)
    · rw [if_neg hlt]
      rw [UInt8.lt_iff_toNat_lt, show (8 : UInt8).toNat = 8 from rfl] at hlt
      have htie : first.toNat = 8 := by omega
      by_cases hsome : rest.any (· != 0) = true
      · rw [if_pos hsome]
        exact iff_of_true rfl (Or.inr ⟨htie, Or.inl hsome⟩)
      · rw [if_neg hsome, hodd]
        constructor
        · intro h
          exact Or.inr ⟨htie, Or.inr h⟩
        · rintro (h | ⟨-, h | h⟩)
          · omega
          · exact absurd h hsome
          · exact h

/-- **Rounding**: the leading digit and the kept digits are the number rounded half to even. -/
theorem roundDigits_spec {lead first : UInt8} {kept rest : List UInt8} (hlead : lead.toNat ≤ 1)
    (hall : AllHex (kept ++ first :: rest)) :
    ∃ lead' kept', roundDigits lead (kept ++ first :: rest) kept.length = (lead', kept') ∧
      kept'.length = kept.length ∧ AllHex kept' ∧ lead'.toNat ≤ 2 ∧
      lead'.toNat * 16 ^ kept.length + hexValue kept' =
        Binary64.halfEven (lead.toNat * 16 ^ (kept ++ first :: rest).length +
          hexValue (kept ++ first :: rest)) (16 ^ (rest.length + 1)) := by
  obtain ⟨hkept, hdropped⟩ := allHex_append.1 hall
  have hfirst : first.toNat < 16 := hdropped first List.mem_cons_self
  have hrest : ∀ e ∈ rest.map UInt8.toNat, e < 2 * 8 := by
    intro e he
    obtain ⟨d, hd, rfl⟩ := List.mem_map.1 he
    exact hdropped d (List.mem_cons_of_mem _ hd)
  have hround := @Positional.halfEven_digits ((lead :: kept).map UInt8.toNat)
    (rest.map UInt8.toNat) first.toNat 8 hfirst hrest
  rw [← List.map_cons, ← List.map_append, List.cons_append, value_lead, value_lead,
    List.length_map] at hround
  have hup := roundUp_iff lead first kept rest
  rw [value_lead] at hup
  rw [hround, roundDigits, if_pos (by simp), List.take_left]
  by_cases hcarry : roundUp lead (kept ++ first :: rest) kept.length = true
  · obtain ⟨kept', carry, heq, hlen, hall', hvalue⟩ := rippleCarry_spec hkept []
    rw [List.append_nil, List.append_nil] at heq
    have hsucc : (lead + 1).toNat = lead.toNat + 1 := by
      rw [UInt8.toNat_add]
      change (lead.toNat + 1) % 256 = _
      omega
    rw [if_pos hcarry, heq, if_pos (hup.1 hcarry)]
    refine ⟨_, kept', rfl, hlen, hall', ?_, ?_⟩
    · split <;> omega
    · split at hvalue
      · rename_i hc
        rw [if_pos hc, hsucc, Nat.add_mul]
        omega
      · rename_i hc
        rw [if_neg hc]
        omega
  · rw [if_neg hcarry, if_neg fun h => hcarry (hup.2 h)]
    exact ⟨lead, kept, rfl, rfl, hkept, by omega, rfl⟩

/-! ### The text -/

/-- A byte as a digit. -/
def hexFin (d : UInt8) : Fin 16 := Fin.ofNat 16 d.toNat

/-- The numeral of a leading digit, of digits behind the point and of zeros behind these. -/
def numeralOf (lead : UInt8) (digits : List UInt8) (zeros : ℕ) (exp : ℤ) : HexNumeral :=
  ⟨hexFin lead, digits.map hexFin ++ List.replicate zeros 0, exp⟩

theorem hexFin_val {d : UInt8} (hd : d.toNat < 16) : (hexFin d).val = d.toNat :=
  Nat.mod_eq_of_lt hd

theorem hexdig_eq (upper : Bool) {d : UInt8} (hd : d.toNat < 16) :
    hexdig upper d = hexChar upper (hexFin d) := by
  have hall : ∀ (upper : Bool) (k : Fin 16),
      hexdig upper (UInt8.ofNat k.val) = hexChar upper (hexFin (UInt8.ofNat k.val)) := by
    decide +kernel
  have hdigit := hall upper ⟨d.toNat, hd⟩
  rw [UInt8.ofNat_toNat] at hdigit
  exact hdigit

theorem leadChar_eq (upper : Bool) {lead : UInt8} (hlead : lead.toNat ≤ 2) :
    Char.ofNat (48 + lead).toNat = hexChar upper (hexFin lead) := by
  have hall : ∀ (upper : Bool) (k : Fin 3),
      Char.ofNat (48 + UInt8.ofNat k.val).toNat = hexChar upper (hexFin (UInt8.ofNat k.val)) := by
    decide +kernel
  have hdigit := hall upper ⟨lead.toNat, by omega⟩
  rw [UInt8.ofNat_toNat] at hdigit
  exact hdigit

/-- The zeros that a precision asks for. -/
def paddingZeros (prec : Option ℕ) (digits : List UInt8) : ℕ :=
  match prec with
  | some p => p - digits.length
  | none => 0

/-- **The text is that of a numeral.** -/
theorem hexText_eq (upper : Bool) (prec : Option ℕ) {lead : UInt8} (exp : ℤ)
    {digits : List UInt8} (hlead : lead.toNat ≤ 2) (hall : AllHex digits) :
    hexText upper prec lead exp digits =
      (numeralOf lead digits (paddingZeros prec digits) exp).text upper := by
  have hdigits : digits.map (hexdig upper) = (digits.map hexFin).map (hexChar upper) := by
    rw [List.map_map]
    exact List.map_congr_left fun d hd => hexdig_eq upper (hall d hd)
  have hzero : ∀ k, (List.replicate k (0 : Fin 16)).map (hexChar upper) =
      List.replicate k '0' := by
    intro k
    rw [List.map_replicate]
    cases upper <;> rfl
  have hpadding : (match prec with
      | some p => List.replicate (p - digits.length) '0'
      | none => []) = List.replicate (paddingZeros prec digits) '0' := by
    cases prec <;> rfl
  have hpoint : (!digits.isEmpty || prec.any (0 < ·)) = true ↔
      ¬ digits.map hexFin ++ List.replicate (paddingZeros prec digits) 0 = [] := by
    unfold paddingZeros
    cases digits <;> cases prec <;> simp [Nat.pos_iff_ne_zero]
  unfold hexText HexNumeral.text numeralOf
  dsimp only
  rw [leadChar_eq upper hlead, hdigits, hpadding, List.map_append, hzero]
  by_cases hfrac : digits.map hexFin ++ List.replicate (paddingZeros prec digits) 0 = []
  · rw [if_pos hfrac, if_neg fun h => hpoint.1 h hfrac]
  · rw [if_neg hfrac, if_pos (hpoint.2 hfrac)]

/-- The value of the numeral. -/
theorem value_numeralOf {lead : UInt8} {digits : List UInt8} (zeros : ℕ) (exp : ℤ)
    (hlead : lead.toNat ≤ 2) (hall : AllHex digits) :
    (numeralOf lead digits zeros exp).value =
      ((lead.toNat * 16 ^ digits.length + hexValue digits : ℕ) : ℚ) / 16 ^ digits.length *
        2 ^ exp := by
  have hdigits : (digits.map hexFin).map Fin.val = digits.map UInt8.toNat := by
    rw [List.map_map]
    exact List.map_congr_left fun d hd => hexFin_val (hall d hd)
  unfold numeralOf
  rw [HexNumeral.value_zeros, HexNumeral.value]
  dsimp only
  rw [List.length_map, HexNumeral.digits, List.map_cons, hdigits, hexFin_val (by omega),
    ← List.map_cons]
  exact congrArg (fun v : ℕ => (v : ℚ) / 16 ^ digits.length * 2 ^ exp) (value_lead lead digits)

/-! ### Every float -/

variable {m : ℕ} {lead : UInt8} {exp : ℤ} {frac : UInt64}

/-- The significand, in units of the last of thirteen digits. -/
theorem Significand.digits (hs : Significand m lead exp frac) :
    (lead.toNat * 16 ^ 13 + frac.toNat) * 2 ^ m.log2 = m * 2 ^ 52 := by
  rw [← hs.value_eq, show (16 : ℕ) ^ 13 = 2 ^ 52 by norm_num]

/-- The exponent, which does not matter for zero. -/
theorem Significand.scale (hs : Significand m lead exp frac) {n : ℕ} (hn : m = 0 → n = 0)
    (d : ℚ) : (n : ℚ) / d * 2 ^ exp = (n : ℚ) / d * 2 ^ ((m.log2 : ℤ) - 1074) := by
  by_cases hm : m = 0
  · rw [hn hm]
    simp
  · rw [hs.exp_eq hm]

theorem Significand.eq_zero (hs : Significand m lead exp frac) (hm : m = 0) :
    lead.toNat * 16 ^ 13 + frac.toNat = 0 := by
  have h := hs.digits
  rw [hm, Nat.zero_mul] at h
  exact (Nat.mul_eq_zero.1 h).resolve_right (by decide)

/-- Without a precision, the digits up to the last one that is not zero. -/
theorem trimmed_spec (digits : List UInt8) :
    ∃ k, digits = digits.rdropWhile (· == 0) ++ List.replicate k 0 ∧
      (digits.rdropWhile (· == 0)).getLast? ≠ some 0 := by
  induction digits using List.reverseRecOn with
  | nil => exact ⟨0, rfl, Ne.symm (Option.some_ne_none 0)⟩
  | append_singleton front d ih =>
      by_cases hd : d = 0
      · subst hd
        obtain ⟨k, heq, hlast⟩ := ih
        rw [List.rdropWhile_concat_pos (· == 0) front 0 rfl]
        refine ⟨k + 1, ?_, hlast⟩
        rw [List.replicate_succ', ← List.append_assoc, ← heq]
      · rw [List.rdropWhile_concat_neg (· == 0) front d fun h => hd (beq_iff_eq.1 h)]
        refine ⟨0, (List.append_nil _).symm, ?_⟩
        rw [List.getLast?_concat]
        exact fun h => hd (Option.some.inj h)

/-- **Without a precision** the value is exact, and the last digit is not zero. -/
theorem formatHexFloat_none (upper : Bool) {bits : UInt64}
    (hs : Significand m (hexParts bits).1 (hexParts bits).2.1 (hexParts bits).2.2) :
    ∃ n : HexNumeral, formatHexFloat bits upper none = n.text upper ∧ n.value = exactValue m ∧
      n.frac.getLast? ≠ some 0 := by
  rw [formatHexFloat]
  generalize hexParts bits = parts at hs ⊢
  obtain ⟨lead, exp, frac⟩ := parts
  dsimp only at hs ⊢
  obtain ⟨hlen, hall, hvalue⟩ := hexDigits_spec hs.frac_lt
  obtain ⟨k, heq, hlast⟩ := trimmed_spec (hexDigits frac)
  have hlead : lead.toNat ≤ 2 := Nat.le_succ_of_le hs.lead_le
  generalize (hexDigits frac).rdropWhile (· == 0) = trimmed at heq hlast ⊢
  have htrimmed : AllHex trimmed := by
    rw [heq] at hall
    exact (allHex_append.1 hall).1
  refine ⟨numeralOf lead trimmed 0 exp, hexText_eq upper none exp hlead htrimmed, ?_, ?_⟩
  · -- the digits that were dropped are zeros
    have hzeros : numeralOf lead (hexDigits frac) 0 exp = numeralOf lead trimmed k exp := by
      unfold numeralOf
      rw [heq, List.map_append, List.map_replicate]
      simp [hexFin]
    have hsame : (numeralOf lead trimmed 0 exp).value = (numeralOf lead trimmed k exp).value := by
      rw [value_numeralOf 0 exp hlead htrimmed, value_numeralOf k exp hlead htrimmed]
    rw [hsame, ← hzeros, value_numeralOf 0 exp hlead hall, hlen, hvalue, exactValue_eq hs.digits,
      hs.scale hs.eq_zero]
  · intro h
    unfold numeralOf at h
    rw [List.replicate_zero, List.append_nil, List.getLast?_map, Option.map_eq_some_iff] at h
    obtain ⟨d, hd, hzero⟩ := h
    have hdigit : d.toNat < 16 := htrimmed d (List.mem_of_getLast? hd)
    have hval := hexFin_val hdigit
    rw [hzero] at hval
    have hd0 : d = 0 := UInt8.toNat_inj.1 hval.symm
    exact hlast (hd.trans (congrArg some hd0))

/-- **With a precision** there are as many digits, and the value is the significand rounded half
to even. -/
theorem formatHexFloat_some (upper : Bool) {bits : UInt64} (p : ℕ)
    (hs : Significand m (hexParts bits).1 (hexParts bits).2.1 (hexParts bits).2.2) :
    ∃ n : HexNumeral, formatHexFloat bits upper (some p) = n.text upper ∧ n.frac.length = p ∧
      n.value = roundedValue p m := by
  rw [formatHexFloat]
  generalize hexParts bits = parts at hs ⊢
  obtain ⟨lead, exp, frac⟩ := parts
  dsimp only at hs ⊢
  obtain ⟨hlen, hall, hvalue⟩ := hexDigits_spec hs.frac_lt
  rw [roundedValue_eq hs.digits]
  generalize hexDigits frac = digits at hlen hall hvalue ⊢
  rcases Nat.lt_or_ge p digits.length with hp | hp
  · -- some digits are dropped
    obtain ⟨kept, first, rest, rfl, rfl⟩ : ∃ kept first rest,
        digits = kept ++ first :: rest ∧ p = kept.length := by
      refine ⟨digits.take p, digits[p], digits.drop (p + 1), ?_, ?_⟩
      · rw [← List.drop_eq_getElem_cons hp, List.take_append_drop]
      · rw [List.length_take_of_le (Nat.le_of_lt hp)]
    obtain ⟨lead', kept', heq, hlen', hall', hlead', hround⟩ := roundDigits_spec hs.lead_le hall
    rw [heq]
    have hsplit : kept.length + (rest.length + 1) = 13 := by
      rw [← hlen, List.length_append, List.length_cons]
    have hhalf : Binary64.halfEven (16 ^ kept.length * (lead.toNat * 16 ^ 13 + frac.toNat))
        (16 ^ 13) = lead'.toNat * 16 ^ kept.length + hexValue kept' := by
      rw [hround, hlen, hvalue, ← hsplit, pow_add 16 kept.length (rest.length + 1),
        Positional.halfEven_mul_mul (by positivity)]
    refine ⟨_, hexText_eq upper _ exp hlead' hall', ?_, ?_⟩
    · unfold numeralOf paddingZeros
      dsimp only
      rw [List.length_append, List.length_map, List.length_replicate, hlen', Nat.sub_self]
      rfl
    · rw [value_numeralOf _ exp hlead' hall', hlen', ← hhalf]
      refine hs.scale (fun hm => ?_) _
      have hzero := @Binary64.halfEven_mul 0 (16 ^ 13) (by positivity)
      rw [Nat.zero_mul] at hzero
      rw [hs.eq_zero hm, Nat.mul_zero]
      exact hzero
  · -- the digits are all kept, and zeros follow them
    have hkeep : roundDigits lead digits p = (lead, digits) := by
      rw [roundDigits, if_neg (Nat.not_lt.2 hp), List.take_of_length_le hp]
    have hlead : lead.toNat ≤ 2 := Nat.le_succ_of_le hs.lead_le
    rw [hkeep]
    refine ⟨_, hexText_eq upper _ exp hlead hall, ?_, ?_⟩
    · unfold numeralOf paddingZeros
      dsimp only
      rw [List.length_append, List.length_map, List.length_replicate]
      omega
    · obtain ⟨k, rfl⟩ := Nat.exists_eq_add_of_le hp
      have hhalf : Binary64.halfEven (16 ^ (digits.length + k) *
          (lead.toNat * 16 ^ 13 + frac.toNat)) (16 ^ 13) =
            16 ^ k * (lead.toNat * 16 ^ 13 + frac.toNat) := by
        rw [hlen, pow_add, Nat.mul_assoc, Nat.mul_comm (16 ^ 13)]
        exact Binary64.halfEven_mul _ (by positivity)
      rw [value_numeralOf _ exp hlead hall, hhalf, hlen, hvalue, hs.scale hs.eq_zero, pow_add]
      push_cast
      field_simp

/-- **Hexadecimal text is exact**: of a finite float that is not negative, the text without a
precision is that of a numeral with its value, and no zero is the last digit; with a precision it
has as many digits behind the point, and the value of the significand rounded half to even.  A text
is that of one numeral only. -/
theorem format_hex_float_exact (bits : UInt64) (upper : Bool)
    (hfinite : Binary64.magBits bits < Binary64.infBits) (hnonneg : 0 ≤ Binary64.value bits) :
    (∃ n : HexNumeral, formatHexFloat bits upper none = n.text upper ∧
      n.value = (Binary64.value bits : ℚ) / 2 ^ 1074 ∧ n.frac.getLast? ≠ some 0) ∧
    (∀ p, ∃ n : HexNumeral, formatHexFloat bits upper (some p) = n.text upper ∧
      n.frac.length = p ∧ n.value = roundedValue p (Binary64.value bits).toNat) ∧
    ∀ (n n' : HexNumeral) (upper' : Bool), n.text upper = n'.text upper' → n = n' := by
  have hmag : Binary64.value bits = (Binary64.magnitude (Binary64.magBits bits) : ℤ) := by
    unfold Binary64.value at hnonneg ⊢
    split
    · rename_i hsign
      rw [if_pos hsign] at hnonneg
      omega
    · rfl
  have hs := hexParts_spec hfinite
  rw [hmag, Int.toNat_natCast]
  refine ⟨?_, fun p => formatHexFloat_some upper p hs, fun n n' upper' h =>
    HexNumeral.text_injective h⟩
  obtain ⟨n, htext, hvalue, hlast⟩ := formatHexFloat_none upper hs
  refine ⟨n, htext, ?_, hlast⟩
  rw [hvalue]
  rfl

/-- One and a half, with no digit behind the point: the tie goes to the even two. -/
theorem format_hex_float_tie :
    ∃ n : HexNumeral, "0x2p+0".toList = n.text false ∧ n.frac.length = 0 ∧
      n.value = roundedValue 0 (Binary64.value 0x3ff8000000000000).toNat := by
  have hfinite : Binary64.magBits 0x3ff8000000000000 < Binary64.infBits := by decide
  have hnonneg : 0 ≤ Binary64.value 0x3ff8000000000000 := by
    rw [Binary64.value, if_neg (by decide)]
    exact Int.natCast_nonneg _
  exact (format_hex_float_exact 0x3ff8000000000000 false hfinite hnonneg).2.1 0

end Tcvm
