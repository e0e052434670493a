/-
The codec of the `utf8` library.

`decode` reads the number at a position, `encode` writes one.  Both are the forms of one to six
bytes, and the encoder of `\u` escapes in string literals, a loop of its own, writes the same
bytes.

* `decode`, `encode` — the source's functions;
* `decode_eq` — decoding is reading the form at the position;
* `encode_eq` — encoding is the form, and so is the encoding of literals;
* `utf8_codec` — **both directions, the strict mode, and the two encoders**.
-/

import Tcvm.ExtendedUtf8
import Tcvm.StringLiteral

namespace Tcvm

open ExtendedUtf8

/-! ### The functions -/

/-- `LIMITS`. -/
def decodeLimits : List ℕ := [0, 0x80, 0x800, 0x10000, 0x200000, 0x4000000]

/-- The loop of `decode`, with `n` bytes to go. -/
def decodeLoop (bytes : List UInt8) (pos : ℕ) : ℕ → ℕ → ℕ → Option ℕ
  | 0, _, code => some code
  | n + 1, k, code =>
      match bytes[pos + k]? with
      | none => none
      | some cc =>
          if cc &&& 0xC0 ≠ 0x80 then none
          else decodeLoop bytes pos n (k + 1) (code <<< 6 % 2 ^ 32 ||| (cc &&& 0x3f).toNat)

/-- The code points that the strict mode rejects. -/
def notStrict (code : ℕ) : Bool := 0x10FFFF < code || (0xD800 ≤ code && code ≤ 0xDFFF)

/-- `decode`: the code point at `pos` and the position behind it. -/
def decode (bytes : List UInt8) (pos : ℕ) (strict : Bool) : Option (ℕ × ℕ) :=
  match bytes[pos]? with
  | none => none
  | some c =>
      let lead := leadingOnes c
      if lead = 0 then some (c.toNat, pos + 1)
      else if lead = 1 ∨ 6 < lead then none
      else
        match decodeLoop bytes pos (lead - 1) 1 (c.toNat &&& 0xff >>> (lead + 1)) with
        | none => none
        | some code =>
            if code < decodeLimits.getD (lead - 1) 0 then none
            else if strict && notStrict code then none
            else some (code, pos + lead)

/-- The loop of `encode`, for at most `rounds` rounds. -/
def encodeLoop : ℕ → ℕ → ℕ → List UInt8 → List UInt8
  | 0, _, _, tail => tail.reverse
  | rounds + 1, x, mfb, tail =>
      let tail := tail ++ [0x80 ||| UInt8.ofNat (x &&& 0x3f)]
      let x := x >>> 6
      let mfb := mfb >>> 1
      if x ≤ mfb then
        (UInt8.ofNat ((2 ^ 32 - 1 - mfb) <<< 1 % 2 ^ 32) ||| UInt8.ofNat x) :: tail.reverse
      else encodeLoop rounds x mfb tail

/-- `encode`. -/
def encode (cp : ℕ) : List UInt8 :=
  if cp < 0x80 then [UInt8.ofNat cp] else encodeLoop 6 cp 0x3f []

/-! ### Decoding -/

theorem and_C0_iff (c : UInt8) : c &&& 0xC0 ≠ 0x80 ↔ isCont c = false := by
  have hall : ∀ n : Fin 256, UInt8.ofNat n.val &&& 0xC0 ≠ 0x80 ↔
      isCont (UInt8.ofNat n.val) = false := by decide +kernel
  have h := hall ⟨c.toNat, c.toNat_lt⟩
  rwa [UInt8.ofNat_toNat] at h

/-- Six more bits. -/
theorem code_step {code : ℕ} {c : UInt8} (hcode : 64 * code + 64 ≤ 2 ^ 32)
    (hc : isCont c = true) :
    (code <<< 6 % 2 ^ 32 ||| (c &&& 0x3f).toNat) = 64 * code + (c.toNat - 0x80) := by
  have hcont := isCont_iff.1 hc
  have hlow : (c &&& 0x3f).toNat = c.toNat - 0x80 := by
    have hand : (c &&& 0x3f).toNat = c.toNat % 64 := by
      rw [UInt8.toNat_and]
      exact Nat.and_two_pow_sub_one_eq_mod c.toNat 6
    omega
  have hshift : code <<< 6 % 2 ^ 32 = 2 ^ 6 * code := by
    rw [Nat.shiftLeft_eq, Nat.mul_comm]
    exact Nat.mod_eq_of_lt (by omega)
  rw [hlow, hshift]
  exact (Nat.two_pow_add_eq_or_of_lt (by omega) code).symm

/-- **The loop** reads the bytes behind the first one; 32 bits are enough for it. -/
theorem decodeLoop_eq (bytes : List UInt8) (pos : ℕ) (n : ℕ) :
    ∀ {k code : ℕ}, (code + 1) * 64 ^ n ≤ 2 ^ 31 →
      decodeLoop bytes pos n k code = readTails n code (bytes.drop (pos + k)) := by
  induction n with
  | zero => exact fun _ => rfl
  | succ n ih =>
      intro k code hcode
      rw [decodeLoop]
      cases hget : bytes[pos + k]? with
      | none =>
          have hend := List.getElem?_eq_none_iff.1 hget
          rw [List.drop_eq_nil_of_le hend]
          rfl
      | some cc =>
          obtain ⟨hlt, hcc⟩ := List.getElem?_eq_some_iff.1 hget
          rw [List.drop_eq_getElem_cons hlt, hcc, readTails]
          dsimp only
          cases hc : isCont cc with
          | false =>
              rw [if_pos ((and_C0_iff cc).2 hc)]
              rfl
          | true =>
              have hnot : ¬ cc &&& 0xC0 ≠ 0x80 := by
                rw [and_C0_iff, hc]
                simp
              have hcont := isCont_iff.1 hc
              have hbound : (64 * code + 64) * 64 ^ n ≤ 2 ^ 31 := by
                rwa [pow_succ, Nat.mul_comm (64 ^ n), ← Nat.mul_assoc, Nat.add_mul, Nat.one_mul,
                  Nat.mul_comm code] at hcode
              have hsmall : 64 * code + 64 ≤ 2 ^ 31 :=
                (Nat.le_mul_of_pos_right _ (Nat.pow_pos (by decide))).trans hbound
              rw [if_neg hnot, code_step (by omega) hc, ih]
              · rfl
              · exact (Nat.mul_le_mul_right _ (by omega)).trans hbound

/-- What is left of the first byte without its ones. -/
theorem and_firstBits {n : ℕ} (hlow : 2 ≤ n) (hhigh : n ≤ 6) {c : UInt8}
    (hc : leadingOnes c = n) : c.toNat &&& 0xff >>> (n + 1) = c.toNat - mark n ∧
      c.toNat - mark n < 2 ^ (7 - n) := by
  obtain ⟨hmark, hroom⟩ := (leadingOnes_eq_iff hlow hhigh c).1 hc
  refine ⟨?_, by omega⟩
  have hshift : 0xff >>> (n + 1) = 2 ^ (7 - n) - 1 ∧ mark n % 2 ^ (7 - n) = 0 := by
    have hn : n = 2 ∨ n = 3 ∨ n = 4 ∨ n = 5 ∨ n = 6 := by omega
    rcases hn with rfl | rfl | rfl | rfl | rfl <;> decide
  rw [hshift.1, Nat.and_two_pow_sub_one_eq_mod]
  have hsplit : c.toNat = mark n + (c.toNat - mark n) := by omega
  rw [hsplit, Nat.add_mod, hshift.2, Nat.zero_add, Nat.mod_mod, Nat.add_sub_cancel_left]
  exact Nat.mod_eq_of_lt (by omega)

theorem decodeLimits_eq {n : ℕ} (hlow : 2 ≤ n) (hhigh : n ≤ 6) :
    decodeLimits.getD (n - 1) 0 = limit n := by
  have hn : n = 2 ∨ n = 3 ∨ n = 4 ∨ n = 5 ∨ n = 6 := by omega
  rcases hn with rfl | rfl | rfl | rfl | rfl <;> rfl

/-- The strict mode rejects some of what is read, the lax one nothing. -/
theorem decode_strict (bytes : List UInt8) (pos : ℕ) :
    (decode bytes pos true) =
      (decode bytes pos false).filter fun r => !(notStrict r.1) := by
  unfold decode
  cases bytes[pos]? with
  | none => rfl
  | some c =>
      dsimp only
      have hc := c.toNat_lt
      split
      · rename_i hzero
        have hlt := (leadingOnes_eq_zero_iff c).1 hzero
        have hok : notStrict c.toNat = false := by
          simp only [notStrict, Bool.or_eq_false_iff, Bool.and_eq_false_iff,
            decide_eq_false_iff_not]
          omega
        simp [Option.filter, hok]
      · split
        · rfl
        · cases decodeLoop bytes pos (leadingOnes c - 1) 1
              (c.toNat &&& 0xff >>> (leadingOnes c + 1)) with
          | none => rfl
          | some code =>
              dsimp only
              split
              · rfl
              · cases hstrict : notStrict code <;> simp [Option.filter, hstrict]

/-- **Decoding** reads the form at the position. -/
theorem decode_eq (bytes : List UInt8) (pos : ℕ) :
    decode bytes pos false =
      (readForm (bytes.drop pos)).map fun v => (v, pos + (form v).length) := by
  rw [decode]
  cases hget : bytes[pos]? with
  | none =>
      rw [List.drop_eq_nil_of_le (List.getElem?_eq_none_iff.1 hget)]
      rfl
  | some c =>
      obtain ⟨hlt, hc⟩ := List.getElem?_eq_some_iff.1 hget
      rw [List.drop_eq_getElem_cons hlt, hc, readForm]
      dsimp only
      by_cases hzero : leadingOnes c = 0
      · have hsmall := (leadingOnes_eq_zero_iff c).1 hzero
        rw [if_pos hzero, if_pos hzero, Option.map_some, form_of_lt hsmall]
        rfl
      · rw [if_neg hzero, if_neg hzero]
        by_cases hbad : leadingOnes c = 1 ∨ 6 < leadingOnes c
        · rw [if_pos hbad, if_pos hbad]
          rfl
        · rw [if_neg hbad, if_neg hbad]
          generalize hn : leadingOnes c = n at hzero hbad
          have hlow : 2 ≤ n := by omega
          have hhigh : n ≤ 6 := by omega
          obtain ⟨hbits, hroom⟩ := and_firstBits hlow hhigh hn
          have hcapacity := capacity_eq hlow hhigh
          have hmax := (limit_bounds hlow hhigh).2
          have hcode : (c.toNat - mark n + 1) * 64 ^ (n - 1) ≤ 2 ^ 31 :=
            (Nat.mul_le_mul_right _ hroom).trans (hcapacity.le.trans hmax)
          rw [hbits, decodeLoop_eq bytes pos (n - 1) hcode, decodeLimits_eq hlow hhigh]
          cases hread : readTails (n - 1) (c.toNat - mark n) (bytes.drop (pos + 1)) with
          | none => rfl
          | some v =>
              dsimp only
              by_cases hlimit : v < limit n
              · rw [if_pos hlimit]
                simp [Option.filter, Nat.not_le.2 hlimit]
              · obtain ⟨hv, -⟩ := readTails_eq_some_iff.1 hread
                have hnext : v < limit (n + 1) := by
                  rw [← hcapacity]
                  exact (Nat.div_lt_iff_lt_mul (Nat.pow_pos (by decide))).1 (by omega)
                have hlen : (form v).length = n := by
                  rw [form_of_limits hlow hhigh (Nat.not_lt.1 hlimit) hnext, List.length_cons,
                    length_tails, Nat.sub_add_cancel (by omega)]
                rw [if_neg hlimit, Option.filter_some, if_pos (decide_eq_true (by omega)),
                  Option.map_some, hlen]
                rfl

/-! ### Encoding -/

theorem contByte_eq (x : ℕ) : 0x80 ||| UInt8.ofNat (x &&& 0x3f) = contByte x := by
  rw [show x &&& 0x3f = x % 64 from Nat.and_two_pow_sub_one_eq_mod x 6]
  have hall : ∀ n : Fin 64, 0x80 ||| UInt8.ofNat n.val = UInt8.ofNat (0x80 + n.val) := by
    decide +kernel
  exact hall ⟨x % 64, Nat.mod_lt _ (by decide)⟩

/-- The first byte: the ones of the mark, and what is left of the number. -/
theorem firstByte_loop {j x : ℕ} (hj : j ≤ 4) (hx : x < 2 ^ (5 - j)) :
    UInt8.ofNat ((2 ^ 32 - 1 - (2 ^ (5 - j) - 1)) <<< 1 % 2 ^ 32) ||| UInt8.ofNat x =
      UInt8.ofNat (mark (j + 2) + x) := by
  have hall : ∀ j ≤ 4, ∀ x < 2 ^ (5 - j),
      UInt8.ofNat ((2 ^ 32 - 1 - (2 ^ (5 - j) - 1)) <<< 1 % 2 ^ 32) ||| UInt8.ofNat x =
        UInt8.ofNat (mark (j + 2) + x) := by
    decide +kernel
  exact hall j hj x hx

/-- One round behind `j` of them, for a number that needs more than `j + 1` bytes. -/
theorem encodeLoop_succ {cp j : ℕ} (rounds : ℕ) (hj : j ≤ 4) (hlimit : limit (j + 2) ≤ cp) :
    encodeLoop (rounds + 1) (cp / 64 ^ j) (2 ^ (6 - j) - 1) (tails j cp).reverse =
      if cp < limit (j + 3) then form cp
      else encodeLoop rounds (cp / 64 ^ (j + 1)) (2 ^ (6 - (j + 1)) - 1)
        (tails (j + 1) cp).reverse := by
  have hx : (cp / 64 ^ j) >>> 6 = cp / 64 ^ (j + 1) := by
    rw [Nat.shiftRight_eq_div_pow, Nat.div_div_eq_div_mul, pow_succ 64 j]
  have hmfb : (2 ^ (6 - j) - 1) >>> 1 = 2 ^ (5 - j) - 1 := by
    have hj' : j = 0 ∨ j = 1 ∨ j = 2 ∨ j = 3 ∨ j = 4 := by omega
    rcases hj' with rfl | rfl | rfl | rfl | rfl <;> rfl
  have htail : (tails j cp).reverse ++ [contByte (cp / 64 ^ j)] = (tails (j + 1) cp).reverse := by
    rw [tails, List.reverse_cons]
  have hfits : cp / 64 ^ (j + 1) ≤ 2 ^ (5 - j) - 1 ↔ cp < limit (j + 3) := by
    have hcapacity := capacity_eq (show 2 ≤ j + 2 by omega) (show j + 2 ≤ 6 by omega)
    have hpos := Nat.two_pow_pos (5 - j)
    rw [show j + 3 = j + 2 + 1 from rfl, ← hcapacity, show 7 - (j + 2) = 5 - j by omega,
      show j + 2 - 1 = j + 1 from rfl, ← Nat.div_lt_iff_lt_mul (Nat.pow_pos (by decide))]
    exact Nat.le_sub_one_iff_lt hpos
  rw [encodeLoop]
  simp only [contByte_eq, hx, hmfb, htail, hfits]
  by_cases hlast : cp < limit (j + 3)
  · rw [if_pos hlast, if_pos hlast, List.reverse_reverse,
      firstByte_loop hj (by have := hfits.2 hlast; have := Nat.two_pow_pos (5 - j); omega),
      form_of_limits (show 2 ≤ j + 2 by omega) (show j + 2 ≤ 6 by omega) hlimit hlast]
    rfl
  · rw [if_neg hlast, if_neg hlast, show 6 - (j + 1) = 5 - j by omega]

/-- Behind `j` rounds the last `j` bytes are there; `d` more are enough. -/
theorem encodeLoop_eq {cp : ℕ} (hcp : cp < 2 ^ 31) (d : ℕ) :
    ∀ {j rounds : ℕ}, j + d = 4 → d < rounds → limit (j + 2) ≤ cp →
      encodeLoop rounds (cp / 64 ^ j) (2 ^ (6 - j) - 1) (tails j cp).reverse = form cp := by
  induction d with
  | zero =>
      intro j rounds hj hrounds hlimit
      obtain ⟨rounds, rfl⟩ := Nat.exists_eq_succ_of_ne_zero (Nat.ne_of_gt hrounds)
      obtain rfl : j = 4 := hj
      rw [Nat.succ_eq_add_one, encodeLoop_succ rounds (Nat.le_refl 4) hlimit]
      exact if_pos hcp
  | succ d ih =>
      intro j rounds hj hrounds hlimit
      obtain ⟨rounds, rfl⟩ := Nat.exists_eq_succ_of_ne_zero (show rounds ≠ 0 by omega)
      rw [Nat.succ_eq_add_one, encodeLoop_succ rounds (by omega) hlimit]
      by_cases hlast : cp < limit (j + 3)
      · exact if_pos hlast
      · rw [if_neg hlast]
        exact ih (by omega) (by omega) (Nat.not_lt.1 hlast)

/-- **Encoding** writes the form. -/
theorem encode_eq {cp : ℕ} (hcp : cp < 2 ^ 31) : encode cp = form cp := by
  unfold encode
  by_cases hsmall : cp < 0x80
  · rw [if_pos hsmall, form_of_lt hsmall]
  · rw [if_neg hsmall]
    have hloop := @encodeLoop_eq cp hcp 4 0 6 rfl (by decide) (Nat.not_lt.1 hsmall)
    rwa [pow_zero, Nat.div_one] at hloop

/-- The forms as they are listed for literals. -/
theorem manualUtf8_eq {cp : ℕ} (hcp : cp < 2 ^ 31) : manualUtf8 cp = form cp := by
  unfold manualUtf8
  simp only [Nat.div_div_eq_div_mul]
  by_cases h7 : cp < 0x80
  · rw [if_pos h7, form_of_lt h7]
  rw [if_neg h7]
  by_cases h11 : cp < 0x800
  · rw [if_pos h11, @form_of_limits 2 cp (by decide) (by decide) (Nat.not_lt.1 h7) h11]
    simp only [tails, pow_zero, Nat.div_one]
    rfl
  rw [if_neg h11]
  by_cases h16 : cp < 0x10000
  · rw [if_pos h16, @form_of_limits 3 cp (by decide) (by decide) (Nat.not_lt.1 h11) h16]
    simp only [tails, pow_zero, Nat.div_one]
    rfl
  rw [if_neg h16]
  by_cases h21 : cp < 0x200000
  · rw [if_pos h21, @form_of_limits 4 cp (by decide) (by decide) (Nat.not_lt.1 h16) h21]
    simp only [tails, pow_zero, Nat.div_one]
    rfl
  rw [if_neg h21]
  by_cases h26 : cp < 0x4000000
  · rw [if_pos h26, @form_of_limits 5 cp (by decide) (by decide) (Nat.not_lt.1 h21) h26]
    simp only [tails, pow_zero, Nat.div_one]
    rfl
  rw [if_neg h26, @form_of_limits 6 cp (by decide) (by decide) (Nat.not_lt.1 h26) hcp]
  simp only [tails, pow_zero, Nat.div_one]
  rfl

/-! ### The codec -/

/-- What is decoded is what is encoded there. -/
theorem decode_eq_some_iff {bytes : List UInt8} {pos c next : ℕ} :
    decode bytes pos false = some (c, next) ↔
      c < 2 ^ 31 ∧ encode c <+: bytes.drop pos ∧ next = pos + (encode c).length := by
  rw [decode_eq, Option.map_eq_some_iff]
  constructor
  · rintro ⟨v, hread, heq⟩
    obtain ⟨rfl, rfl⟩ := Prod.mk.inj heq
    obtain ⟨hv, hform⟩ := readForm_eq_some_iff.1 hread
    rw [encode_eq hv]
    exact ⟨hv, hform, rfl⟩
  · rintro ⟨hc, hform, rfl⟩
    rw [encode_eq hc] at hform ⊢
    exact ⟨c, readForm_eq_some_iff.2 ⟨hc, hform⟩, rfl⟩

/-- **The codec**: decoding inverts encoding in front of anything, encoding inverts decoding, what
is not an encoding is rejected, the strict mode rejects the surrogates and what is above 0x10FFFF
besides, and literals are encoded with the same bytes. -/
theorem utf8_codec :
    (∀ (c : ℕ) (before rest : List UInt8), c < 2 ^ 31 →
      decode (before ++ encode c ++ rest) before.length false =
        some (c, before.length + (encode c).length)) ∧
    (∀ (bytes : List UInt8) (pos c next : ℕ), decode bytes pos false = some (c, next) →
      c < 2 ^ 31 ∧ pos < next ∧ next ≤ bytes.length ∧
        encode c = (bytes.drop pos).take (next - pos)) ∧
    (∀ (bytes : List UInt8) (pos : ℕ), decode bytes pos false = none ↔
      ∀ c < 2 ^ 31, ¬ encode c <+: bytes.drop pos) ∧
    (∀ (bytes : List UInt8) (pos : ℕ) (r : ℕ × ℕ), decode bytes pos true = some r ↔
      decode bytes pos false = some r ∧ ¬ (0xD800 ≤ r.1 ∧ r.1 ≤ 0xDFFF) ∧ r.1 ≤ 0x10FFFF) ∧
    ∀ c < 2 ^ 31, utf8Encode c = encode c := by
  refine ⟨fun c before rest hc => ?_, fun bytes pos c next h => ?_, fun bytes pos => ?_,
    fun bytes pos r => ?_, fun c hc => ?_⟩
  · refine decode_eq_some_iff.2 ⟨hc, ?_, rfl⟩
    rw [List.append_assoc, List.drop_left]
    exact List.prefix_append _ _
  · obtain ⟨hc, hprefix, rfl⟩ := decode_eq_some_iff.1 h
    have hlen := hprefix.length_le
    have hpos : 0 < (encode c).length := by
      rw [encode_eq hc]
      unfold form
      split <;> exact Nat.succ_pos _
    rw [List.length_drop] at hlen
    refine ⟨hc, by omega, by omega, ?_⟩
    rw [Nat.add_sub_cancel_left]
    exact List.prefix_iff_eq_take.1 hprefix
  · constructor
    · intro h c hc hprefix
      rw [decode_eq_some_iff.2 ⟨hc, hprefix, rfl⟩] at h
      cases h
    · intro h
      cases hdecode : decode bytes pos false with
      | none => rfl
      | some r =>
          obtain ⟨hc, hprefix, -⟩ := decode_eq_some_iff.1 hdecode
          exact absurd hprefix (h _ hc)
  · rw [decode_strict, Option.filter_eq_some_iff]
    refine and_congr_right fun _ => ?_
    simp only [notStrict, Bool.not_eq_true', Bool.or_eq_false_iff, Bool.and_eq_false_iff,
      decide_eq_false_iff_not]
    omega
  · rw [utf8Encode_eq hc, manualUtf8_eq hc, encode_eq hc]

/-- A code point of three bytes between two letters. -/
theorem utf8_codec_euro : decode [97, 0xE2, 0x82, 0xAC, 98] 1 false = some (0x20AC, 4) :=
  utf8_codec.1 0x20AC [97] [98] (by decide)

end Tcvm
