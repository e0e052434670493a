/-
The original UTF-8, with forms of one to six bytes.

A number below `2 ^ 31` has one form, the shortest one that holds it: a first byte whose leading
ones count the bytes, and bytes of six bits behind it.  Reading counts the leading ones, collects
the six bits of each further byte, and refuses a number that has a shorter form.  Nothing here is
about a particular program.

* `form`, `formLength` — the bytes of a number;
* `leadingOnes`, `readTails`, `readForm` — reading the number at the front;
* `readTails_eq_some_iff` — the bytes behind the first one;
* `readForm_eq_some_iff` — **what is read is what has its form there**;
* `form_shape` — only the first byte starts a form.
-/

import Mathlib.Algebra.Group.Nat.Defs
import Mathlib.Data.List.Basic

namespace ExtendedUtf8

/-! ### Forms -/

/-- A byte behind the first one. -/
def contByte (n : ℕ) : UInt8 := UInt8.ofNat (0x80 + n % 64)

/-- The last `k` bytes of a form: six bits each, the high ones in front. -/
def tails : ℕ → ℕ → List UInt8
  | 0, _ => []
  | k + 1, v => contByte (v / 64 ^ k) :: tails k v

/-- The smallest number with a form of `n` bytes. -/
def limit : ℕ → ℕ
  | 2 => 0x80
  | 3 => 0x800
  | 4 => 0x10000
  | 5 => 0x200000
  | 6 => 0x4000000
  | 7 => 0x80000000
  | _ => 0

def formLength (v : ℕ) : ℕ :=
  if v < limit 2 then 1 else if v < limit 3 then 2 else if v < limit 4 then 3
  else if v < limit 5 then 4 else if v < limit 6 then 5 else 6

/-- The leading ones of the first byte of `n` bytes. -/
def mark (n : ℕ) : ℕ := 256 - 2 ^ (8 - n)

def firstByte (n v : ℕ) : UInt8 := UInt8.ofNat (mark n + v / 64 ^ (n - 1))

/-- The form of a number. -/
def form (v : ℕ) : List UInt8 :=
  if v < 0x80 then [UInt8.ofNat v]
  else firstByte (formLength v) v :: tails (formLength v - 1) v

/-! ### Reading -/

/-- The number of ones in front of the first zero. -/
def leadingOnes (c : UInt8) : ℕ :=
  if c.toNat < 0x80 then 0 else if c.toNat < 0xC0 then 1 else if c.toNat < 0xE0 then 2
  else if c.toNat < 0xF0 then 3 else if c.toNat < 0xF8 then 4 else if c.toNat < 0xFC then 5
  else if c.toNat < 0xFE then 6 else if c.toNat < 0xFF then 7 else 8

def isCont (c : UInt8) : Bool := 0x80 ≤ c.toNat && c.toNat < 0xC0

/-- `k` more bytes behind what has been read so far. -/
def readTails : ℕ → ℕ → List UInt8 → Option ℕ
  | 0, code, _ => some code
  | _ + 1, _, [] => none
  | k + 1, code, c :: cs =>
      if isCont c then readTails k (64 * code + (c.toNat - 0x80)) cs else none

/-- The number at the front. -/
def readForm : List UInt8 → Option ℕ
  | [] => none
  | c :: cs =>
      if leadingOnes c = 0 then some c.toNat
      else if leadingOnes c = 1 ∨ 6 < leadingOnes c then none
      else
        (readTails (leadingOnes c - 1) (c.toNat - mark (leadingOnes c)) cs).filter
          fun v => limit (leadingOnes c) ≤ v

/-! ### The bytes behind the first one -/

theorem toNat_contByte (n : ℕ) : (contByte n).toNat = 0x80 + n % 64 := by
  rw [contByte, UInt8.toNat_ofNat']
  omega

theorem isCont_iff {c : UInt8} : isCont c = true ↔ 0x80 ≤ c.toNat ∧ c.toNat < 0xC0 := by
  rw [isCont, Bool.and_eq_true, decide_eq_true_iff, decide_eq_true_iff]

theorem isCont_contByte (n : ℕ) : isCont (contByte n) = true := by
  rw [isCont_iff, toNat_contByte]
  omega

@[simp] theorem length_tails (k v : ℕ) : (tails k v).length = k := by
  induction k with
  | zero => rfl
  | succ k ih => rw [tails, List.length_cons, ih]

theorem isCont_of_mem_tails {k v : ℕ} {c : UInt8} (h : c ∈ tails k v) : isCont c = true := by
  induction k with
  | zero => exact absurd h List.not_mem_nil
  | succ k ih =>
      rcases List.mem_cons.1 h with rfl | h
      · exact isCont_contByte _
      · exact ih h

/-- **The bytes behind the first one** are read iff they are those of the number. -/
theorem readTails_eq_some_iff {k code v : ℕ} {l : List UInt8} :
    readTails k code l = some v ↔ v / 64 ^ k = code ∧ tails k v <+: l := by
  induction k generalizing code l with
  | zero =>
      rw [readTails, tails, Option.some.injEq, pow_zero, Nat.div_one]
      exact ⟨fun h => ⟨h.symm, List.nil_prefix⟩, fun h => h.1.symm⟩
  | succ k ih =>
      have hdiv : v / 64 ^ (k + 1) = v / 64 ^ k / 64 := by
        rw [pow_succ, Nat.div_div_eq_div_mul]
      cases l with
      | nil => exact iff_of_false (by simp [readTails]) fun h => by simp [tails] at h
      | cons c cs =>
          rw [readTails, tails, List.cons_prefix_cons, hdiv, ← UInt8.toNat_inj, toNat_contByte]
          have hlt := c.toNat_lt
          by_cases hc : isCont c = true
          · have hc' := isCont_iff.1 hc
            rw [if_pos hc, ih]
            constructor
            · rintro ⟨hcode, hcs⟩
              exact ⟨by omega, by omega, hcs⟩
            · rintro ⟨hcode, hbyte, hcs⟩
              exact ⟨by omega, hcs⟩
          · rw [if_neg hc]
            refine iff_of_false (by simp) ?_
            rintro ⟨-, hbyte, -⟩
            rw [isCont_iff] at hc
            omega

/-! ### The first byte -/

/-- What fits `n` bytes is below what needs one more. -/
theorem capacity_eq {n : ℕ} (hlow : 2 ≤ n) (hhigh : n ≤ 6) :
    2 ^ (7 - n) * 64 ^ (n - 1) = limit (n + 1) := by
  have hn : n = 2 ∨ n = 3 ∨ n = 4 ∨ n = 5 ∨ n = 6 := by omega
  rcases hn with rfl | rfl | rfl | rfl | rfl <;> rfl

theorem formLength_eq_iff {n v : ℕ} (hlow : 2 ≤ n) (hhigh : n ≤ 6) (hv : v < 2 ^ 31) :
    formLength v = n ↔ limit n ≤ v ∧ v < limit (n + 1) := by
  have hn : n = 2 ∨ n = 3 ∨ n = 4 ∨ n = 5 ∨ n = 6 := by omega
  unfold formLength
  rcases hn with rfl | rfl | rfl | rfl | rfl <;> simp only [limit] <;> grind

theorem formLength_bounds {v : ℕ} (h : 0x80 ≤ v) : 2 ≤ formLength v ∧ formLength v ≤ 6 := by
  unfold formLength
  simp only [limit]
  grind

theorem limit_bounds {n : ℕ} (hlow : 2 ≤ n) (hhigh : n ≤ 6) :
    0x80 ≤ limit n ∧ limit (n + 1) ≤ 2 ^ 31 := by
  have hn : n = 2 ∨ n = 3 ∨ n = 4 ∨ n = 5 ∨ n = 6 := by omega
  rcases hn with rfl | rfl | rfl | rfl | rfl <;> decide

/-- A byte has `n` leading ones iff it is a mark and what fits behind it. -/
theorem leadingOnes_eq_iff {n : ℕ} (hlow : 2 ≤ n) (hhigh : n ≤ 6) (c : UInt8) :
    leadingOnes c = n ↔ mark n ≤ c.toNat ∧ c.toNat < mark n + 2 ^ (7 - n) := by
  have hn : n = 2 ∨ n = 3 ∨ n = 4 ∨ n = 5 ∨ n = 6 := by omega
  unfold leadingOnes
  rcases hn with rfl | rfl | rfl | rfl | rfl <;> simp only [mark] <;> grind

theorem leadingOnes_eq_zero_iff (c : UInt8) : leadingOnes c = 0 ↔ c.toNat < 0x80 := by
  unfold leadingOnes
  grind

theorem toNat_firstByte {n v : ℕ} (hlow : 2 ≤ n) (hhigh : n ≤ 6)
    (hfits : v / 64 ^ (n - 1) < 2 ^ (7 - n)) :
    (firstByte n v).toNat = mark n + v / 64 ^ (n - 1) := by
  have hroom : mark n + 2 ^ (7 - n) ≤ 256 := by
    have hn : n = 2 ∨ n = 3 ∨ n = 4 ∨ n = 5 ∨ n = 6 := by omega
    rcases hn with rfl | rfl | rfl | rfl | rfl <;> decide
  rw [firstByte, UInt8.toNat_ofNat']
  exact Nat.mod_eq_of_lt (by omega)

/-! ### What is read -/

theorem form_of_lt {v : ℕ} (h : v < 0x80) : form v = [UInt8.ofNat v] := if_pos h

theorem form_of_ge {v : ℕ} (h : 0x80 ≤ v) :
    form v = firstByte (formLength v) v :: tails (formLength v - 1) v := if_neg (Nat.not_lt.2 h)

/-- A number of `n` bytes below `2 ^ 31`. -/
theorem form_of_limits {n v : ℕ} (hlow : 2 ≤ n) (hhigh : n ≤ 6) (hlimit : limit n ≤ v)
    (hnext : v < limit (n + 1)) : form v = firstByte n v :: tails (n - 1) v := by
  obtain ⟨hmin, hmax⟩ := limit_bounds hlow hhigh
  rw [form_of_ge (by omega), (formLength_eq_iff hlow hhigh (by omega)).2 ⟨hlimit, hnext⟩]

/-- **What is read is what has its form there.** -/
theorem readForm_eq_some_iff {l : List UInt8} {v : ℕ} :
    readForm l = some v ↔ v < 2 ^ 31 ∧ form v <+: l := by
  cases l with
  | nil =>
      refine iff_of_false (by simp [readForm]) ?_
      rintro ⟨-, h⟩
      have hnil := List.prefix_nil.1 h
      unfold form at hnil
      split at hnil <;> simp at hnil
  | cons c cs =>
      have hc := c.toNat_lt
      rw [readForm]
      constructor
      · intro h
        split at h
        case isTrue hzero =>
          -- a form of one byte
          have hlt := (leadingOnes_eq_zero_iff c).1 hzero
          obtain rfl := Option.some.inj h
          refine ⟨by omega, ?_⟩
          rw [form_of_lt hlt, UInt8.ofNat_toNat]
          exact List.prefix_append [c] cs
        case isFalse hzero =>
          split at h
          case isTrue => exact absurd h (by simp)
          case isFalse hbad =>
            generalize hn : leadingOnes c = n at h hzero hbad
            have hlow : 2 ≤ n := by omega
            have hhigh : n ≤ 6 := by omega
            obtain ⟨hmark, hroom⟩ := (leadingOnes_eq_iff hlow hhigh c).1 hn
            obtain ⟨hread, hlimit⟩ := Option.filter_eq_some_iff.1 h
            obtain ⟨hcode, hcs⟩ := readTails_eq_some_iff.1 hread
            have hlimit : limit n ≤ v := of_decide_eq_true hlimit
            have hnext : v < limit (n + 1) := by
              rw [← capacity_eq hlow hhigh]
              exact (Nat.div_lt_iff_lt_mul (Nat.pow_pos (by decide))).1 (by omega)
            have hmax := (limit_bounds hlow hhigh).2
            refine ⟨by omega, ?_⟩
            rw [form_of_limits hlow hhigh hlimit hnext, List.cons_prefix_cons]
            refine ⟨UInt8.toNat_inj.1 ?_, hcs⟩
            rw [toNat_firstByte hlow hhigh (by omega)]
            omega
      · rintro ⟨hv, hform⟩
        by_cases hsmall : v < 0x80
        · rw [form_of_lt hsmall, List.cons_prefix_cons] at hform
          have hbyte : c.toNat = v := by
            rw [← hform.1, UInt8.toNat_ofNat']
            omega
          rw [if_pos ((leadingOnes_eq_zero_iff c).2 (by omega)), hbyte]
        · obtain ⟨hlow, hhigh⟩ := formLength_bounds (Nat.not_lt.1 hsmall)
          rw [form_of_ge (Nat.not_lt.1 hsmall), List.cons_prefix_cons] at hform
          generalize hn : formLength v = n at hform hlow hhigh
          obtain ⟨hlimit, hnext⟩ := (formLength_eq_iff hlow hhigh hv).1 hn
          have hfits : v / 64 ^ (n - 1) < 2 ^ (7 - n) := by
            rw [← capacity_eq hlow hhigh] at hnext
            exact (Nat.div_lt_iff_lt_mul (Nat.pow_pos (by decide))).2 hnext
          have hbyte := toNat_firstByte hlow hhigh hfits
          rw [hform.1] at hbyte
          generalize hq : v / 64 ^ (n - 1) = q at hfits hbyte
          have hones : leadingOnes c = n :=
            (leadingOnes_eq_iff hlow hhigh c).2 ⟨by omega, by omega⟩
          have hread : readTails (n - 1) (c.toNat - mark n) cs = some v :=
            readTails_eq_some_iff.2 ⟨hq.trans (by omega), hform.2⟩
          rw [hones, if_neg (by omega), if_neg (by omega), hread]
          exact Option.filter_eq_some_iff.2 ⟨rfl, decide_eq_true hlimit⟩

/-- **The shape of a form**: only its first byte starts a form. -/
theorem form_shape {v : ℕ} (hv : v < 2 ^ 31) :
    ∃ c cs, form v = c :: cs ∧ isCont c = false ∧ ∀ d ∈ cs, isCont d = true := by
  by_cases hsmall : v < 0x80
  · refine ⟨UInt8.ofNat v, [], form_of_lt hsmall, ?_, fun d hd => absurd hd List.not_mem_nil⟩
    rw [← Bool.not_eq_true, isCont_iff, UInt8.toNat_ofNat']
    omega
  · obtain ⟨hlow, hhigh⟩ := formLength_bounds (Nat.not_lt.1 hsmall)
    refine ⟨_, _, form_of_ge (Nat.not_lt.1 hsmall), ?_, fun d hd => isCont_of_mem_tails hd⟩
    generalize hn : formLength v = n at hlow hhigh ⊢
    have hnext := ((formLength_eq_iff hlow hhigh hv).1 hn).2
    have hfits : v / 64 ^ (n - 1) < 2 ^ (7 - n) := by
      rw [← capacity_eq hlow hhigh] at hnext
      exact (Nat.div_lt_iff_lt_mul (Nat.pow_pos (by decide))).2 hnext
    have hmark : 0xC0 ≤ mark n := by
      have hn : n = 2 ∨ n = 3 ∨ n = 4 ∨ n = 5 ∨ n = 6 := by omega
      rcases hn with rfl | rfl | rfl | rfl | rfl <;> decide
    rw [← Bool.not_eq_true, isCont_iff, toNat_firstByte hlow hhigh hfits]
    generalize v / 64 ^ (n - 1) = q
    omega

end ExtendedUtf8
