/-
Texts as characters, and slices of them by bytes.

A text of valid UTF-8 is the list of its characters.  A slice of it is given by bytes, and exists
only if both of its ends are between characters.  Nothing here is about a particular program.

* `byteLen`, `slice?` — the bytes of a text, and the slice of its first bytes;
* `slice?_eq_some_iff` — **a slice is a prefix of the text with this many bytes**;
* `FirstAt` — the text in front of the first occurrence of another one;
* `utf8Bytes` — the bytes of a text; `utf8Bytes_eq_cons`, `high_of_mem` — **a byte below 128 is a
  character of its own, and no byte of another character is one**.
-/

import Mathlib.Algebra.Group.Nat.Defs
import Mathlib.Data.List.Basic

namespace Utf8Text

/-! ### Slices -/

/-- The number of bytes of a text. -/
def byteLen : List Char → ℕ
  | [] => 0
  | c :: cs => c.utf8Size + byteLen cs

/-- The first `n` bytes, unless they end inside of a character or behind the text. -/
def slice? : List Char → ℕ → Option (List Char)
  | [], n => if n = 0 then some [] else none
  | c :: cs, n =>
      if n = 0 then some []
      else if c.utf8Size ≤ n then (slice? cs (n - c.utf8Size)).map (c :: ·) else none

@[simp] theorem byteLen_nil : byteLen [] = 0 := rfl

@[simp] theorem byteLen_cons (c : Char) (cs : List Char) :
    byteLen (c :: cs) = c.utf8Size + byteLen cs := rfl

@[simp] theorem byteLen_append (s t : List Char) : byteLen (s ++ t) = byteLen s + byteLen t := by
  induction s with
  | nil => simp
  | cons c s ih =>
      rw [List.cons_append, byteLen_cons, ih, byteLen_cons, Nat.add_assoc]

/-- Every character has at least one byte. -/
theorem length_le_byteLen (s : List Char) : s.length ≤ byteLen s := by
  induction s with
  | nil => exact Nat.le_refl 0
  | cons c s ih =>
      have := c.utf8Size_pos
      rw [List.length_cons, byteLen_cons]
      omega

theorem byteLen_eq_zero {s : List Char} (h : byteLen s = 0) : s = [] := by
  have := length_le_byteLen s
  exact List.length_eq_zero_iff.1 (by omega)

/-- **A slice is a prefix with this many bytes.** -/
theorem slice?_eq_some_iff {t s : List Char} {n : ℕ} :
    slice? t n = some s ↔ s <+: t ∧ byteLen s = n := by
  induction t generalizing s n with
  | nil =>
      rw [slice?, List.prefix_nil]
      split
      · rename_i hn
        subst hn
        constructor
        · intro h
          obtain rfl := Option.some.inj h
          exact ⟨rfl, rfl⟩
        · rintro ⟨rfl, -⟩
          rfl
      · rename_i hn
        refine iff_of_false (by simp) ?_
        rintro ⟨rfl, h⟩
        exact hn h.symm
  | cons c t ih =>
      have hc := c.utf8Size_pos
      rw [slice?]
      split
      · rename_i hn
        subst hn
        constructor
        · intro h
          obtain rfl := Option.some.inj h
          exact ⟨List.nil_prefix, rfl⟩
        · rintro ⟨-, h⟩
          rw [byteLen_eq_zero h]
      · split
        · rename_i hn hle
          rw [Option.map_eq_some_iff]
          constructor
          · rintro ⟨s, hs, rfl⟩
            obtain ⟨hpre, hlen⟩ := ih.1 hs
            refine ⟨List.cons_prefix_cons.2 ⟨rfl, hpre⟩, ?_⟩
            rw [byteLen_cons]
            omega
          · rintro ⟨hpre, hlen⟩
            cases s with
            | nil => exact absurd hlen.symm hn
            | cons c' s =>
                obtain ⟨rfl, htail⟩ := List.cons_prefix_cons.1 hpre
                rw [byteLen_cons] at hlen
                exact ⟨s, ih.2 ⟨htail, by omega⟩, rfl⟩
        · rename_i hn hlt
          refine iff_of_false (by simp) ?_
          rintro ⟨hpre, hlen⟩
          cases s with
          | nil => exact hn hlen.symm
          | cons c' s =>
              obtain ⟨rfl, -⟩ := List.cons_prefix_cons.1 hpre
              rw [byteLen_cons] at hlen
              omega

/-- Prefixes of one text with the same number of bytes are equal. -/
theorem prefix_inj {t s s' : List Char} (h : s <+: t) (h' : s' <+: t)
    (hlen : byteLen s = byteLen s') : s = s' := by
  have hs := slice?_eq_some_iff.2 ⟨h, hlen⟩
  rw [slice?_eq_some_iff.2 ⟨h', rfl⟩] at hs
  exact (Option.some.inj hs).symm

/-! ### The first occurrence -/

/-- `before` is what stands in front of the first occurrence of `pat`. -/
def FirstAt (pat text before : List Char) : Prop :=
  before ++ pat <+: text ∧ ∀ shorter, shorter ++ pat <+: text → before.length ≤ shorter.length

theorem firstAt_of_prefix {pat text before : List Char} (h : pat <+: text) :
    FirstAt pat text before ↔ before = [] := by
  constructor
  · intro hfirst
    exact List.length_eq_zero_iff.1 (Nat.le_zero.1 (hfirst.2 [] h))
  · rintro rfl
    exact ⟨h, fun _ _ => Nat.zero_le _⟩

theorem not_firstAt_nil {pat before : List Char} (h : pat ≠ []) : ¬ FirstAt pat [] before := by
  rintro ⟨hpre, -⟩
  exact h (List.append_eq_nil_iff.1 (List.prefix_nil.1 hpre)).2

/-- Where it does not stand at the front, it is looked for behind the first character. -/
theorem firstAt_cons {pat text before : List Char} {c : Char} (h : ¬ pat <+: c :: text) :
    FirstAt pat (c :: text) before ↔ ∃ before', before = c :: before' ∧
      FirstAt pat text before' := by
  constructor
  · rintro ⟨hpre, hfirst⟩
    cases before with
    | nil => exact absurd hpre h
    | cons c' before =>
        obtain ⟨rfl, htail⟩ := List.cons_prefix_cons.1 hpre
        refine ⟨before, rfl, htail, fun shorter hshorter => ?_⟩
        exact Nat.le_of_succ_le_succ
          (hfirst (c' :: shorter) (List.cons_prefix_cons.2 ⟨rfl, hshorter⟩))
  · rintro ⟨before, rfl, hpre, hfirst⟩
    refine ⟨List.cons_prefix_cons.2 ⟨rfl, hpre⟩, fun shorter hshorter => ?_⟩
    cases shorter with
    | nil => exact absurd hshorter h
    | cons c' shorter =>
        obtain ⟨rfl, htail⟩ := List.cons_prefix_cons.1 hshorter
        exact Nat.succ_le_succ (hfirst shorter htail)

/-! ### Bytes -/

/-- The bytes of a text. -/
def utf8Bytes (s : List Char) : List UInt8 := s.flatMap String.utf8EncodeChar

@[simp] theorem utf8Bytes_nil : utf8Bytes [] = [] := rfl

@[simp] theorem utf8Bytes_cons (c : Char) (s : List Char) :
    utf8Bytes (c :: s) = String.utf8EncodeChar c ++ utf8Bytes s := rfl

@[simp] theorem utf8Bytes_append (s t : List Char) :
    utf8Bytes (s ++ t) = utf8Bytes s ++ utf8Bytes t := List.flatMap_append

theorem length_utf8Bytes (s : List Char) : (utf8Bytes s).length = byteLen s := by
  induction s with
  | nil => rfl
  | cons c s ih => rw [utf8Bytes_cons, List.length_append, String.length_utf8EncodeChar, ih]; rfl

/-- A character below 128 is its only byte. -/
theorem encodeChar_ascii {c : Char} (h : c.toNat < 128) :
    String.utf8EncodeChar c = [c.toNat.toUInt8] := by
  have hle : c.val.toNat ≤ 0x7f := Nat.le_of_lt_succ h
  simp only [String.utf8EncodeChar, hle, if_true]
  rfl

/-- The bytes of any other character are from 128 on. -/
theorem high_of_mem {c : Char} (h : 128 ≤ c.toNat) {b : UInt8}
    (hb : b ∈ String.utf8EncodeChar c) : 128 ≤ b.toNat := by
  have hgt : ¬ c.val.toNat ≤ 0x7f := Nat.not_le.2 h
  simp only [String.utf8EncodeChar, if_neg hgt] at hb
  split at hb
  · simp only [List.mem_cons, List.not_mem_nil, or_false] at hb
    rcases hb with rfl | rfl <;> rw [UInt8.toNat_ofNat'] <;> omega
  · split at hb
    · simp only [List.mem_cons, List.not_mem_nil, or_false] at hb
      rcases hb with rfl | rfl | rfl <;> rw [UInt8.toNat_ofNat'] <;> omega
    · simp only [List.mem_cons, List.not_mem_nil, or_false] at hb
      rcases hb with rfl | rfl | rfl | rfl <;> rw [UInt8.toNat_ofNat'] <;> omega

theorem encodeChar_ne_nil (c : Char) : String.utf8EncodeChar c ≠ [] := by
  intro h
  have hlen := String.length_utf8EncodeChar c
  have hpos := c.utf8Size_pos
  rw [h] at hlen
  exact absurd hlen (by simp only [List.length_nil]; omega)

/-- A first byte below 128 is the first character. -/
theorem utf8Bytes_eq_cons {s : List Char} {c : Char} {bs : List UInt8} (hc : c.toNat < 128)
    (h : utf8Bytes s = c.toNat.toUInt8 :: bs) : ∃ s', s = c :: s' ∧ utf8Bytes s' = bs := by
  cases s with
  | nil => exact nomatch h
  | cons d s =>
      rw [utf8Bytes_cons] at h
      have hbyte : c.toNat.toUInt8.toNat = c.toNat := by
        rw [Nat.toUInt8, UInt8.toNat_ofNat']
        omega
      rcases Nat.lt_or_ge d.toNat 128 with hd | hd
      · rw [encodeChar_ascii hd] at h
        obtain ⟨hhead, htail⟩ := List.cons.inj h
        have hdc : d.toNat = c.toNat := by
          have := congrArg UInt8.toNat hhead
          rw [hbyte, Nat.toUInt8, UInt8.toNat_ofNat'] at this
          omega
        exact ⟨s, by rw [Char.toNat_inj.1 hdc], htail⟩
      · obtain ⟨b, t, hb⟩ := List.exists_cons_of_ne_nil (encodeChar_ne_nil d)
        rw [hb] at h
        have hhigh := high_of_mem hd (b := b) (by rw [hb]; exact List.mem_cons_self)
        rw [(List.cons.inj h).1, hbyte] at hhigh
        omega

/-- First bytes below 128 are first characters. -/
theorem utf8Bytes_eq_append {w : List Char} (hw : ∀ c ∈ w, c.toNat < 128) :
    ∀ {s : List Char} {bs : List UInt8}, utf8Bytes s = utf8Bytes w ++ bs →
      ∃ s', s = w ++ s' ∧ utf8Bytes s' = bs := by
  induction w with
  | nil =>
      intro s bs h
      exact ⟨s, rfl, h⟩
  | cons c w ih =>
      intro s bs h
      have hc := hw c List.mem_cons_self
      rw [utf8Bytes_cons, encodeChar_ascii hc] at h
      obtain ⟨s₁, rfl, h₁⟩ := utf8Bytes_eq_cons hc h
      obtain ⟨s', rfl, h'⟩ := ih (fun d hd => hw d (List.mem_cons_of_mem c hd)) h₁
      exact ⟨s', rfl, h'⟩

theorem utf8Bytes_inj {s t : List Char} (h : utf8Bytes s = utf8Bytes t) : s = t := by
  have hbytes : (String.ofList s).toByteArray = (String.ofList t).toByteArray :=
    congrArg List.toByteArray h
  exact String.ofList_injective (String.toByteArray_inj.1 hbytes)

end Utf8Text
