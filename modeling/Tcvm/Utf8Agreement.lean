/-
The functions of the `utf8` library agree.

What `codes` delivers is the walk of the decoder over the string.  `len` counts, and `codepoint`
lists, the part of that walk in a range of bytes; `offset` finds its positions, from the front and
from the back.  A range with bytes that starts inside a character is refused by both: `len` says
where, `codepoint` raises.

* `Utf8Text` — the strings that are encodings of code points;
* `Agrees` — what the four functions have to do with one another;
* `agrees_walk` — the characters are those of the walk;
* `utf8_functions_agree` — **they agree on every string, and no argument overflows**;
* `not_utf8_functions_count` — a range that starts inside a character has no count.
-/

import Tcvm.Utf8Offset

namespace Tcvm

open DecoderWalk ExtendedUtf8 WhileLoop

open Utf8Fault (ok_bind)

/-! ### What is to be shown -/

/-- The string is the encoding of code points that the strict mode accepts. -/
def Utf8Text (s : LuaString) : Prop :=
  ∃ cs : List ℕ, (∀ c ∈ cs, c < 2 ^ 31 ∧ notStrict c = false) ∧ s = cs.flatMap encode

/-- The characters with a position in the range. -/
def within (items : List (ℕ × ℕ)) (posi posj : ℤ) : List (ℕ × ℕ) :=
  items.filter fun r => posi ≤ (r.1 : ℤ) + 1 ∧ (r.1 : ℤ) + 1 ≤ posj

/-- The arguments `i` and `j` give a range of bytes that `len` accepts. -/
structure RangeOf (s : LuaString) (i j : Int64) (posi posj : ℤ) : Prop where
  first : posrelat i.toInt s.length = posi
  last : posrelat j.toInt s.length = posj
  first_pos : 1 ≤ posi
  first_le : posi ≤ s.length + 1
  last_le : posj ≤ s.length

/-- `items` are the characters with their offsets, `stuck` is the offset where nothing can be
decoded.  An offset counts from 0, a position from 1. -/
structure Agrees (N : NumberRules) (s : LuaString) (items : List (ℕ × ℕ)) (stuck : Option ℕ) :
    Prop where
  /-- What the iterator of `codes` is called with first. -/
  begins : luaCodes [Value.string s] = Except.ok [Value.string s, posValue 0]
  /-- `codes` delivers the characters, and raises behind them if it is stuck. -/
  codes : Iteration (Value.string s) (posValue 0) (items.map delivered)
    (stuck.map fun _ => invalidCode)
  /-- The characters are those of the string, up to where `codes` is stuck. -/
  spelled : s = items.flatMap (fun r => encode r.2) ++ s.drop (stuck.getD s.length)
  stuck_iff : stuck = none ↔ Utf8Text s
  /-- A range from a character on, or without bytes, in which everything can be decoded. -/
  counted : ∀ (i j : Int64) (posi posj : ℤ), RangeOf s i j posi posj →
    (∃ p ∈ starts items (stuck.getD s.length), posi = p + 1) ∧ (∀ p ∈ stuck, posj ≤ p) ∨
      posj < posi →
    luaLen N [Value.string s, Value.integer i, Value.integer j] =
        Except.ok [posValue (within items posi posj).length] ∧
      luaCodepoint N [Value.string s, Value.integer i, Value.integer j] =
        Except.ok ((within items posi posj).map fun r => posValue r.2)
  /-- A range from a character on in which something cannot be decoded. -/
  invalid : ∀ (i j : Int64) (posi posj : ℤ), RangeOf s i j posi posj →
    (∃ p ∈ starts items (stuck.getD s.length), posi = p + 1) →
    ∀ p ∈ stuck, p < posj →
    luaLen N [Value.string s, Value.integer i, Value.integer j] =
        Except.ok [Value.nil, posValue (p + 1)] ∧
      luaCodepoint N [Value.string s, Value.integer i, Value.integer j] = Except.error invalidCode
  /-- A range with bytes that starts inside a character. -/
  cut : ∀ (i j : Int64) (posi posj : ℤ), RangeOf s i j posi posj → posi ≤ posj →
    iscont s posi = true →
    luaLen N [Value.string s, Value.integer i, Value.integer j] =
        Except.ok [Value.nil, posValue posi] ∧
      luaCodepoint N [Value.string s, Value.integer i, Value.integer j] = Except.error invalidCode
  /-- There are no other ranges in a valid string. -/
  start_or_cut : stuck = none → ∀ p ≤ s.length, p ∈ starts items s.length ∨ iscont s (p + 1) = true
  /-- Of the whole string `len` gives the number of characters, or where `codes` raises. -/
  whole : luaLen N [Value.string s] = Except.ok (lenResults items.length stuck)
  /-- `offset` finds the positions of `codes`, from the front and from the back, with the last
  byte of the character. -/
  offset : stuck = none → ∀ (k : ℕ) (r : ℕ × ℕ), items[k]? = some r → ∀ n : Int64,
    n.toInt = k + 1 ∨ n.toInt = (k : ℤ) - items.length →
    luaOffset N [Value.string s, Value.integer n] =
      Except.ok [posValue (r.1 + 1), posValue (r.1 + (encode r.2).length)]
  /-- Behind the last character. -/
  offset_past : stuck = none → ∀ n : Int64, n.toInt = items.length + 1 →
    luaOffset N [Value.string s, Value.integer n] =
      Except.ok [posValue (s.length + 1), posValue (s.length + 1)]
  /-- Farther out. -/
  offset_nil : stuck = none → ∀ n : Int64, (items.length : ℤ) + 1 < n.toInt ∨
      n.toInt < -items.length →
    luaOffset N [Value.string s, Value.integer n] = Except.ok [Value.nil]

/-! ### The walk over the string -/

variable {s : LuaString} {items : List (ℕ × ℕ)} {stuck : Option ℕ} {pos : ℕ}

theorem decoder_iff {code next : ℕ} : decoder s true pos = some (code, next) ↔
    (code < 2 ^ 31 ∧ notStrict code = false) ∧ encode code <+: s.drop pos ∧
      next = pos + (encode code).length := by
  rw [decoder, decode_strict, Option.filter_eq_some_iff, decode_eq_some_iff, Bool.not_eq_true']
  constructor
  · rintro ⟨⟨hcode, hprefix, hnext⟩, hstrict⟩
    exact ⟨⟨hcode, hstrict⟩, hprefix, hnext⟩
  · rintro ⟨⟨hcode, hstrict⟩, hprefix, hnext⟩
    exact ⟨⟨hcode, hprefix, hnext⟩, hstrict⟩

/-- A walk spells what is in front of the position where it is stuck. -/
theorem spelled_of_walk (h : Walk (decoder s true) s.length pos items stuck)
    (hpos : pos ≤ s.length) :
    s.drop pos = items.flatMap (fun r => encode r.2) ++ s.drop (stuck.getD s.length) ∧
      ∀ r ∈ items, r.2 < 2 ^ 31 ∧ notStrict r.2 = false := by
  induction h with
  | ends hle =>
      obtain rfl := Nat.le_antisymm hpos hle
      exact ⟨rfl, fun r hr => absurd hr List.not_mem_nil⟩
  | stuck => exact ⟨rfl, fun r hr => absurd hr List.not_mem_nil⟩
  | @item pos next code items stuck hlt hread _ ih =>
      obtain ⟨hcode, hprefix, hnext⟩ := decoder_iff.1 hread
      obtain ⟨hspelled, hitems⟩ := ih (decoder_fits hread)
      refine ⟨?_, fun r hr => ?_⟩
      · obtain ⟨rest, hrest⟩ := hprefix
        have htail : s.drop next = rest := by
          rw [hnext, ← List.drop_drop, ← hrest, List.drop_left]
        rw [← hrest, List.flatMap_cons, List.append_assoc, ← hspelled, htail]
      · rcases List.mem_cons.1 hr with rfl | hr
        · exact hcode
        · exact hitems r hr

/-- The walk over an encoding of code points. -/
theorem walk_of_text {cs : List ℕ} (hcs : ∀ c ∈ cs, c < 2 ^ 31 ∧ notStrict c = false)
    (hpos : pos ≤ s.length) (hs : s.drop pos = cs.flatMap encode) :
    ∃ items, Walk (decoder s true) s.length pos items none := by
  induction cs generalizing pos with
  | nil =>
      have hend := List.drop_eq_nil_iff.1 hs
      exact ⟨[], Walk.ends hend⟩
  | cons c cs ih =>
      rw [List.flatMap_cons] at hs
      have hread : decoder s true pos = some (c, pos + (encode c).length) :=
        decoder_iff.2 ⟨hcs c List.mem_cons_self, hs ▸ List.prefix_append _ _, rfl⟩
      have hnext := decoder_fits hread
      have hadvance := decoder_advances s true _ _ _ hread
      have hrest : s.drop (pos + (encode c).length) = cs.flatMap encode := by
        rw [← List.drop_drop, hs, List.drop_left]
      obtain ⟨items, hitems⟩ :=
        ih (fun c' hc' => hcs c' (List.mem_cons_of_mem c hc')) hnext hrest
      exact ⟨_, Walk.item (by omega) hread hitems⟩

/-- **The walk ends iff the string is valid.** -/
theorem stuck_iff_of_walk (h : Walk (decoder s true) s.length 0 items stuck) :
    stuck = none ↔ Utf8Text s := by
  constructor
  · rintro rfl
    obtain ⟨hspelled, hitems⟩ := spelled_of_walk h (Nat.zero_le _)
    refine ⟨items.map Prod.snd, fun c hc => ?_, ?_⟩
    · obtain ⟨r, hr, rfl⟩ := List.mem_map.1 hc
      exact hitems r hr
    · rw [List.flatMap_map]
      rwa [List.drop_zero, Option.getD_none, List.drop_length, List.append_nil] at hspelled
  · rintro ⟨cs, hcs, hs⟩
    obtain ⟨items', hitems'⟩ := walk_of_text hcs (Nat.zero_le s.length) hs
    exact (h.unique hitems').2

/-- In a valid string each byte starts a character or continues one. -/
theorem start_or_contAt (h : Walk (decoder s true) s.length pos items none) {p : ℕ} (hpos : pos ≤ p)
    (hp : p ≤ s.length) : p ∈ starts items s.length ∨ ContAt s p := by
  generalize hstuck : none = stuck at h
  induction h with
  | ends hle =>
      obtain rfl := Nat.le_antisymm hp (hle.trans hpos)
      exact Or.inl (List.mem_singleton.2 rfl)
  | stuck => cases hstuck
  | @item pos next code items stuck hlt hread _ ih =>
      obtain ⟨-, hadvance, -, -, hinside⟩ := decoder_shape hread
      rcases Nat.eq_or_lt_of_le hpos with rfl | hbehind
      · exact Or.inl List.mem_cons_self
      · by_cases hnext : p < next
        · exact Or.inr (hinside p hbehind hnext)
        · exact (ih (Nat.not_lt.1 hnext) hstuck).imp_left (List.mem_cons_of_mem pos)

/-- The starts of the characters, as `offset` goes through them. -/
theorem charStarts_of_walk (h : Walk (decoder s true) s.length 0 items none) :
    CharStarts s items.length fun m => (starts items s.length).getD m s.length := by
  have hfits : FitsIn (decoder s true) s.length := fun _ _ _ hread => decoder_fits hread
  have hat : ∀ m < items.length, ∃ code,
      decoder s true ((starts items s.length).getD m s.length) =
        some (code, (starts items s.length).getD (m + 1) s.length) := by
    intro m hm
    obtain ⟨next, hread, hnext⟩ := h.next hfits (List.getElem?_eq_getElem hm)
    have hstart : (starts items s.length)[m]? = some items[m].1 := by
      rw [starts, List.getElem?_append_left (by rwa [List.length_map]), List.getElem?_map,
        List.getElem?_eq_getElem hm]
      rfl
    refine ⟨items[m].2, ?_⟩
    rw [List.getD_eq_getElem?_getD, List.getD_eq_getElem?_getD, hstart, hnext]
    exact hread
  have hlast : (starts items s.length).getD items.length s.length = s.length := by
    rw [List.getD_eq_getElem?_getD, starts,
      List.getElem?_append_right (by rw [List.length_map]), List.length_map,
      Nat.sub_self]
    rfl
  refine ⟨?_, hlast, fun m hm => ?_, fun m hm => ?_, fun m hm r hlo hhi => ?_⟩
  · rw [List.getD_eq_getElem?_getD, h.first (Nat.zero_le _)]
    rfl
  · obtain ⟨code, hread⟩ := hat m hm
    exact decoder_advances s true _ _ _ hread
  · rcases Nat.eq_or_lt_of_le hm with rfl | hm
    · rw [hlast, ContAt, List.getElem?_eq_none (Nat.le_refl _)]
      simp
    · obtain ⟨code, hread⟩ := hat m hm
      obtain ⟨-, -, -, hfirst, -⟩ := decoder_shape hread
      rw [ContAt, hfirst]
      simp
  · obtain ⟨code, hread⟩ := hat m hm
    obtain ⟨-, -, -, -, hinside⟩ := decoder_shape hread
    exact hinside r hlo hhi

/-! ### `len` and `codepoint` in a range -/

variable {N : NumberRules} {i j : Int64} {posi posj : ℤ}

theorem RangeOf.last_nonneg (h : RangeOf s i j posi posj) : 0 ≤ posj := by
  rw [← h.last]
  unfold posrelat
  split
  · assumption
  · split
    · exact le_refl 0
    · omega

/-- **Both walk over the range.** -/
theorem RangeOf.walks (h : RangeOf s i j posi posj) (hlen : s.length < 2 ^ 63 - 1)
    (hwalk : Walk (decoder s true) posj.toNat (posi - 1).toNat items stuck) :
    luaLen N [Value.string s, Value.integer i, Value.integer j] =
        Except.ok (lenResults items.length stuck) ∧
      luaCodepoint N [Value.string s, Value.integer i, Value.integer j] =
        codepointResults (items.map fun r => posValue r.2) stuck := by
  have hnonneg := h.last_nonneg
  obtain ⟨hfirst, hlast, hpos, hle, hlast_le⟩ := h
  have hrounds := hwalk.length_le (decoder_advances s true)
  have hposi : checkedPosrelat i.toInt s.length = Except.ok posi := by
    rw [checkedPosrelat_eq i.le_toInt (by omega), hfirst]
  have hposj : checkedPosrelat j.toInt s.length = Except.ok posj := by
    rw [checkedPosrelat_eq j.le_toInt (by omega), hlast]
  have hargs : ∀ fname : String, ∀ default : ℤ,
      checkText (stackGet [Value.string s, Value.integer i, Value.integer j] 0) fname 1 =
          Except.ok s ∧
        N.positionOr (stackGet [Value.string s, Value.integer i, Value.integer j] 1) default fname 2
          = Except.ok i.toInt ∧
        N.positionOr (stackGet [Value.string s, Value.integer i, Value.integer j] 2) default fname 3
          = Except.ok j.toInt ∧
        (stackGet [Value.string s, Value.integer i, Value.integer j] 3).isFalsy = true :=
    fun _ _ => ⟨rfl, rfl, rfl, rfl⟩
  constructor
  · obtain ⟨hs, hi, -, hstrict⟩ := hargs "len" 1
    obtain ⟨-, -, hj, -⟩ := hargs "len" (-1)
    have hloop := @lenLoop_walk s true items stuck _ posj hlen hlast_le hwalk (s.length + 1) 0
      (by omega) (Nat.zero_le _)
    rw [show (((posi - 1).toNat : ℕ) : ℤ) + 1 = posi by omega, Nat.zero_add] at hloop
    rw [luaLen, hs, ok_bind, hi, ok_bind, hj, ok_bind, hposi, ok_bind, hposj, ok_bind,
      checkedPos_ok (by omega) (by omega), ok_bind, if_neg (by omega), if_neg (by omega), hstrict]
    exact hloop
  · obtain ⟨hs, hi, -, hstrict⟩ := hargs "codepoint" 1
    obtain ⟨-, -, hj, -⟩ := hargs "codepoint" i.toInt
    have hloop := @codepointLoop_walk s true items stuck _ posj.toNat hwalk (s.length + 1) []
      (by omega)
    have hend : asUsize posj = posj.toNat := by
      unfold asUsize
      omega
    have hstart : asUsize (posi - 1) = (posi - 1).toNat := by
      unfold asUsize
      omega
    rw [luaCodepoint, hs, ok_bind, hi, ok_bind, hj, ok_bind, hposi, ok_bind, hposj, ok_bind,
      if_neg (by omega), if_neg (by omega), checkedPos_ok (by omega) (by omega), ok_bind]
    dsimp only
    rw [hstrict, hend, hstart]
    exact hloop

/-- The part of the walk in a range. -/
theorem walk_range (h : Walk (decoder s true) s.length 0 items stuck) {p last : ℕ}
    (hp : p ∈ starts items (stuck.getD s.length)) (hlast : last ≤ s.length) :
    Walk (decoder s true) last p (within items (p + 1) last)
      (stuck.filter fun q => q < last) := by
  have hpart := (h.behind (decoder_advances s true) hp).restrict (decoder_advances s true) hlast
  rw [List.filter_filter] at hpart
  have heq : within items (p + 1) last =
      items.filter fun r => decide (r.1 < last) && decide (p ≤ r.1) := by
    refine List.filter_congr fun r _ => ?_
    rw [← Bool.decide_and]
    exact decide_eq_decide.2 (by omega)
  rw [heq]
  exact hpart

/-- A range without bytes holds no character. -/
theorem within_nil (h : posj < posi) : within items posi posj = [] := by
  refine List.filter_eq_nil_iff.2 fun r _ hr => ?_
  have hin := of_decide_eq_true hr
  omega

theorem RangeOf.counted (h : RangeOf s i j posi posj) (hlen : s.length < 2 ^ 63 - 1)
    (hwalk : Walk (decoder s true) s.length 0 items stuck)
    (hrange : (∃ p ∈ starts items (stuck.getD s.length), posi = p + 1) ∧ (∀ p ∈ stuck, posj ≤ p) ∨
      posj < posi) :
    luaLen N [Value.string s, Value.integer i, Value.integer j] =
        Except.ok [posValue (within items posi posj).length] ∧
      luaCodepoint N [Value.string s, Value.integer i, Value.integer j] =
        Except.ok ((within items posi posj).map fun r => posValue r.2) := by
  have hnonneg := h.last_nonneg
  have hlast_le := h.last_le
  have hpos := h.first_pos
  rcases hrange with ⟨⟨p, hp, hposi⟩, hstuck⟩ | hempty
  · have hpart := @walk_range s items stuck hwalk p posj.toNat hp (by omega)
    have hnone : stuck.filter (fun q => q < posj.toNat) = none := by
      refine Option.filter_eq_none_iff.2 fun q hq hlt => ?_
      have hle := hstuck q hq
      have hlt := of_decide_eq_true hlt
      omega
    rw [hnone, Int.toNat_of_nonneg hnonneg, ← hposi, show p = (posi - 1).toNat by omega] at hpart
    exact h.walks hlen hpart
  · rw [within_nil hempty]
    exact h.walks hlen (Walk.ends (by omega))

theorem RangeOf.invalid (h : RangeOf s i j posi posj) (hlen : s.length < 2 ^ 63 - 1)
    (hwalk : Walk (decoder s true) s.length 0 items stuck)
    (hstart : ∃ p ∈ starts items (stuck.getD s.length), posi = p + 1) {q : ℕ} (hq : q ∈ stuck)
    (hlt : q < posj) :
    luaLen N [Value.string s, Value.integer i, Value.integer j] =
        Except.ok [Value.nil, posValue (q + 1)] ∧
      luaCodepoint N [Value.string s, Value.integer i, Value.integer j] =
        Except.error invalidCode := by
  have hlast_le := h.last_le
  obtain ⟨p, hp, hposi⟩ := hstart
  have hpart := @walk_range s items stuck hwalk p posj.toNat hp (by omega)
  obtain rfl := Option.mem_def.1 hq
  rw [Option.filter_some, if_pos (decide_eq_true (by omega)),
    show p = (posi - 1).toNat by omega] at hpart
  exact h.walks hlen hpart

theorem RangeOf.cut (h : RangeOf s i j posi posj) (hlen : s.length < 2 ^ 63 - 1)
    (hle : posi ≤ posj) (hcont : iscont s posi = true) :
    luaLen N [Value.string s, Value.integer i, Value.integer j] =
        Except.ok [Value.nil, posValue posi] ∧
      luaCodepoint N [Value.string s, Value.integer i, Value.integer j] =
        Except.error invalidCode := by
  have hpos := h.first_pos
  obtain ⟨p, rfl⟩ : ∃ p : ℕ, posi = p + 1 := ⟨(posi - 1).toNat, by omega⟩
  rw [iscont_succ] at hcont
  have hwalk : Walk (decoder s true) posj.toNat p [] (some p) :=
    Walk.stuck (by omega) (decoder_isCont hcont)
  rw [show Walk (decoder s true) posj.toNat p = Walk (decoder s true) posj.toNat
    ((p : ℤ) + 1 - 1).toNat by rw [Int.add_sub_cancel, Int.toNat_natCast]] at hwalk
  exact h.walks hlen hwalk

/-- Of the whole string. -/
theorem luaLen_whole (hlen : s.length < 2 ^ 63 - 1)
    (hwalk : Walk (decoder s true) s.length 0 items stuck) :
    luaLen N [Value.string s] = Except.ok (lenResults items.length stuck) := by
  have hlast : posrelat (-1 : Int64).toInt s.length = s.length := by
    rw [show (-1 : Int64).toInt = -1 from rfl, posrelat, if_neg (by omega)]
    split <;> omega
  have hrange : RangeOf s 1 (-1) 1 s.length :=
    ⟨rfl, hlast, by omega, by omega, by omega⟩
  have hdefaults : luaLen N [Value.string s] =
      luaLen N [Value.string s, Value.integer 1, Value.integer (-1)] := rfl
  rw [hdefaults]
  exact (hrange.walks hlen hwalk).1

/-! ### `offset` -/

/-- A character of the walk as a start that `offset` finds. -/
theorem place_of_item (h : Walk (decoder s true) s.length 0 items none) {k : ℕ} {r : ℕ × ℕ}
    (hr : items[k]? = some r) :
    k < items.length ∧ (starts items s.length).getD k s.length = r.1 ∧
      (starts items s.length).getD (k + 1) s.length = r.1 + (encode r.2).length := by
  obtain ⟨hk, -⟩ := List.getElem?_eq_some_iff.1 hr
  obtain ⟨next, hread, hnext⟩ := h.next (fun _ _ _ hread => decoder_fits hread) hr
  obtain ⟨-, -, hlast⟩ := decoder_iff.1 hread
  refine ⟨hk, ?_, ?_⟩
  · rw [List.getD_eq_getElem?_getD, starts, List.getElem?_append_left (by rwa [List.length_map]),
      List.getElem?_map, hr]
    rfl
  · rw [List.getD_eq_getElem?_getD, hnext]
    exact hlast

theorem luaOffset_item (hlen : s.length < 2 ^ 63 - 1)
    (h : Walk (decoder s true) s.length 0 items none) {k : ℕ} {r : ℕ × ℕ}
    (hr : items[k]? = some r) {n : Int64}
    (hn : n.toInt = k + 1 ∨ n.toInt = (k : ℤ) - items.length) :
    luaOffset N [Value.string s, Value.integer n] =
      Except.ok [posValue (r.1 + 1), posValue (r.1 + (encode r.2).length)] := by
  have hP := charStarts_of_walk h
  obtain ⟨hk, hplace, hnext⟩ := place_of_item h hr
  have hresults := hP.offsetResults_start hlen hk
  have hmin := n.le_toInt
  have hmax := n.toInt_lt
  rw [hplace, hnext, Int.natCast_add] at hresults
  rw [luaOffset_eq N hlen, ← hresults]
  rcases hn with hn | hn
  · rw [if_pos (by omega), hP.findOffset_forward hlen (by omega) (by omega), if_pos (by omega),
      ok_bind, show (n.toInt - 1).toNat = k by omega, hplace]
  · rw [if_neg (by omega), hP.findOffset_backward hlen (by omega) (by omega), if_pos (by omega),
      ok_bind, show ((items.length : ℤ) + n.toInt).toNat = k by omega, hplace]

theorem luaOffset_past (hlen : s.length < 2 ^ 63 - 1)
    (h : Walk (decoder s true) s.length 0 items none) {n : Int64}
    (hn : n.toInt = items.length + 1) :
    luaOffset N [Value.string s, Value.integer n] =
      Except.ok [posValue (s.length + 1), posValue (s.length + 1)] := by
  have hP := charStarts_of_walk h
  have hmax := n.toInt_lt
  rw [luaOffset_eq N hlen, if_pos (by omega), hP.findOffset_forward hlen (by omega) (by omega),
    if_pos (by omega), ok_bind, show (n.toInt - 1).toNat = items.length by omega, hP.last]
  exact offsetResults_past s

theorem luaOffset_nil (hlen : s.length < 2 ^ 63 - 1)
    (h : Walk (decoder s true) s.length 0 items none) {n : Int64}
    (hn : (items.length : ℤ) + 1 < n.toInt ∨ n.toInt < -items.length) :
    luaOffset N [Value.string s, Value.integer n] = Except.ok [Value.nil] := by
  have hP := charStarts_of_walk h
  have hmin := n.le_toInt
  have hmax := n.toInt_lt
  rw [luaOffset_eq N hlen]
  rcases hn with hn | hn
  · rw [if_pos (by omega), hP.findOffset_forward hlen (by omega) (by omega), if_neg (by omega),
      ok_bind]
    rfl
  · rw [if_neg (by omega), hP.findOffset_backward hlen (by omega) (by omega), if_neg (by omega),
      ok_bind]
    rfl

/-! ### Nothing overflows -/

theorem luaLen_safe (N : NumberRules) {stack : List Value}
    (hlen : ∀ s, stackGet stack 0 = Value.string s → s.length < 2 ^ 63 - 1) :
    Safe (luaLen N stack) := by
  refine Safe.bind (checkText_safe _ _ _) fun s hs => ?_
  have hlen := hlen s (string_of_checkText hs)
  refine Safe.bind (positionOr_safe N _ _ _ _) fun i hi => ?_
  refine Safe.bind (positionOr_safe N _ _ _ _) fun j hj => ?_
  obtain ⟨hilo, hihi⟩ := positionOr_fits (by omega) (by omega) hi
  obtain ⟨hjlo, hjhi⟩ := positionOr_fits (by omega) (by omega) hj
  rw [checkedPosrelat_eq hilo (by omega), ok_bind, checkedPosrelat_eq hjlo (by omega), ok_bind,
    checkedPos_ok (by omega) (by omega), ok_bind]
  split
  · exact Safe.raise _
  · split
    · exact Safe.raise _
    · rename_i hfirst hlast
      obtain ⟨p, hp⟩ : ∃ p : ℕ, posrelat i s.length = p + 1 :=
        ⟨(posrelat i s.length - 1).toNat, by omega⟩
      obtain ⟨items, stuck, hwalk⟩ := exists_walk
        (decoder_advances s (stackGet stack 3).isFalsy) (posrelat j s.length).toNat p
      have hrounds := hwalk.length_le (decoder_advances s _)
      have hloop := @lenLoop_walk s _ items stuck p _ hlen (by omega) hwalk (s.length + 1) 0
        (by omega) (Nat.zero_le _)
      rw [hp]
      exact hloop ▸ Safe.ok _

theorem luaCodepoint_safe (N : NumberRules) {stack : List Value}
    (hlen : ∀ s, stackGet stack 0 = Value.string s → s.length < 2 ^ 63 - 1) :
    Safe (luaCodepoint N stack) := by
  refine Safe.bind (checkText_safe _ _ _) fun s hs => ?_
  have hlen := hlen s (string_of_checkText hs)
  refine Safe.bind (positionOr_safe N _ _ _ _) fun i hi => ?_
  obtain ⟨hilo, hihi⟩ := positionOr_fits (by omega) (by omega) hi
  refine Safe.bind (positionOr_safe N _ _ _ _) fun j hj => ?_
  obtain ⟨hjlo, hjhi⟩ := positionOr_fits hilo hihi hj
  rw [checkedPosrelat_eq hilo (by omega), ok_bind, checkedPosrelat_eq hjlo (by omega), ok_bind]
  split
  · exact Safe.raise _
  · split
    · exact Safe.raise _
    · rename_i hfirst hlast
      have hmax : posrelat i s.length < 2 ^ 63 := by
        unfold posrelat
        split
        · exact hihi
        · split <;> omega
      rw [checkedPos_ok (by omega) (by omega), ok_bind]
      obtain ⟨items, stuck, hwalk⟩ := exists_walk
        (decoder_advances s (stackGet stack 3).isFalsy) (asUsize (posrelat j s.length))
        (asUsize (posrelat i s.length - 1))
      have hrounds := hwalk.length_le (decoder_advances s _)
      have hend : asUsize (posrelat j s.length) ≤ s.length := by
        have hnonneg : 0 ≤ posrelat j s.length := by
          unfold posrelat
          split
          · assumption
          · split <;> omega
        unfold asUsize
        omega
      have hloop := @codepointLoop_walk s _ items stuck _ _ hwalk (s.length + 1) [] (by omega)
      dsimp only
      rw [hloop]
      cases stuck with
      | none => exact Safe.ok _
      | some p => exact Safe.raise _

/-- The iterator overflows for no control value but the least one. -/
theorem codesAux_safe {stack : List Value}
    (hlen : ∀ s, stackGet stack 0 = Value.string s → s.length < 2 ^ 63 - 1)
    (hcontrol : stackGet stack 1 ≠ Value.integer Int64.minValue) : Safe (codesAux stack) := by
  refine Safe.bind (checkText_safe _ _ _) fun s hs => ?_
  have hlen := hlen s (string_of_checkText hs)
  dsimp only
  generalize hv : stackGet stack 1 = v at hcontrol
  have hi : -2 ^ 63 < (v.getInteger.getD 0).toInt := by
    cases v with
    | integer i =>
        have hne : i.toInt ≠ Int64.minValue.toInt :=
          fun heq => hcontrol (congrArg Value.integer (Int64.toInt_inj.1 heq))
        have hle := i.le_toInt
        exact lt_of_le_of_ne hle hne.symm
    | _ => exact (by decide : -2 ^ 63 < (0 : Int64).toInt)
  have hmax := (v.getInteger.getD 0).toInt_lt
  generalize (v.getInteger.getD 0).toInt = i at hi hmax
  refine Safe.bind ?_ fun pos hpos => ?_
  · unfold codesPos
    split
    · exact Safe.ok 0
    · rw [checkedPos_ok (by omega) (by omega), ok_bind]
      cases decode s (asUsize (i - 1)) true with
      | none => exact Safe.raise _
      | some r => exact Safe.ok _
  · unfold codesItem
    split
    · exact Safe.ok _
    · rename_i hlt
      cases decode s pos true with
      | none => exact Safe.raise _
      | some r =>
          dsimp only
          rw [checkedPos_ok (by omega) (by omega), ok_bind]
          exact Safe.ok _

/-! ### The library -/

/-- **The functions agree** on every string, in every range of bytes, from the front and from the
back, and no argument overflows. -/
theorem utf8_functions_agree (N : NumberRules) {s : LuaString} (hlen : s.length < 2 ^ 63 - 1) :
    (∃ items stuck, Agrees N s items stuck) ∧
      ∀ stack : List Value, stackGet stack 0 = Value.string s →
        Safe (luaLen N stack) ∧ Safe (luaCodepoint N stack) ∧ Safe (luaOffset N stack) ∧
          (stackGet stack 1 ≠ Value.integer Int64.minValue → Safe (codesAux stack)) := by
  constructor
  · obtain ⟨items, stuck, hwalk⟩ := exists_walk (decoder_advances s true) s.length 0
    refine ⟨items, stuck, ?_⟩
    have hends : stuck = none → Walk (decoder s true) s.length 0 items none := by
      rintro rfl
      exact hwalk
    have hspelled := (spelled_of_walk hwalk (Nat.zero_le _)).1
    exact {
      begins := rfl
      codes := Iteration.of_walk hlen hwalk (by decide) (by decide) rfl
      spelled := hspelled
      stuck_iff := stuck_iff_of_walk hwalk
      counted := fun i j posi posj h hrange => h.counted hlen hwalk hrange
      invalid := fun i j posi posj h hstart p hp hlt => h.invalid hlen hwalk hstart hp hlt
      cut := fun i j posi posj h hle hcont => h.cut hlen hle hcont
      start_or_cut := fun hnone p hp =>
        (start_or_contAt (hends hnone) (Nat.zero_le p) hp).imp_right iscont_of_contAt
      whole := luaLen_whole hlen hwalk
      offset := fun hnone k r hr n hn => luaOffset_item hlen (hends hnone) hr hn
      offset_past := fun hnone n hn => luaOffset_past hlen (hends hnone) hn
      offset_nil := fun hnone n hn => luaOffset_nil hlen (hends hnone) hn }
  · intro stack hs
    have hlen' : ∀ s', stackGet stack 0 = Value.string s' → s'.length < 2 ^ 63 - 1 := by
      intro s' hs'
      obtain rfl := Value.string.inj (hs.symm.trans hs')
      exact hlen
    exact ⟨luaLen_safe N hlen', luaCodepoint_safe N hlen', luaOffset_safe N hlen',
      fun hcontrol => codesAux_safe hlen' hcontrol⟩

/-- An accented letter of two bytes in front of a plain one. -/
theorem utf8_functions_agree_accent :
    ∃ items stuck, Agrees noTexts [0xC3, 0xA9, 0x61] items stuck :=
  (utf8_functions_agree noTexts (s := [0xC3, 0xA9, 0x61]) (by decide)).1

/-- **A range that starts inside a character has no count**: `len` returns no number there, and
`codepoint` raises. -/
theorem not_utf8_functions_count :
    ¬ ∀ (s : LuaString) (i j : Int64) (posi posj : ℤ), Utf8Text s → RangeOf s i j posi posj →
      ∃ count, luaLen noTexts [Value.string s, Value.integer i, Value.integer j] =
        Except.ok [posValue count] := by
  intro h
  have htext : Utf8Text [0xC3, 0xA9] := ⟨[0xE9], by decide, by decide⟩
  have hrange : RangeOf [0xC3, 0xA9] 2 2 2 2 :=
    ⟨by decide, by decide, by decide, by decide, by decide⟩
  obtain ⟨count, hcount⟩ := h [0xC3, 0xA9] 2 2 2 2 htext hrange
  have hnil : luaLen noTexts [Value.string [0xC3, 0xA9], Value.integer 2, Value.integer 2] =
      Except.ok [Value.nil, posValue 2] := by decide
  rw [hnil] at hcount
  cases hcount

end Tcvm
