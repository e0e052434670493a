/-
`string.packsize`.

The sizes of the options are added up in a `usize`, with a check against the largest Lua integer.
The walk is that of `pack`: an option of fixed size puts its padding and its size behind the
buffer, so that both are at the same position when they read the next option.  The arithmetic of
the walk, with each operation checked, never overflows.

* `addUsize`, `subUsize`, `mulUsize` — arithmetic that may overflow;
* `digitsChecked`, `paddingChecked`, `detailsChecked` — the reader of options with its arithmetic;
* `luaPacksize` — the library function;
* `detailsChecked_eq` — **the reader does not overflow**;
* `packOption_length` — an option of fixed size grows the buffer by its size;
* `packsizeLoop_spec` — **what `packsize` gives is what `pack` writes**.
-/

import Tcvm.PackRoundTrip
import Tcvm.StateExcept

namespace Tcvm

/-! ### Checked arithmetic -/

/-- What ends a walk: an error of the library, an overflow of `usize`, or a read behind the end. -/
inductive WalkFault
  | raise (e : PackError)
  | overflow
  | outside
  deriving DecidableEq

def addUsize (a b : ℕ) : Except WalkFault ℕ :=
  if a + b < 2 ^ 64 then Except.ok (a + b) else Except.error WalkFault.overflow

def subUsize (a b : ℕ) : Except WalkFault ℕ :=
  if b ≤ a then Except.ok (a - b) else Except.error WalkFault.overflow

def mulUsize (a b : ℕ) : Except WalkFault ℕ :=
  if a * b < 2 ^ 64 then Except.ok (a * b) else Except.error WalkFault.overflow

/-- `checked_add`. -/
def checkedAdd (a b : ℕ) : Option ℕ := if a + b < 2 ^ 64 then some (a + b) else none

/-- A part without arithmetic of its own. -/
def lifted {α : Type} (r : Except PackError α) : Except WalkFault α := r.mapError WalkFault.raise

/-! ### The reader of options -/

/-- The loop of `get_num`, with its arithmetic. -/
def digitsChecked (a : ℕ) : List UInt8 → Except WalkFault (ℕ × List UInt8)
  | [] => Except.ok (a, [])
  | c :: cs =>
      if isDigit c && a ≤ (MAXSIZE - 9) / 10 then do
        let tens ← mulUsize a 10
        let a ← addUsize tens (c - 48).toNat
        digitsChecked a cs
      else Except.ok (a, c :: cs)

/-- The padding of `get_details`, with its arithmetic. -/
def paddingChecked (h : Header) (opt : KOption) (align totalsize : ℕ) (fname : String) :
    Except WalkFault ℕ :=
  if align ≤ 1 ∨ opt = KOption.char then Except.ok 0
  else do
    let align := min align h.maxalign
    let mask ← subUsize align 1
    if align &&& mask ≠ 0 then
      Except.error (WalkFault.raise
        (PackError.badArg 1 fname "format asks for alignment not power of 2"))
    else do
      let left ← subUsize align (totalsize &&& mask)
      Except.ok (left &&& mask)

/-- `get_details`, with its arithmetic. -/
def detailsChecked (h : Header) (totalsize : ℕ) (c : UInt8) (rest : List UInt8) (fname : String) :
    Except WalkFault (KOption × ℕ × ℕ × Header × List UInt8) := do
  let (opt, size, h, rest) ← lifted (getOption h c rest)
  let (align, h, rest) ← lifted (getAlign h opt size rest fname)
  let ntoalign ← paddingChecked h opt align totalsize fname
  Except.ok (opt, size, ntoalign, h, rest)

/-! ### `packsize` -/

/-- The options whose size depends on the value. -/
def KOption.isVariable : KOption → Bool
  | str => true
  | zstr => true
  | _ => false

/-- The loop of `lua_packsize`. -/
def packsizeLoop : ℕ → Header → List UInt8 → ℕ → Except WalkFault ℕ
  | _, _, [], total => Except.ok total
  | 0, _, _ :: _, _ => Except.error (WalkFault.raise PackError.steps)
  | fuel + 1, h, c :: rest, total => do
      let (opt, size, ntoalign, h, rest) ← detailsChecked h total c rest "packsize"
      if opt.isVariable then
        Except.error (WalkFault.raise (PackError.badArg 1 "packsize" "variable-length format"))
      else
        match (checkedAdd ntoalign size).bind (checkedAdd total) with
        | some t =>
            if t ≤ MAXSIZE then packsizeLoop fuel h rest t
            else
              Except.error (WalkFault.raise
                (PackError.badArg 1 "packsize" "format result too large"))
        | none =>
            Except.error (WalkFault.raise (PackError.badArg 1 "packsize" "format result too large"))

/-- `lua_packsize`. -/
def luaPacksize (N : NumberRules) (stack : List Value) : Except WalkFault (List Value) := do
  let fmt ← lifted (N.checkStr (stackGet stack 0) "packsize" 1)
  let total ← packsizeLoop fmt.length Header.start fmt 0
  Except.ok [Value.integer (Int64.ofNat total)]

/-! ### The reader does not overflow -/

variable {h h' : Header} {opt : KOption} {size ntoalign totalsize align : ℕ} {c : UInt8}
  {rest rest' : List UInt8} {fname : String}

theorem WalkFault.ok_bind {α β : Type} (a : α) (f : α → Except WalkFault β) :
    (Except.ok a >>= f) = f a := rfl

theorem digit_le {c : UInt8} (hc : isDigit c = true) : (c - 48).toNat ≤ 9 := by
  have hall : ∀ n : Fin 256, isDigit (UInt8.ofNat n.val) = true →
      (UInt8.ofNat n.val - 48).toNat ≤ 9 := by decide +kernel
  have h := hall ⟨c.toNat, c.toNat_lt⟩
  rw [UInt8.ofNat_toNat] at h
  exact h hc

/-- **Numerals stay below `i64::MAX`.** -/
theorem digitsChecked_eq {a : ℕ} (ha : a ≤ MAXSIZE) (fmt : List UInt8) :
    digitsChecked a fmt = Except.ok (getDigits a fmt) ∧ (getDigits a fmt).1 ≤ MAXSIZE := by
  induction fmt generalizing a with
  | nil => exact ⟨rfl, ha⟩
  | cons c cs ih =>
      have hmax : MAXSIZE = 2 ^ 63 - 1 := rfl
      rw [digitsChecked, getDigits]
      by_cases hgo : (isDigit c && decide (a ≤ (MAXSIZE - 9) / 10)) = true
      · obtain ⟨hc, hle⟩ := Bool.and_eq_true_iff.1 hgo
        have hdigit := digit_le hc
        have hle := of_decide_eq_true hle
        rw [if_pos hgo, if_pos hgo, mulUsize, if_pos (by omega), WalkFault.ok_bind, addUsize,
          if_pos (by omega), WalkFault.ok_bind]
        exact ih (by omega)
      · rw [if_neg hgo, if_neg hgo]
        exact ⟨rfl, ha⟩

/-- The maximal alignment is a size. -/
def Header.Ok (h : Header) : Prop := 1 ≤ h.maxalign ∧ h.maxalign ≤ 16

theorem Header.ok_start : Header.start.Ok := ⟨by decide, by decide⟩

theorem getOption_header (hh : h.Ok)
    (hopt : getOption h c rest = Except.ok (opt, size, h', rest')) : h'.Ok := by
  rw [getOption.eq_def] at hopt
  dsimp only at hopt
  split at hopt
  case h_15 =>
    split at hopt
    case h_1 =>
      split at hopt
      · cases hopt
        exact hh
      · cases hopt
    case h_2 => cases hopt
  case h_24 =>
    -- `!` sets the alignment to a size
    obtain ⟨⟨sz, r⟩, hnum, heq⟩ := PackError.map_ok hopt
    cases heq
    exact (getNumLimit_ok hnum).2
  case h_5 | h_6 | h_16 =>
    obtain ⟨⟨sz, r⟩, hnum, heq⟩ := PackError.map_ok hopt
    cases heq
    exact hh
  case h_25 => cases hopt
  all_goals
    cases hopt
    exact hh

theorem getAlign_header (hh : h.Ok)
    (halign : getAlign h opt size rest fname = Except.ok (align, h', rest')) : h'.Ok := by
  rcases getAlign_ok halign with ⟨-, -, rfl, -⟩ | ⟨c₁, r₁, opt₁, -, -, hnext⟩
  · exact hh
  · exact getOption_header hh hnext

theorem getDetails_header (hh : h.Ok)
    (hdetails : getDetails h totalsize c rest fname = Except.ok (opt, size, ntoalign, h', rest')) :
    h'.Ok := by
  rcases getDetails_ok hdetails with ⟨-, hopt⟩ | ⟨h₁, c₁, r₁, opt₁, size₁, -, hopt, hnext⟩
  · exact getOption_header hh hopt
  · exact getOption_header (getOption_header hh hopt) hnext

theorem paddingChecked_eq (hh : h.Ok) : paddingChecked h opt align totalsize fname =
    lifted (alignPadding h opt align totalsize fname) := by
  have hmin := hh.1
  rw [paddingChecked, alignPadding]
  by_cases hnone : align ≤ 1 ∨ opt = KOption.char
  · rw [if_pos hnone, if_pos hnone]
    rfl
  · have hmask : totalsize &&& (min align h.maxalign - 1) ≤ min align h.maxalign - 1 :=
      Nat.and_le_right
    rw [if_neg hnone, if_neg hnone]
    dsimp only
    rw [subUsize, if_pos (by omega), WalkFault.ok_bind]
    by_cases hpow : min align h.maxalign &&& (min align h.maxalign - 1) ≠ 0
    · rw [if_pos hpow, if_pos hpow]
      rfl
    · rw [if_neg hpow, if_neg hpow, subUsize, if_pos (by omega), WalkFault.ok_bind]
      rfl

theorem lifted_bind {α β : Type} (m : Except PackError α) (f : α → Except PackError β) :
    lifted (m >>= f) = lifted m >>= fun a => lifted (f a) := by
  cases m <;> rfl

/-- **The reader does not overflow.** -/
theorem detailsChecked_eq (hh : h.Ok) : detailsChecked h totalsize c rest fname =
    lifted (getDetails h totalsize c rest fname) := by
  rw [detailsChecked, getDetails]
  cases hopt : getOption h c rest with
  | error e => rfl
  | ok r =>
      obtain ⟨opt, size, h₁, r₁⟩ := r
      have hh₁ := getOption_header hh hopt
      rw [lifted_bind]
      change (lifted (getAlign h₁ opt size r₁ fname) >>= _) =
        lifted (getAlign h₁ opt size r₁ fname >>= _)
      cases halign : getAlign h₁ opt size r₁ fname with
      | error e => rfl
      | ok a =>
          obtain ⟨align, h₂, r₂⟩ := a
          change (paddingChecked h₂ opt align totalsize fname >>= _) =
            lifted (alignPadding h₂ opt align totalsize fname >>= _)
          rw [paddingChecked_eq (getAlign_header hh₁ halign), lifted_bind]
          rfl

/-! ### What `pack` writes -/

/-- **An option of fixed size** grows the buffer by its size. -/
theorem packOption_length {N : NumberRules} {little : Bool} {v : Value} {arg : ℕ}
    {out out' : List UInt8} (hfixed : opt.isVariable = false) (hsize : opt.HasSize size)
    (h : packOption N little opt size v arg out = Except.ok out') :
    out'.length = out.length + size := by
  cases opt with
  | int signed =>
      obtain ⟨n, -, hn⟩ := PackError.bind_ok h
      cases signed with
      | false =>
          rw [if_neg Bool.false_ne_true] at hn
          split at hn
          · cases hn
          · rw [(extend_ok hn).1, List.length_append, packIntBytes_length]
      | true =>
          rw [if_pos rfl] at hn
          split at hn
          · cases hn
          · rw [(extend_ok hn).1, List.length_append, packIntBytes_length]
  | float =>
      obtain ⟨x, -, hx⟩ := PackError.bind_ok h
      have hbytes : (floatBytes N x little size).length = size := by
        unfold floatBytes
        rcases hsize with rfl | rfl
        · rw [if_pos rfl, inOrder_length, littleBytes_length]
        · rw [if_neg (by decide), inOrder_length, littleBytes_length]
      rw [(extend_ok hx).1, List.length_append, hbytes]
  | str => cases hfixed
  | char =>
      obtain ⟨s, -, hs⟩ := PackError.bind_ok h
      split at hs
      · cases hs
      · rename_i hle
        obtain ⟨out₁, hout₁, hs⟩ := PackError.bind_ok hs
        split at hs
        · cases hs
        · -- the string and the zeros behind it
          obtain rfl := Except.ok.inj hs
          rw [List.length_append, List.length_replicate, (extend_ok hout₁).1, List.length_append]
          omega
  | zstr => cases hfixed
  | padding =>
      obtain rfl : size = 1 := hsize
      rw [(extend_ok h).1, List.length_append]
      rfl
  | paddAlign =>
      obtain rfl : size = 0 := hsize
      obtain rfl := Except.ok.inj h
      rfl
  | nop =>
      obtain rfl : size = 0 := hsize
      obtain rfl := Except.ok.inj h
      rfl

theorem lifted_ok {α : Type} {m : Except PackError α} {a : α} (h : lifted m = Except.ok a) :
    m = Except.ok a := by
  cases m with
  | error e => cases h
  | ok b =>
      obtain rfl := Except.ok.inj h
      rfl

/-- One option of `packsize`. -/
theorem packsizeLoop_cons {fuel total n : ℕ} (hh : h.Ok)
    (hsize : packsizeLoop (fuel + 1) h (c :: rest) total = Except.ok n) :
    ∃ opt size ntoalign h' rest',
      getDetails h total c rest "packsize" = Except.ok (opt, size, ntoalign, h', rest') ∧
        opt.isVariable = false ∧ total + (ntoalign + size) ≤ MAXSIZE ∧
        packsizeLoop fuel h' rest' (total + (ntoalign + size)) = Except.ok n := by
  obtain ⟨⟨opt, size, ntoalign, h', rest'⟩, hdetails, hsize⟩ :=
    StateExcept.except_bind_eq_ok.1 hsize
  rw [detailsChecked_eq hh] at hdetails
  refine ⟨opt, size, ntoalign, h', rest', lifted_ok hdetails, ?_⟩
  dsimp only at hsize
  split at hsize
  · cases hsize
  · rename_i hfixed
    split at hsize
    · rename_i t ht
      obtain ⟨step, hstep, ht⟩ := Option.bind_eq_some_iff.1 ht
      unfold checkedAdd at hstep ht
      split at hstep
      · obtain rfl := Option.some.inj hstep
        split at ht
        · obtain rfl := Option.some.inj ht
          split at hsize
          · exact ⟨by simpa using hfixed, by assumption, hsize⟩
          · cases hsize
        · cases ht
      · cases hstep
    · cases hsize

/-- **What `packsize` gives is what `pack` writes**: both walk through the same positions. -/
theorem packsizeLoop_spec (N : NumberRules) (stack : List Value) {fuel : ℕ} {h : Header}
    {fmt : List UInt8} {total n arg : ℕ} {out packed : List UInt8} (hh : h.Ok)
    (htotal : total = out.length) (hmax : total ≤ MAXSIZE)
    (hsize : packsizeLoop fuel h fmt total = Except.ok n)
    (hpack : packLoop N stack fuel h fmt arg out = Except.ok packed) :
    n = packed.length ∧ n ≤ MAXSIZE := by
  induction fuel generalizing h fmt total arg out with
  | zero =>
      cases fmt with
      | nil =>
          obtain rfl := Except.ok.inj hsize
          obtain rfl := Except.ok.inj hpack
          exact ⟨htotal, hmax⟩
      | cons c rest => cases hsize
  | succ fuel ih =>
      cases fmt with
      | nil =>
          obtain rfl := Except.ok.inj hsize
          obtain rfl := Except.ok.inj hpack
          exact ⟨htotal, hmax⟩
      | cons c rest =>
          obtain ⟨opt, size, ntoalign, h', rest', hdetails, hfixed, hle, hsize⟩ :=
            packsizeLoop_cons hh hsize
          have hpack' := getDetails_name hdetails "pack"
          obtain ⟨d, hd, hpack⟩ := PackError.bind_ok hpack
          rw [← htotal, hpack'] at hd
          obtain rfl := Except.ok.inj hd
          obtain ⟨out₁, hout₁, hpack⟩ := PackError.bind_ok hpack
          obtain ⟨out₂, hout₂, hpack⟩ := PackError.bind_ok hpack
          have hlen := packOption_length hfixed (getDetails_size hdetails).2 hout₂
          rw [(extend_ok hout₁).1, List.length_append, List.length_replicate] at hlen
          exact ih (getDetails_header hh hdetails) (by omega) hle hsize hpack

/-! ### The errors -/

/-- If the walk fails, then with an error that Lua sees. -/
def LuaOnly {α : Type} (r : Except WalkFault α) : Prop :=
  ∀ fault, r = Except.error fault → ∃ e, fault = WalkFault.raise e ∧ e.text.isSome = true

namespace LuaOnly

variable {α β : Type}

theorem ok (a : α) : LuaOnly (Except.ok a) := by
  intro fault h
  cases h

theorem raise {e : PackError} (h : e.text.isSome = true) :
    LuaOnly (Except.error (WalkFault.raise e) : Except WalkFault α) := by
  intro fault hfault
  cases hfault
  exact ⟨e, rfl, h⟩

theorem bind {m : Except WalkFault α} {f : α → Except WalkFault β} (hm : LuaOnly m)
    (hf : ∀ a, m = Except.ok a → LuaOnly (f a)) : LuaOnly (m >>= f) := by
  cases m with
  | error fault =>
      intro fault' h
      obtain rfl : fault = fault' := Except.error.inj h
      exact hm fault rfl
  | ok a => exact hf a rfl

theorem lifted {m : Except PackError α} (h : ∀ e, m = Except.error e → e.text.isSome = true) :
    LuaOnly (Tcvm.lifted m) := by
  cases m with
  | error e => exact raise (h e rfl)
  | ok a => exact ok a

end LuaOnly

theorem getNumLimit_text {df : ℕ} {e : PackError} (h : getNumLimit rest df = Except.error e) :
    e.text.isSome = true := by
  rw [getNumLimit] at h
  dsimp only at h
  split at h
  · cases h
  · cases h
    rfl

theorem map_error {α β : Type} {m : Except PackError α} {f : α → β} {e : PackError}
    (h : m.map f = Except.error e) : m = Except.error e := by
  cases m with
  | error e' =>
      obtain rfl := Except.error.inj h
      rfl
  | ok a => cases h

theorem getOption_text {e : PackError} (h : getOption h c rest = Except.error e) :
    e.text.isSome = true := by
  rw [getOption.eq_def] at h
  dsimp only at h
  split at h
  case h_15 =>
    split at h
    case h_1 =>
      split at h
      · cases h
      · cases h
        rfl
    case h_2 =>
      cases h
      rfl
  case h_24 | h_5 | h_6 | h_16 => exact getNumLimit_text (map_error h)
  case h_25 =>
    cases h
    rfl
  all_goals cases h

theorem getAlign_text {e : PackError} (h : getAlign h opt size rest fname = Except.error e) :
    e.text.isSome = true := by
  rw [getAlign.eq_def] at h
  split at h
  · cases rest with
    | nil =>
        cases h
        rfl
    | cons c₁ r₁ =>
        dsimp only at h
        rename_i h₀ _
        cases hopt : getOption h₀ c₁ r₁ with
        | error e' =>
            rw [hopt] at h
            obtain rfl : e' = e := Except.error.inj h
            exact getOption_text hopt
        | ok r =>
            rw [hopt] at h
            obtain ⟨opt₁, size₁, h₁, r₂⟩ := r
            change (if opt₁ = KOption.char ∨ size₁ = 0 then _ else _) = _ at h
            split at h
            · cases h
              rfl
            · cases h
  · cases h

theorem alignPadding_text {e : PackError}
    (h : alignPadding h opt align totalsize fname = Except.error e) : e.text.isSome = true := by
  rw [alignPadding] at h
  split at h
  · cases h
  · dsimp only at h
    split at h
    · cases h
      rfl
    · cases h

/-- **The reader fails with errors of Lua only.** -/
theorem detailsChecked_only (hh : h.Ok) : LuaOnly (detailsChecked h totalsize c rest fname) := by
  refine LuaOnly.bind (LuaOnly.lifted fun e => getOption_text) fun r hr => ?_
  obtain ⟨opt, size, h₁, r₁⟩ := r
  have hh₁ := getOption_header hh (lifted_ok hr)
  refine LuaOnly.bind (LuaOnly.lifted fun e => getAlign_text) fun a ha => ?_
  obtain ⟨align, h₂, r₂⟩ := a
  refine LuaOnly.bind ?_ fun n _ => LuaOnly.ok _
  rw [paddingChecked_eq (getAlign_header hh₁ (lifted_ok ha))]
  exact LuaOnly.lifted fun e => alignPadding_text

theorem checkStr_text {N : NumberRules} {v : Value} {k : ℕ} {e : PackError}
    (h : N.checkStr v fname k = Except.error e) : e.text.isSome = true := by
  rw [NumberRules.checkStr] at h
  split at h
  · cases h
  · cases h
    rfl

theorem packsizeLoop_only {fuel : ℕ} {h : Header} {fmt : List UInt8} {total : ℕ} (hh : h.Ok)
    (hfuel : fmt.length ≤ fuel) : LuaOnly (packsizeLoop fuel h fmt total) := by
  induction fuel generalizing h fmt total with
  | zero =>
      obtain rfl := List.length_eq_zero_iff.1 (Nat.le_zero.1 hfuel)
      exact LuaOnly.ok total
  | succ fuel ih =>
      cases fmt with
      | nil => exact LuaOnly.ok total
      | cons c rest =>
          refine LuaOnly.bind (detailsChecked_only hh) fun d hd => ?_
          obtain ⟨opt, size, ntoalign, h', rest'⟩ := d
          rw [detailsChecked_eq hh] at hd
          have hlen := (getDetails_size (lifted_ok hd)).1
          have hh' := getDetails_header hh (lifted_ok hd)
          rw [List.length_cons] at hfuel
          dsimp only
          split
          · exact LuaOnly.raise rfl
          · split
            · split
              · exact ih hh' (by omega)
              · exact LuaOnly.raise rfl
            · exact LuaOnly.raise rfl

/-- **`packsize` does not overflow.** -/
theorem luaPacksize_only (N : NumberRules) (stack : List Value) :
    LuaOnly (luaPacksize N stack) := by
  refine LuaOnly.bind (LuaOnly.lifted fun e => checkStr_text) fun fmt _ => ?_
  exact LuaOnly.bind (packsizeLoop_only Header.ok_start (Nat.le_refl _)) fun n _ => LuaOnly.ok _

end Tcvm
