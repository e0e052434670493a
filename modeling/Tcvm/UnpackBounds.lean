/-
`string.unpack` reads inside its data.

The walk over the data once more, now with every sum and difference checked and every read of a
byte or of a slice checked against the end.  As long as the position is inside the data, each option
either finds too few bytes and raises, or reads inside them and leaves a position inside them; so
the checks change nothing.

* `readFrom`, `readSlice`, `readByte` — reads that may go behind the end;
* `unpackIntChecked`, `unpackOptionChecked`, `unpackLoopChecked`, `luaUnpackChecked` — the walk with
  its checks;
* `unpackOptionChecked_eq` — **one option**;
* `luaUnpackChecked_eq` — **the checks change nothing**;
* `packsize_predicts_pack` — **sizes agree, and nothing is read outside**.
-/

import Tcvm.PackSize

namespace Tcvm

open WalkFault (ok_bind)

/-! ### Checked reads -/

/-- `data[pos..]`. -/
def readFrom (data : List UInt8) (pos : ℕ) : Except WalkFault (List UInt8) :=
  if pos ≤ data.length then Except.ok (data.drop pos) else Except.error WalkFault.outside

/-- `data[start..stop]`. -/
def readSlice (data : List UInt8) (start stop : ℕ) : Except WalkFault (List UInt8) :=
  if start ≤ stop ∧ stop ≤ data.length then Except.ok ((data.drop start).take (stop - start))
  else Except.error WalkFault.outside

/-- `bytes[place]`. -/
def readAt (bytes : List UInt8) (place : ℕ) : Except WalkFault UInt8 :=
  match bytes[place]? with
  | some b => Except.ok b
  | none => Except.error WalkFault.outside

/-- `bytes[if little { i } else { size - 1 - i }]`. -/
def readByte (bytes : List UInt8) (little : Bool) (size i : ℕ) : Except WalkFault UInt8 :=
  if little then readAt bytes i
  else do
    let last ← subUsize size 1
    let place ← subUsize last i
    readAt bytes place

/-- The result of an `i64` operation. -/
def checkedI64 (z : ℤ) : Except WalkFault ℤ :=
  if -2 ^ 63 ≤ z ∧ z < 2 ^ 63 then Except.ok z else Except.error WalkFault.overflow

/-! ### The walk -/

/-- The bytes of a word, the most significant one first. -/
def wordChecked (bytes : List UInt8) (little : Bool) (size limit : ℕ) : Except WalkFault UInt64 :=
  (List.range limit).reverse.foldlM (fun res i => do
    let b ← readByte bytes little size i
    Except.ok (res <<< 8 ||| b.toUInt64)) 0

/-- The bytes that must agree with the sign. -/
def fillChecked (bytes : List UInt8) (little : Bool) (size : ℕ) (fill : UInt8) :
    List ℕ → Except WalkFault Unit
  | [] => Except.ok ()
  | i :: is => do
      let b ← readByte bytes little size i
      if b ≠ fill then
        Except.error (WalkFault.raise (PackError.message
          (toString size ++ "-byte integer does not fit into Lua Integer")))
      else fillChecked bytes little size fill is

/-- `unpack_int`, with its checks. -/
def unpackIntChecked (bytes : List UInt8) (little : Bool) (size : ℕ) (signed : Bool) :
    Except WalkFault Int64 := do
  let limit := min size SZINT
  let res ← wordChecked bytes little size limit
  if size < SZINT then
    if signed then do
      let bits ← mulUsize size 8
      let shift ← subUsize bits 1
      Except.ok (signExtend res (1 <<< UInt64.ofNat shift)).toInt64
    else Except.ok res.toInt64
  else do
    let fill : UInt8 := if !signed || 0 ≤ res.toInt64 then 0 else 0xff
    fillChecked bytes little size fill (List.range' limit (size - limit))
    Except.ok res.toInt64

/-- An option at a position, with its checks. -/
def unpackOptionChecked (N : NumberRules) (little : Bool) (opt : KOption) (size : ℕ)
    (data : List UInt8) (pos : ℕ) : Except WalkFault (List Value × ℕ) :=
  match opt with
  | KOption.int signed => do
      let bytes ← readFrom data pos
      let n ← unpackIntChecked bytes little size signed
      let next ← addUsize pos size
      Except.ok ([Value.integer n], next)
  | KOption.float =>
      if size = 4 then do
        let stop ← addUsize pos 4
        let b ← readSlice data pos stop
        let next ← addUsize pos size
        Except.ok ([Value.float (N.promote (joinBytes (inOrder little b)).toUInt32)], next)
      else do
        let stop ← addUsize pos 8
        let b ← readSlice data pos stop
        let next ← addUsize pos size
        Except.ok ([Value.float (joinBytes (inOrder little b))], next)
  | KOption.char => do
      let stop ← addUsize pos size
      let b ← readSlice data pos stop
      let next ← addUsize pos size
      Except.ok ([Value.string b], next)
  | KOption.str => do
      let bytes ← readFrom data pos
      let n ← unpackIntChecked bytes little size false
      let len := n.toUInt64.toNat
      let left ← subUsize data.length pos
      let left ← subUsize left size
      if left < len then
        Except.error (WalkFault.raise (PackError.badArg 2 "unpack" "data string too short"))
      else do
        let start ← addUsize pos size
        let stop ← addUsize start len
        let body ← readSlice data start stop
        let next ← addUsize pos len
        let next ← addUsize next size
        Except.ok ([Value.string body], next)
  | KOption.zstr => do
      let bytes ← readFrom data pos
      match bytes.findIdx? (· == 0) with
      | none =>
          Except.error (WalkFault.raise
            (PackError.badArg 2 "unpack" "unfinished string for format 'z'"))
      | some len => do
          let stop ← addUsize pos len
          let body ← readSlice data pos stop
          let used ← addUsize len 1
          let next ← addUsize pos used
          let next ← addUsize next size
          Except.ok ([Value.string body], next)
  | _ => do
      let next ← addUsize pos size
      Except.ok ([], next)

/-- The padding and the fixed part of an option must be there; the position behind the padding. -/
def roomChecked (len pos ntoalign size : ℕ) : Except WalkFault ℕ :=
  match checkedAdd ntoalign size with
  | none => Except.error (WalkFault.raise (PackError.badArg 2 "unpack" "data string too short"))
  | some need => do
      let left ← subUsize len pos
      if left < need then
        Except.error (WalkFault.raise (PackError.badArg 2 "unpack" "data string too short"))
      else addUsize pos ntoalign

/-- The results, with the next position behind the values. -/
def unpackResults (pos : ℕ) (out : List Value) : Except WalkFault (List Value) := do
  let _ ← checkedI64 (pos + 1)
  Except.ok (out ++ [Value.integer (Int64.ofNat (pos + 1))])

/-- The loop of `lua_unpack`, with its checks. -/
def unpackLoopChecked (N : NumberRules) (data : List UInt8) :
    ℕ → Header → List UInt8 → ℕ → List Value → Except WalkFault (List Value)
  | _, _, [], pos, out => unpackResults pos out
  | 0, _, _ :: _, _, _ => Except.error (WalkFault.raise PackError.steps)
  | fuel + 1, h, c :: rest, pos, out => do
      let (opt, size, ntoalign, h, rest) ← detailsChecked h pos c rest "unpack"
      let pos ← roomChecked data.length pos ntoalign size
      let (value, pos) ← unpackOptionChecked N h.little opt size data pos
      unpackLoopChecked N data fuel h rest pos (out ++ value)

/-- `posrelat`, with its checks. -/
def posrelatChecked (pos : ℤ) (len : ℕ) : Except WalkFault ℤ :=
  if 0 ≤ pos then Except.ok pos
  else if (len : ℤ) < -pos then Except.ok 0
  else do
    let sum ← checkedI64 (len + pos)
    checkedI64 (sum + 1)

/-- `lua_unpack`, with its checks. -/
def luaUnpackChecked (N : NumberRules) (stack : List Value) : Except WalkFault (List Value) := do
  let fmt ← lifted (N.checkStr (stackGet stack 0) "unpack" 1)
  let data ← lifted (N.checkStr (stackGet stack 1) "unpack" 2)
  let init ← lifted (unpackInit N (stackGet stack 2))
  let p ← posrelatChecked init.toInt data.length
  let past ← checkedI64 (data.length + 1)
  if past < p then
    Except.error (WalkFault.raise (PackError.badArg 3 "unpack" "initial position out of string"))
  else do
    let first ← checkedI64 (max p 1 - 1)
    unpackLoopChecked N data fmt.length Header.start fmt first.toNat []

/-! ### Integers -/

variable {bytes data : List UInt8} {little signed : Bool} {size pos : ℕ}

theorem readAt_eq {place : ℕ} (h : place < bytes.length) :
    readAt bytes place = Except.ok (bytes.getD place 0) := by
  rw [readAt, List.getElem?_eq_getElem h, List.getD_eq_getElem _ _ h]

theorem readByte_eq {i : ℕ} (hi : i < size) (hsize : size ≤ bytes.length) :
    readByte bytes little size i = Except.ok (byteAt bytes little size i) := by
  unfold readByte byteAt
  cases little with
  | true => rw [if_pos rfl, if_pos rfl, readAt_eq (by omega)]
  | false =>
      rw [if_neg Bool.false_ne_true, if_neg Bool.false_ne_true, subUsize, if_pos (by omega),
        ok_bind, subUsize, if_pos (by omega), ok_bind, readAt_eq (by omega)]

/-- The word that is put together from the most significant byte on. -/
theorem wordChecked_eq (hsize : size ≤ bytes.length) {limit : ℕ} (hlimit : limit ≤ size) :
    wordChecked bytes little size limit =
      Except.ok (joinBytes ((List.range limit).map (byteAt bytes little size))) := by
  have hfold : ∀ l : List ℕ, (∀ i ∈ l, i < size) →
      l.reverse.foldlM (fun res i => do
          let b ← readByte bytes little size i
          Except.ok (res <<< 8 ||| b.toUInt64)) (0 : UInt64) =
        Except.ok (joinBytes (l.map (byteAt bytes little size))) := by
    intro l
    induction l with
    | nil => exact fun _ => rfl
    | cons i l ih =>
        intro hl
        rw [List.reverse_cons, List.foldlM_append,
          ih fun k hk => hl k (List.mem_cons_of_mem i hk), ok_bind, List.foldlM_cons,
          readByte_eq (hl i List.mem_cons_self) hsize]
        rfl
  exact hfold _ fun i hi => (List.mem_range.1 hi).trans_le hlimit

/-- The bytes behind the word, up to the first one that does not agree. -/
theorem fillChecked_eq (hsize : size ≤ bytes.length) {fill : UInt8} {l : List ℕ}
    (hl : ∀ i ∈ l, i < size) :
    fillChecked bytes little size fill l =
      if l.all fun i => byteAt bytes little size i == fill then Except.ok ()
      else Except.error (WalkFault.raise (PackError.message
        (toString size ++ "-byte integer does not fit into Lua Integer"))) := by
  induction l with
  | nil => rfl
  | cons i l ih =>
      rw [fillChecked, readByte_eq (hl i List.mem_cons_self) hsize, ok_bind, List.all_cons]
      by_cases hfill : byteAt bytes little size i = fill
      · rw [if_neg (not_not_intro hfill), ih fun k hk => hl k (List.mem_cons_of_mem i hk), hfill,
          beq_self_eq_true, Bool.true_and]
      · rw [if_pos hfill, beq_false_of_ne hfill, Bool.false_and, if_neg Bool.false_ne_true]

/-- **An integer is read inside its bytes.** -/
theorem unpackIntChecked_eq (hmin : 1 ≤ size) (hmax : size ≤ 16) (hsize : size ≤ bytes.length) :
    unpackIntChecked bytes little size signed = lifted (unpackInt bytes little size signed) := by
  have h8 : SZINT = 8 := rfl
  rw [unpackIntChecked, unpackInt]
  dsimp only
  rw [wordChecked_eq hsize (Nat.min_le_left _ _), ok_bind]
  generalize joinBytes ((List.range (min size SZINT)).map (byteAt bytes little size)) = res
  by_cases hshort : size < SZINT
  · rw [if_pos hshort, if_pos hshort]
    cases signed with
    | false => rfl
    | true =>
        rw [if_pos rfl, if_pos rfl, mulUsize, if_pos (by omega), ok_bind, subUsize,
          if_pos (by omega), ok_bind]
        rfl
  · rw [if_neg hshort, if_neg hshort]
    generalize (if (!signed || decide (0 ≤ res.toInt64)) = true then 0 else 0xff : UInt8) = fill
    have hall : ((List.range size).all fun i =>
        decide (i < min size SZINT) || byteAt bytes little size i == fill) =
          (List.range' (min size SZINT) (size - min size SZINT)).all fun i =>
            byteAt bytes little size i == fill := by
      rw [Bool.eq_iff_iff, List.all_eq_true, List.all_eq_true]
      constructor
      · intro h i hi
        obtain ⟨hlo, hhi⟩ := List.mem_range'_1.1 hi
        have hi' := h i (List.mem_range.2 (by omega))
        rwa [decide_eq_false (by omega), Bool.false_or] at hi'
      · intro h i hi
        by_cases hlow : i < min size SZINT
        · rw [decide_eq_true hlow, Bool.true_or]
        · have hlt := List.mem_range.1 hi
          rw [h i (List.mem_range'_1.2 ⟨by omega, by omega⟩), Bool.or_true]
    rw [fillChecked_eq hsize fun i hi => by have := List.mem_range'_1.1 hi; omega, hall]
    split
    · rfl
    · rfl

/-! ### One option -/

theorem inOrder_inOrder (bs : List UInt8) : inOrder little (inOrder little bs) = bs := by
  cases little <;> simp [inOrder]

/-- The bytes of a slice are those at its start. -/
theorem joinBytes_slice {k : ℕ} (hk : pos + k ≤ data.length) :
    joinBytes (inOrder little ((data.drop pos).take k)) =
      joinBytes ((List.range k).map (byteAt (data.drop pos) little k)) := by
  have hlen : (inOrder little ((data.drop pos).take k)).length = k := by
    rw [inOrder_length, List.length_take, List.length_drop]
    omega
  have hmap := map_byteAt_inOrder (inOrder little ((data.drop pos).take k)) hlen.ge little
    ((data.drop pos).drop k)
  rw [inOrder_inOrder, List.take_append_drop, hlen, List.take_of_length_le hlen.le] at hmap
  rw [hmap]

theorem lifted_bind_ok {α β : Type} {m : Except PackError α} {f : α → Except WalkFault β}
    {g : α → Except PackError β} (h : ∀ a, m = Except.ok a → f a = lifted (g a)) :
    (lifted m >>= f) = lifted (m >>= g) := by
  cases m with
  | error e => rfl
  | ok a => exact h a rfl

/-- **One option** reads inside the data, where its size is there. -/
theorem unpackOptionChecked_eq (N : NumberRules) {opt : KOption} (hsize : opt.HasSize size)
    (hroom : pos + size ≤ data.length) (hlen : data.length < 2 ^ 63) :
    unpackOptionChecked N little opt size data pos =
      lifted (unpackOption N little opt size data pos) := by
  have hnext : addUsize pos size = Except.ok (pos + size) := if_pos (by omega)
  have hfrom : readFrom data pos = Except.ok (data.drop pos) := if_pos (by omega)
  have hdrop : size ≤ (data.drop pos).length := by
    rw [List.length_drop]
    omega
  have hslice : ∀ k, pos + k ≤ data.length →
      readSlice data pos (pos + k) = Except.ok ((data.drop pos).take k) := by
    intro k hk
    rw [readSlice, if_pos ⟨by omega, hk⟩, Nat.add_sub_cancel_left]
  cases opt with
  | int signed =>
      rw [unpackOptionChecked, unpackOption]
      rw [hfrom, ok_bind, unpackIntChecked_eq hsize.1 hsize.2 hdrop]
      refine lifted_bind_ok fun n _ => ?_
      rw [hnext, ok_bind]
      rfl
  | float =>
      rw [unpackOptionChecked, unpackOption]
      rcases hsize with rfl | rfl
      · rw [if_pos rfl, if_pos rfl, hnext, ok_bind, hslice 4 hroom, ok_bind, ok_bind,
          joinBytes_slice hroom]
        rfl
      · rw [if_neg (by decide), if_neg (by decide), hnext, ok_bind, hslice 8 hroom, ok_bind,
          ok_bind, joinBytes_slice hroom]
        rfl
  | char =>
      rw [unpackOptionChecked, unpackOption, hnext, ok_bind, hslice size hroom, ok_bind, ok_bind]
      rfl
  | str =>
      rw [unpackOptionChecked, unpackOption, hfrom, ok_bind,
        unpackIntChecked_eq hsize.1 hsize.2 hdrop]
      refine lifted_bind_ok fun n _ => ?_
      dsimp only
      generalize n.toUInt64.toNat = len
      rw [subUsize, if_pos (by omega), ok_bind, subUsize, if_pos (by omega), ok_bind]
      by_cases hfew : data.length - pos - size < len
      · rw [if_pos hfew, if_pos hfew]
        rfl
      · have hbody : readSlice data (pos + size) (pos + size + len) =
            Except.ok ((data.drop (pos + size)).take len) := by
          rw [readSlice, if_pos ⟨by omega, by omega⟩, Nat.add_sub_cancel_left]
        rw [if_neg hfew, if_neg hfew, hnext, ok_bind, addUsize, if_pos (by omega), ok_bind, hbody,
          ok_bind, addUsize, if_pos (by omega), ok_bind, addUsize, if_pos (by omega), ok_bind]
        rfl
  | zstr =>
      obtain rfl : size = 0 := hsize
      rw [unpackOptionChecked, unpackOption, hfrom, ok_bind]
      cases hfind : (data.drop pos).findIdx? (· == 0) with
      | none => rfl
      | some len =>
          -- the zero is inside the data
          have hin := (List.findIdx?_eq_some_iff_findIdx_eq.1 hfind).1
          rw [List.length_drop] at hin
          dsimp only
          rw [addUsize, if_pos (by omega), ok_bind, hslice len (by omega), ok_bind, addUsize,
            if_pos (by omega), ok_bind, addUsize, if_pos (by omega), ok_bind, addUsize,
            if_pos (by omega), ok_bind]
          rfl
  | padding | paddAlign | nop =>
      change (addUsize pos size >>= fun next => Except.ok ([], next)) = _
      rw [hnext]
      rfl

/-- An option leaves a position inside the data. -/
theorem unpackOption_pos (N : NumberRules) {opt : KOption} {values : List Value} {next : ℕ}
    (hsize : opt.HasSize size) (hroom : pos + size ≤ data.length)
    (h : unpackOption N little opt size data pos = Except.ok (values, next)) :
    next ≤ data.length := by
  cases opt with
  | int signed =>
      obtain ⟨n, -, hn⟩ := PackError.bind_ok h
      cases hn
      exact hroom
  | float =>
      rw [unpackOption] at h
      split at h
      · cases h
        exact hroom
      · cases h
        exact hroom
  | str =>
      obtain ⟨n, -, hn⟩ := PackError.bind_ok h
      dsimp only at hn
      split at hn
      · cases hn
      · cases hn
        omega
  | zstr =>
      obtain rfl : size = 0 := hsize
      rw [unpackOption] at h
      split at h
      · cases h
      · rename_i len hfind
        have hin := (List.findIdx?_eq_some_iff_findIdx_eq.1 hfind).1
        rw [List.length_drop] at hin
        cases h
        omega
  | char | padding | paddAlign | nop =>
      cases h
      exact hroom

/-! ### The loop -/

theorem unpackResults_eq {out : List Value} (hpos : pos ≤ data.length)
    (hlen : data.length < 2 ^ 63 - 1) :
    unpackResults pos out = Except.ok (out ++ [Value.integer (Int64.ofNat (pos + 1))]) := by
  have hnext : checkedI64 (pos + 1) = Except.ok ((pos : ℤ) + 1) := if_pos ⟨by omega, by omega⟩
  rw [unpackResults, hnext, ok_bind]

theorem roomChecked_eq {ntoalign : ℕ} (hpos : pos ≤ data.length) (hlen : data.length < 2 ^ 63) :
    roomChecked data.length pos ntoalign size =
      if data.length - pos < ntoalign + size then
        Except.error (WalkFault.raise (PackError.badArg 2 "unpack" "data string too short"))
      else Except.ok (pos + ntoalign) := by
  rw [roomChecked]
  by_cases hfew : data.length - pos < ntoalign + size
  · rw [if_pos hfew]
    unfold checkedAdd
    split
    · rfl
    · rename_i need hneed
      split at hneed
      · obtain rfl := Option.some.inj hneed
        rw [subUsize, if_pos hpos, ok_bind, if_pos hfew]
      · cases hneed
  · rw [if_neg hfew, checkedAdd, if_pos (by omega)]
    dsimp only
    rw [subUsize, if_pos hpos, ok_bind, if_neg hfew, addUsize, if_pos (by omega)]

/-- One option of the loop. -/
theorem unpackLoopChecked_cons (N : NumberRules) (fuel : ℕ) (h : Header) (c : UInt8)
    (rest : List UInt8) (out : List Value) :
    unpackLoopChecked N data (fuel + 1) h (c :: rest) pos out =
      (detailsChecked h pos c rest "unpack" >>= fun d =>
        roomChecked data.length pos d.2.2.1 d.2.1 >>= fun pos =>
          unpackOptionChecked N d.2.2.2.1.little d.1 d.2.1 data pos >>= fun r =>
            unpackLoopChecked N data fuel d.2.2.2.1 d.2.2.2.2 r.2 (out ++ r.1)) := rfl

/-- **The checks of the loop change nothing.** -/
theorem unpackLoopChecked_eq (N : NumberRules) {fuel : ℕ} {h : Header} {fmt : List UInt8}
    {out : List Value} (hh : h.Ok) (hpos : pos ≤ data.length) (hlen : data.length < 2 ^ 63 - 1) :
    unpackLoopChecked N data fuel h fmt pos out =
      lifted (unpackLoop N data fuel h fmt pos out) := by
  induction fuel generalizing h fmt pos out with
  | zero =>
      cases fmt with
      | nil => exact unpackResults_eq hpos hlen
      | cons c rest => rfl
  | succ fuel ih =>
      cases fmt with
      | nil => exact unpackResults_eq hpos hlen
      | cons c rest =>
          rw [unpackLoopChecked_cons, unpackLoop, detailsChecked_eq hh]
          refine lifted_bind_ok fun d hd => ?_
          obtain ⟨opt, size, ntoalign, h', rest'⟩ := d
          have hh' := getDetails_header hh hd
          have hsize := (getDetails_size hd).2
          dsimp only
          rw [roomChecked_eq hpos (by omega)]
          by_cases hfew : data.length - pos < ntoalign + size
          · rw [if_pos hfew, if_pos hfew]
            rfl
          · rw [if_neg hfew, if_neg hfew, ok_bind,
              unpackOptionChecked_eq N hsize (by omega) (by omega)]
            refine lifted_bind_ok fun r hr => ?_
            obtain ⟨values, next⟩ := r
            exact ih hh' (unpackOption_pos N hsize (by omega) hr)

theorem posrelatChecked_eq {p : ℤ} {len : ℕ} (hp : -2 ^ 63 ≤ p) (hlen : len < 2 ^ 63) :
    posrelatChecked p len = Except.ok (posrelat p len) := by
  unfold posrelatChecked posrelat
  split
  · rfl
  · split
    · rfl
    · rw [checkedI64, if_pos ⟨by omega, by omega⟩, ok_bind, checkedI64,
        if_pos ⟨by omega, by omega⟩]

/-- **The checks change nothing**: `unpack` does not overflow and reads inside its data. -/
theorem luaUnpackChecked_eq (N : NumberRules) (stack : List Value)
    (hlen : ∀ data, N.checkStr (stackGet stack 1) "unpack" 2 = Except.ok data →
      data.length < 2 ^ 63 - 1) :
    luaUnpackChecked N stack = lifted (luaUnpack N stack) := by
  rw [luaUnpackChecked, luaUnpack]
  refine lifted_bind_ok fun fmt _ => lifted_bind_ok fun data hdata => ?_
  refine lifted_bind_ok fun init _ => ?_
  have hlen := hlen data hdata
  have hmin := init.le_toInt
  have hmax := init.toInt_lt
  rw [posrelatChecked_eq hmin (by omega), ok_bind, checkedI64, if_pos ⟨by omega, by omega⟩,
    ok_bind]
  dsimp only
  by_cases hpast : (data.length : ℤ) + 1 < posrelat init.toInt data.length
  · rw [if_pos hpast, if_pos hpast]
    rfl
  · rw [if_neg hpast, if_neg hpast, checkedI64, if_pos ⟨by omega, by omega⟩, ok_bind]
    exact unpackLoopChecked_eq N Header.ok_start (by omega) hlen

/-! ### The errors of `unpack` -/

theorem unpackInt_text {e : PackError} (h : unpackInt bytes little size signed = Except.error e) :
    e.text.isSome = true := by
  rw [unpackInt] at h
  dsimp only at h
  generalize joinBytes ((List.range (min size SZINT)).map (byteAt bytes little size)) = res at h
  split at h
  · cases h
  · generalize (List.range size).all _ = fits at h
    cases fits with
    | false =>
        obtain rfl := Except.error.inj h
        rfl
    | true => cases h

theorem bind_error {α β : Type} {m : Except PackError α} {f : α → Except PackError β}
    {e : PackError} (h : (m >>= f) = Except.error e) :
    m = Except.error e ∨ ∃ a, m = Except.ok a ∧ f a = Except.error e := by
  cases m with
  | error e' =>
      obtain rfl : e' = e := Except.error.inj h
      exact Or.inl rfl
  | ok a => exact Or.inr ⟨a, rfl, h⟩

theorem unpackOption_text {N : NumberRules} {opt : KOption} {e : PackError}
    (h : unpackOption N little opt size data pos = Except.error e) : e.text.isSome = true := by
  cases opt with
  | int signed =>
      rcases bind_error h with h | ⟨n, -, hn⟩
      · exact unpackInt_text h
      · cases hn
  | float =>
      rw [unpackOption] at h
      split at h
      · cases h
      · cases h
  | str =>
      rcases bind_error h with h | ⟨n, -, hn⟩
      · exact unpackInt_text h
      · dsimp only at hn
        split at hn
        · cases hn
          rfl
        · cases hn
  | zstr =>
      rw [unpackOption] at h
      split at h
      · cases h
        rfl
      · cases h
  | char | padding | paddAlign | nop => cases h

theorem getDetails_text {h : Header} {totalsize : ℕ} {c : UInt8} {rest : List UInt8}
    {fname : String} {e : PackError} (herr : getDetails h totalsize c rest fname = Except.error e) :
    e.text.isSome = true := by
  rcases bind_error herr with herr | ⟨⟨opt, size, h₁, r₁⟩, -, herr⟩
  · exact getOption_text herr
  · rcases bind_error herr with herr | ⟨⟨align, h₂, r₂⟩, -, herr⟩
    · exact getAlign_text herr
    · rcases bind_error herr with herr | ⟨n, -, herr⟩
      · exact alignPadding_text herr
      · cases herr

theorem unpackLoop_text {N : NumberRules} {fuel : ℕ} {h : Header} {fmt : List UInt8}
    {out : List Value} {e : PackError} (hfuel : fmt.length ≤ fuel)
    (herr : unpackLoop N data fuel h fmt pos out = Except.error e) : e.text.isSome = true := by
  induction fuel generalizing h fmt pos out with
  | zero =>
      obtain rfl := List.length_eq_zero_iff.1 (Nat.le_zero.1 hfuel)
      cases herr
  | succ fuel ih =>
      cases fmt with
      | nil => cases herr
      | cons c rest =>
          rw [List.length_cons] at hfuel
          rcases bind_error herr with herr | ⟨⟨opt, size, ntoalign, h', rest'⟩, hd, herr⟩
          · exact getDetails_text herr
          · have hrest := (getDetails_size hd).1
            dsimp only at herr
            split at herr
            · cases herr
              rfl
            · rcases bind_error herr with herr | ⟨⟨values, next⟩, -, herr⟩
              · exact unpackOption_text herr
              · exact ih (by omega) herr

theorem checkInteger_text {N : NumberRules} {v : Value} {fname : String} {k : ℕ} {e : PackError}
    (h : N.checkInteger v fname k = Except.error e) : e.text.isSome = true := by
  rw [NumberRules.checkInteger.eq_def] at h
  split at h
  · cases h
  · cases h
    rfl
  · cases h
    rfl

theorem luaUnpack_text {N : NumberRules} {stack : List Value} {e : PackError}
    (herr : luaUnpack N stack = Except.error e) : e.text.isSome = true := by
  rcases bind_error herr with herr | ⟨fmt, -, herr⟩
  · exact checkStr_text herr
  · rcases bind_error herr with herr | ⟨data, -, herr⟩
    · exact checkStr_text herr
    · rcases bind_error herr with herr | ⟨init, -, herr⟩
      · unfold unpackInit at herr
        split at herr
        · cases herr
        · exact checkInteger_text herr
      · dsimp only at herr
        split at herr
        · cases herr
          rfl
        · exact unpackLoop_text (Nat.le_refl _) herr

/-! ### The library -/

/-- **`packsize` predicts `pack`, and `unpack` reads inside its data**: where `packsize` accepts a
format and `pack` succeeds, the one gives the length of the other's result; numerals stay below
`i64::MAX`, and neither `packsize` nor `unpack` overflows or reads behind the end. -/
theorem packsize_predicts_pack (N : NumberRules) :
    (∀ (fmt : Value) (args : List Value) (n : Int64) (packed : LuaString),
      luaPacksize N [fmt] = Except.ok [Value.integer n] →
        luaPack N (fmt :: args) = Except.ok [Value.string packed] → packed.length = n.toInt) ∧
    (∀ fmt, digitsChecked 0 fmt = Except.ok (getDigits 0 fmt)) ∧
    (∀ stack, LuaOnly (luaPacksize N stack)) ∧
    ∀ stack, (∀ data, N.checkStr (stackGet stack 1) "unpack" 2 = Except.ok data →
        data.length < 2 ^ 63 - 1) → LuaOnly (luaUnpackChecked N stack) := by
  refine ⟨fun fmt args n packed hsize hpack => ?_, fun fmt => ?_, fun stack => ?_,
    fun stack hlen => ?_⟩
  · obtain ⟨f, hf, hsize⟩ := StateExcept.except_bind_eq_ok.1 hsize
    obtain ⟨total, htotal, hn⟩ := StateExcept.except_bind_eq_ok.1 hsize
    obtain ⟨f', hf', hpack⟩ := PackError.bind_ok hpack
    obtain ⟨out, hout, hpacked⟩ := PackError.bind_ok hpack
    obtain rfl : f = f' :=
      Option.some.inj ((checkStr_ok (lifted_ok hf)).symm.trans (checkStr_ok hf'))
    obtain ⟨hlen, hmax⟩ := packsizeLoop_spec N (fmt :: args) Header.ok_start rfl (Nat.zero_le _)
      htotal hout
    cases hn
    cases hpacked
    have h63 : MAXSIZE = 2 ^ 63 - 1 := rfl
    rw [Int64.toInt_ofNat_of_lt (by omega), hlen]
  · exact (digitsChecked_eq (Nat.zero_le _) fmt).1
  · exact luaPacksize_only N stack
  · rw [luaUnpackChecked_eq N stack hlen]
    exact LuaOnly.lifted fun e => luaUnpack_text

/-- A byte, its padding and an integer of four bytes. -/
theorem packsize_predicts_pack_aligned :
    luaPacksize noTexts [Value.string (Tcvm.bytes "!4bi4")] = Except.ok [Value.integer 8] ∧
      (([1, 0, 0, 0, 2, 0, 0, 0] : LuaString).length : ℤ) = Int64.toInt 8 :=
  ⟨by decide, (packsize_predicts_pack noTexts).1 (Value.string (Tcvm.bytes "!4bi4"))
    [Value.integer 1, Value.integer 2] 8 [1, 0, 0, 0, 2, 0, 0, 0] (by decide) (by decide)⟩

end Tcvm
