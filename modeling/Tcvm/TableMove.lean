/-
`table.move`.

The range is copied upwards, unless the destination starts inside the range of the same table: then
it is copied downwards, so that no element is read after it has been written over.  The guards keep
every index inside an `i64`.  They do not keep it inside the array part: `raw_set` under an index
grows the array to that index, and there are indices to which no vector grows.

* `luaMove` — the library function, with the heap that it leaves also where it fails;
* `Heap.Moved` — the elements are copied and nothing else changes;
* `moveCount_spec` — the guards, and that their own arithmetic never overflows;
* `moveAll_copies` — the loops are copies one after another, in the heap's places;
* `table_move_iff` — **the calls that move the range or are rejected**.
-/

import Tcvm.RangeCopy
import Tcvm.TableList

namespace Tcvm

open RangeCopy StateExcept

/-! ### The library function -/

/-- What ends a call of `table.move`: an error for Lua, an overflow of `i64`, or a panic. -/
inductive MoveFault
  | raise (e : PackError)
  | overflow
  | panic
  deriving DecidableEq

def MoveFault.ofList : ListFault → MoveFault
  | ListFault.raise e => MoveFault.raise e
  | ListFault.panic => MoveFault.panic

/-- The result of an `i64` operation. -/
def i64 (z : ℤ) : Except MoveFault ℤ :=
  if -2 ^ 63 ≤ z ∧ z < 2 ^ 63 then Except.ok z else Except.error MoveFault.overflow

/-- The key of an index. -/
def intKey (z : ℤ) : Value := Value.integer (Int64.ofInt z)

/-- The arguments of a call. -/
structure MoveArgs where
  a1 : TableId
  f : Int64
  e : Int64
  t : Int64
  a2 : TableId

/-- The argument checks, in the order of the source. -/
def moveArgs (N : NumberRules) (args : List Value) : Except MoveFault MoveArgs := do
  let a1 ← (checkTable (args.getD 0 Value.nil) "move").mapError MoveFault.ofList
  let f ← (N.checkInteger (args.getD 1 Value.nil) "move" 2).mapError MoveFault.raise
  let e ← (N.checkInteger (args.getD 2 Value.nil) "move" 3).mapError MoveFault.raise
  let t ← (N.checkInteger (args.getD 3 Value.nil) "move" 4).mapError MoveFault.raise
  let a2Arg := args.getD 4 Value.nil
  let a2 ← if a2Arg.isNil then Except.ok a1
    else (checkTable a2Arg "move").mapError MoveFault.ofList
  return { a1 := a1, f := f, e := e, t := t, a2 := a2 }

/-- `i64::MAX`. -/
def i64Max : ℤ := 2 ^ 63 - 1

/-- The first guard: `i64::MAX + f` is computed only where `f` is not positive. -/
def countFits (f e : ℤ) : Except MoveFault Bool :=
  if 0 < f then Except.ok true else (fun bound => decide (e < bound)) <$> i64 (i64Max + f)

/-- The two guards of a range with elements, and the number of elements. -/
def moveCount (f e t : ℤ) : Except MoveFault ℤ := do
  let few ← countFits f e
  if !few then
    throw (MoveFault.raise (PackError.badArg 3 "move" "too many elements to move"))
  let d ← i64 (e - f)
  let n ← i64 (d + 1)
  let last ← i64 (i64Max - n)
  let bound ← i64 (last + 1)
  if bound < t then
    throw (MoveFault.raise (PackError.badArg 4 "move" "destination wrap around"))
  return n

/-- The body of both loops. -/
def moveItem (a1 a2 : TableId) (f t : ℤ) (h : Heap) (i : ℕ) : Except MoveFault Heap := do
  let src ← i64 (f + i)
  let v := h.rawGet a1 (intKey src)
  let dst ← i64 (t + i)
  match h.store? a2 (intKey dst) v with
  | some h' => return h'
  | none => throw MoveFault.panic

/-- The elements are copied in the order of the list. -/
def moveAll (a1 a2 : TableId) (f t : ℤ) : List ℕ → Heap → Except MoveFault Unit × Heap
  | [], h => (Except.ok (), h)
  | i :: is, h =>
      match moveItem a1 a2 f t h i with
      | Except.ok h' => moveAll a1 a2 f t is h'
      | Except.error fault => (Except.error fault, h)

/-- The order of the loop: upwards, unless the destination starts behind the start of the same
range. -/
def moveOrder (a : MoveArgs) (n : ℕ) : List ℕ :=
  if a.e.toInt < a.t.toInt ∨ a.t.toInt ≤ a.f.toInt ∨ a.a1 ≠ a.a2 then List.range n
  else (List.range n).reverse

/-- `lua_move`: what it returns, and the heap that it leaves. -/
def luaMove (N : NumberRules) (h : Heap) (args : List Value) : Except MoveFault TableId × Heap :=
  match moveArgs N args with
  | Except.error fault => (Except.error fault, h)
  | Except.ok a =>
      if a.f.toInt ≤ a.e.toInt then
        match moveCount a.f.toInt a.e.toInt a.t.toInt with
        | Except.error fault => (Except.error fault, h)
        | Except.ok n =>
            let r := moveAll a.a1 a.a2 a.f.toInt a.t.toInt (moveOrder a n.toNat) h
            (r.1.map fun _ => a.a2, r.2)
      else (Except.ok a.a2, h)

/-! ### The guards -/

theorem i64_ok {z : ℤ} (hlo : -2 ^ 63 ≤ z) (hhi : z < 2 ^ 63) : i64 z = Except.ok z :=
  if_pos ⟨hlo, hhi⟩

/-- A range with elements that is rejected. -/
def Rejected (f e t : ℤ) : Prop := 2 ^ 63 ≤ e - f + 1 ∨ 2 ^ 63 ≤ t + (e - f)

instance (f e t : ℤ) : Decidable (Rejected f e t) := inferInstanceAs (Decidable (_ ∨ _))

theorem countFits_eq {f e : ℤ} (hf : -2 ^ 63 ≤ f) (he : e < 2 ^ 63) :
    countFits f e = Except.ok (decide (e - f + 1 < 2 ^ 63)) := by
  have hmax : i64Max = 2 ^ 63 - 1 := rfl
  unfold countFits
  by_cases hpos : 0 < f
  · rw [if_pos hpos, decide_eq_true (by omega)]
  · rw [if_neg hpos, i64_ok (by omega) (by omega)]
    refine congrArg Except.ok (decide_eq_decide.2 ?_)
    omega

/-- **The guards** reject the ranges whose size or last destination overflows, and their own
arithmetic does not. -/
theorem moveCount_spec {f e t : ℤ} (hf : -2 ^ 63 ≤ f) (he : e < 2 ^ 63) (hle : f ≤ e) :
    (Rejected f e t → ∃ err, moveCount f e t = Except.error (MoveFault.raise err)) ∧
      (¬ Rejected f e t → moveCount f e t = Except.ok (e - f + 1)) := by
  have hmax : i64Max = 2 ^ 63 - 1 := rfl
  unfold moveCount
  rw [countFits_eq hf he]
  by_cases hsize : e - f + 1 < 2 ^ 63
  · rw [decide_eq_true hsize]
    have hd : i64 (e - f) = Except.ok (e - f) := i64_ok (by omega) (by omega)
    have hn : i64 (e - f + 1) = Except.ok (e - f + 1) := i64_ok (by omega) hsize
    have hlast : i64 (i64Max - (e - f + 1)) = Except.ok (i64Max - (e - f + 1)) :=
      i64_ok (by omega) (by omega)
    have hbound : i64 (i64Max - (e - f + 1) + 1) = Except.ok (i64Max - (e - f + 1) + 1) :=
      i64_ok (by omega) (by omega)
    by_cases hwrap : i64Max - (e - f + 1) + 1 < t
    · refine ⟨fun _ => ⟨PackError.badArg 4 "move" "destination wrap around", ?_⟩, fun hno => ?_⟩
      · simp only [bind, Except.bind, hd, hn, hlast, hbound, if_pos hwrap]
        rfl
      · exact absurd (Or.inr (by omega)) hno
    · refine ⟨fun hyes => ?_, fun _ => ?_⟩
      · rcases hyes with hyes | hyes <;> omega
      · simp only [bind, Except.bind, hd, hn, hlast, hbound, if_neg hwrap]
        rfl
  · rw [decide_eq_false hsize]
    refine ⟨fun _ => ⟨PackError.badArg 3 "move" "too many elements to move", rfl⟩, fun hno => ?_⟩
    exact absurd (Or.inl (by omega)) hno

/-! ### The keys of indices -/

theorem arrayIndex_intKey {z : ℤ} (hlo : -2 ^ 63 ≤ z) (hhi : z < 2 ^ 63) :
    arrayIndex (intKey z) = if 1 ≤ z then some z.toNat else none := by
  rw [intKey, arrayIndex, Int64.toInt_ofInt_of_le hlo (by omega)]

/-- Two indices have two keys. -/
theorem intKey_inj {z z' : ℤ} (hlo : -2 ^ 63 ≤ z) (hhi : z < 2 ^ 63) (hlo' : -2 ^ 63 ≤ z')
    (hhi' : z' < 2 ^ 63) (h : intKey z = intKey z') : z = z' := by
  have hint := congrArg Int64.toInt (Value.integer.inj h)
  rwa [Int64.toInt_ofInt_of_le hlo (by omega), Int64.toInt_ofInt_of_le hlo' (by omega)] at hint

/-- No other key of the language has the place of an index that fits the array part. -/
theorem normKey_of_keyOf_intKey {z : ℤ} {key : Value} (hlo : -2 ^ 63 ≤ z) (hhi : z ≤ maxArrayLen)
    (h : keyOf key = keyOf (intKey z)) : key.normKey = intKey z := by
  have hmax := maxArrayLen_lt
  refine @normKey_eq_of_keyOf_eq (intKey z) key (fun index hindex => ?_) h
  rw [arrayIndex_intKey hlo (by omega)] at hindex
  split at hindex
  · have := Option.some.inj hindex
    omega
  · exact absurd hindex (by simp)

/-! ### The loops as copies -/

/-- A heap as the values at its places. -/
def Heap.places (h : Heap) : TableId × Key → Value := fun p => h.store.content p.1 p.2

/-- The place of an index. -/
def placeOf (t : TableId) (z : ℤ) : TableId × Key := (t, keyOf (intKey z))

variable {h : Heap} {a1 a2 : TableId} {f t : ℤ}

theorem rawGet_eq_places (h : Heap) (t : TableId) (key : Value) :
    h.rawGet t key = h.places (t, keyOf key) := Heap.rawGet_eq h t key

theorem placeOf_ne {t t' : TableId} {z z' : ℤ} (hlo : -2 ^ 63 ≤ z) (hhi : z < 2 ^ 63)
    (hlo' : -2 ^ 63 ≤ z') (hhi' : z' ≤ maxArrayLen) (hne : t ≠ t' ∨ z ≠ z') :
    placeOf t z ≠ placeOf t' z' := by
  have hmax := maxArrayLen_lt
  intro heq
  obtain ⟨ht, hkey⟩ := Prod.mk.inj heq
  have hnorm := normKey_of_keyOf_intKey hlo' hhi' hkey
  exact hne.elim (fun hne => hne ht)
    (fun hne => hne (intKey_inj hlo hhi hlo' (by omega) hnorm))

/-- A store under an index that fits the array part changes the place of the index. -/
theorem store?_index {z : ℤ} (hs : h.Sane a2) (hlo : -2 ^ 63 ≤ z) (hhi : z ≤ maxArrayLen)
    (v : Value) : ∃ h', h.store? a2 (intKey z) v = some h' ∧ h'.Sane a2 ∧
      h'.places = Function.update h.places (placeOf a2 z) v := by
  have hmax := maxArrayLen_lt
  have hroom : h.overflows a2 (intKey z) = false := by
    unfold Heap.overflows
    rw [arrayIndex_intKey hlo (by omega)]
    split
    · rename_i index hindex
      split at hindex
      · have := Option.some.inj hindex
        simp only [Bool.and_eq_false_iff, decide_eq_false_iff_not]
        omega
      · exact absurd hindex (by simp)
    · rfl
  obtain ⟨h', hset⟩ : ∃ h', h.rawSet a2 (intKey z) v = some h' := by
    rw [← Option.ne_none_iff_exists']
    intro hnone
    exact absurd (rawSet_eq_none_iff.1 hnone) (by simp [intKey])
  have hstore : h.store? a2 (intKey z) v = some h' := by
    rw [Heap.store?, hroom]
    exact hset
  refine ⟨h', hstore, Heap.Sane.of_store hs hstore, ?_⟩
  funext p
  have hcontent := TableStore.content_set h.store a2 p.1 (keyOf (intKey z)) p.2 v
  rw [← (rawSet_spec hs.ok hset).store] at hcontent
  refine hcontent.trans ?_
  rw [Function.update_apply]
  exact if_congr ⟨fun hp => Prod.ext hp.1 hp.2, fun hp => Prod.mk.inj hp⟩ rfl rfl

/-- A store under an index beyond that panics. -/
theorem store?_beyond {z : ℤ} (hs : h.Sane a2) (hlo : maxArrayLen < z) (hhi : z < 2 ^ 63)
    (v : Value) : h.store? a2 (intKey z) v = none := by
  have hlen := hs.len
  have hover : h.overflows a2 (intKey z) = true := by
    unfold Heap.overflows
    rw [arrayIndex_intKey (by omega) hhi, if_pos (by omega)]
    simp only [Bool.and_eq_true, decide_eq_true_eq]
    omega
  exact if_pos hover

/-- Both indices of an element fit an `i64`. -/
def ItemFits (f t : ℤ) (i : ℕ) : Prop :=
  (-2 ^ 63 ≤ f + i ∧ f + i < 2 ^ 63) ∧ -2 ^ 63 ≤ t + i ∧ t + i < 2 ^ 63

theorem moveItem_eq {i : ℕ} (hfits : ItemFits f t i) :
    moveItem a1 a2 f t h i = ((h.store? a2 (intKey (t + i)) (h.rawGet a1 (intKey (f + i)))).elim
      (Except.error MoveFault.panic) Except.ok) := by
  unfold moveItem
  rw [i64_ok hfits.1.1 hfits.1.2, i64_ok hfits.2.1 hfits.2.2]
  simp only [bind, Except.bind]
  cases h.store? a2 (intKey (t + i)) (h.rawGet a1 (intKey (f + i))) <;> rfl

/-- **The loops are copies**, one after another. -/
theorem moveAll_copies {is : List ℕ} (hs : h.Sane a2) (hfits : ∀ i ∈ is, ItemFits f t i)
    (hroom : ∀ i ∈ is, t + (i : ℕ) ≤ maxArrayLen) :
    ∃ h', moveAll a1 a2 f t is h = (Except.ok (), h') ∧
      h'.places = copySteps (fun i : ℕ => placeOf a1 (f + i)) (fun i : ℕ => placeOf a2 (t + i)) is
        h.places := by
  induction is generalizing h with
  | nil => exact ⟨h, rfl, rfl⟩
  | cons i is ih =>
      have hi := hfits i (List.mem_cons_self ..)
      obtain ⟨h₁, hstore, hs₁, hplaces⟩ := store?_index hs hi.2.1 (hroom i (List.mem_cons_self ..))
        (h.rawGet a1 (intKey (f + i)))
      obtain ⟨h', hrun, hrest⟩ := ih hs₁ (fun j hj => hfits j (List.mem_cons_of_mem _ hj))
        fun j hj => hroom j (List.mem_cons_of_mem _ hj)
      refine ⟨h', ?_, ?_⟩
      · rw [moveAll, moveItem_eq hi, hstore]
        exact hrun
      · rw [hrest, hplaces, rawGet_eq_places]
        rfl

/-- An index to which no array grows ends the loop in a panic. -/
theorem moveAll_panic {is : List ℕ} (hs : h.Sane a2) (hfits : ∀ i ∈ is, ItemFits f t i) {i : ℕ}
    (hi : i ∈ is) (hbeyond : maxArrayLen < t + i) :
    (moveAll a1 a2 f t is h).1 = Except.error MoveFault.panic := by
  induction is generalizing h with
  | nil => exact absurd hi List.not_mem_nil
  | cons j js ih =>
      have hj := hfits j (List.mem_cons_self ..)
      rw [moveAll, moveItem_eq hj]
      by_cases hroom : t + j ≤ maxArrayLen
      · obtain ⟨h₁, hstore, hs₁, -⟩ := store?_index hs hj.2.1 hroom
          (h.rawGet a1 (intKey (f + j)))
        rw [hstore]
        rcases List.mem_cons.1 hi with rfl | hi
        · omega
        · exact ih hs₁ (fun k hk => hfits k (List.mem_cons_of_mem _ hk)) hi
      · rw [store?_beyond hs (by omega) hj.2.2]
        rfl

/-! ### Moving a range -/

variable {a : MoveArgs} {n : ℕ}

/-- The order of the loop is one in which nothing is read after it has been written. -/
theorem safe_moveOrder (hlen : (n : ℤ) = a.e.toInt - a.f.toInt + 1)
    (hfits : ∀ i < n, ItemFits a.f.toInt a.t.toInt i)
    (hroom : ∀ i < n, a.t.toInt + (i : ℕ) ≤ maxArrayLen) :
    Safe (fun i : ℕ => placeOf a.a1 (a.f.toInt + i)) (fun i : ℕ => placeOf a.a2 (a.t.toInt + i))
      (moveOrder a n) := by
  have hdst : ∀ i j : ℕ, i < j → j < n →
      placeOf a.a2 (a.t.toInt + j) ≠ placeOf a.a2 (a.t.toInt + i) := by
    intro i j hlt hj
    have hfi := hfits i (by omega)
    have hfj := hfits j hj
    exact placeOf_ne hfj.2.1 hfj.2.2 hfi.2.1 (hroom i (by omega)) (Or.inr (by omega))
  have hne : ∀ i j : ℕ, i < n → j < n → (a.a1 ≠ a.a2 ∨ a.f.toInt + j ≠ a.t.toInt + i) →
      placeOf a.a1 (a.f.toInt + j) ≠ placeOf a.a2 (a.t.toInt + i) := by
    intro i j hi hj h
    have hfi := hfits i hi
    have hfj := hfits j hj
    exact placeOf_ne hfj.1.1 hfj.1.2 hfi.2.1 (hroom i hi) h
  unfold moveOrder
  split
  case isTrue hup =>
    refine safe_range hdst fun i j hlt hj => hne i j (by omega) hj ?_
    rcases hup with hup | hup | hup
    · exact Or.inr (by omega)
    · exact Or.inr (by omega)
    · exact Or.inl hup
  case isFalse hdown =>
    refine safe_reverse_range hdst fun i j hlt hj => hne j i hj (by omega) (Or.inr ?_)
    have hlow : ¬ a.t.toInt ≤ a.f.toInt := fun hno => hdown (Or.inr (Or.inl hno))
    omega

theorem mem_moveOrder {i : ℕ} : i ∈ moveOrder a n ↔ i < n := by
  unfold moveOrder
  split
  · exact List.mem_range
  · rw [List.mem_reverse, List.mem_range]

/-- The elements of the range stand at the destination, and no other key has changed. -/
structure Heap.Moved (h : Heap) (a : MoveArgs) (h' : Heap) : Prop where
  copied : ∀ i : ℤ, 0 ≤ i → i ≤ a.e.toInt - a.f.toInt →
    h'.rawGet a.a2 (intKey (a.t.toInt + i)) = h.rawGet a.a1 (intKey (a.f.toInt + i))
  others : ∀ (tbl : TableId) (key : Value), (tbl = a.a2 → ∀ i : ℤ, 0 ≤ i →
    i ≤ a.e.toInt - a.f.toInt → key.normKey ≠ intKey (a.t.toInt + i)) →
    h'.rawGet tbl key = h.rawGet tbl key

/-- Copies in a safe order move the range. -/
theorem moved_of_copySteps (hlen : (n : ℤ) = a.e.toInt - a.f.toInt + 1)
    (hfits : ∀ i < n, ItemFits a.f.toInt a.t.toInt i)
    (hroom : ∀ i < n, a.t.toInt + (i : ℕ) ≤ maxArrayLen)
    (h' : Heap) (hcopies : h'.places = copySteps (fun i : ℕ => placeOf a.a1 (a.f.toInt + i))
      (fun i : ℕ => placeOf a.a2 (a.t.toInt + i)) (moveOrder a n) h.places) : h.Moved a h' := by
  constructor
  · intro i hi hle
    obtain ⟨k, rfl⟩ := Int.eq_ofNat_of_zero_le hi
    rw [rawGet_eq_places, rawGet_eq_places, hcopies]
    exact copySteps_written (safe_moveOrder hlen hfits hroom)
      (mem_moveOrder.2 (show k < n by omega))
  · intro tbl key hother
    rw [rawGet_eq_places, rawGet_eq_places, hcopies]
    refine copySteps_elsewhere fun i hi heq => ?_
    have hi := mem_moveOrder.1 hi
    obtain ⟨htbl, hkey⟩ := Prod.mk.inj heq
    exact hother htbl i (by omega) (by omega)
      (normKey_of_keyOf_intKey (hfits i hi).2.1 (hroom i hi) hkey)

/-- What a call is to do: move the range, or reject it and leave the heap alone. -/
def MovesRange (h : Heap) (a : MoveArgs) (r : Except MoveFault TableId × Heap) : Prop :=
  if a.f.toInt ≤ a.e.toInt ∧ Rejected a.f.toInt a.e.toInt a.t.toInt then
    ∃ err, r = (Except.error (MoveFault.raise err), h)
  else r.1 = Except.ok a.a2 ∧ h.Moved a r.2

/-- **`table.move`** never overflows, and it moves its range or rejects it, unless the range is to
go to an index to which no array grows. -/
theorem table_move_iff (N : NumberRules) {args : List Value} (hargs : moveArgs N args = Except.ok a)
    (hs : h.Sane a.a2) :
    (luaMove N h args).1 ≠ Except.error MoveFault.overflow ∧
      (MovesRange h a (luaMove N h args) ↔
        a.e.toInt < a.f.toInt ∨ Rejected a.f.toInt a.e.toInt a.t.toInt ∨
          a.t.toInt + (a.e.toInt - a.f.toInt) ≤ maxArrayLen) := by
  have hmax := maxArrayLen_lt
  have hf := a.f.le_toInt
  have he := a.e.toInt_lt
  have ht := a.t.le_toInt
  simp only [luaMove, hargs]
  by_cases hle : a.f.toInt ≤ a.e.toInt
  · obtain ⟨hreject, hcount⟩ := moveCount_spec (t := a.t.toInt) hf he hle
    rw [if_pos hle]
    by_cases hno : Rejected a.f.toInt a.e.toInt a.t.toInt
    · obtain ⟨err, herr⟩ := hreject hno
      rw [herr]
      refine ⟨by simp, iff_of_true ?_ (Or.inr (Or.inl hno))⟩
      unfold MovesRange
      rw [if_pos ⟨hle, hno⟩]
      exact ⟨err, rfl⟩
    · rw [hcount hno]
      obtain ⟨n, hn⟩ : ∃ n : ℕ, (n : ℤ) = a.e.toInt - a.f.toInt + 1 :=
        ⟨(a.e.toInt - a.f.toInt + 1).toNat, Int.toNat_of_nonneg (by omega)⟩
      have hlimit : a.e.toInt - a.f.toInt + 1 < 2 ^ 63 ∧
          a.t.toInt + (a.e.toInt - a.f.toInt) < 2 ^ 63 :=
        ⟨Int.not_le.1 fun hbig => hno (Or.inl hbig), Int.not_le.1 fun hbig => hno (Or.inr hbig)⟩
      have hfits : ∀ i < n, ItemFits a.f.toInt a.t.toInt i := by
        intro i hi
        refine ⟨⟨?_, ?_⟩, ?_, ?_⟩ <;> omega
      simp only [← hn, Int.toNat_natCast]
      by_cases hroom : a.t.toInt + (a.e.toInt - a.f.toInt) ≤ maxArrayLen
      · have hroom' : ∀ i < n, a.t.toInt + (i : ℕ) ≤ maxArrayLen := fun i hi => by omega
        obtain ⟨h', hrun, hcopies⟩ := @moveAll_copies h a.a1 a.a2 a.f.toInt a.t.toInt _ hs
          (fun i hi => hfits i (mem_moveOrder.1 hi)) fun i hi => hroom' i (mem_moveOrder.1 hi)
        rw [hrun]
        refine ⟨by simp [Except.map], iff_of_true ?_ (Or.inr (Or.inr hroom))⟩
        unfold MovesRange
        rw [if_neg fun hboth => hno hboth.2]
        exact ⟨rfl, moved_of_copySteps hn hfits hroom' h' hcopies⟩
      · have hlast : n - 1 ∈ moveOrder a n := mem_moveOrder.2 (by omega)
        have hpanic := @moveAll_panic h a.a1 a.a2 a.f.toInt a.t.toInt _ hs
          (fun i hi => hfits i (mem_moveOrder.1 hi)) _ hlast (by omega)
        rw [hpanic]
        refine ⟨by simp [Except.map], iff_of_false ?_ ?_⟩
        · unfold MovesRange
          rw [if_neg fun hboth => hno hboth.2]
          exact fun hmoves => absurd hmoves.1 (by simp [Except.map])
        · rintro (hempty | hyes | hsmall)
          · omega
          · exact hno hyes
          · exact hroom hsmall
  · rw [if_neg hle]
    refine ⟨by simp, iff_of_true ?_ (Or.inl (by omega))⟩
    unfold MovesRange
    rw [if_neg fun hboth => hle hboth.1]
    exact ⟨rfl, ⟨fun i hi hi' => by omega, fun _ _ _ => rfl⟩⟩

/-- A table with the elements 10, 20 and 30. -/
def threeItems : Option Heap := do
  let h ← Heap.boot.store? 0 (intKey 1) (Value.integer 10)
  let h ← h.store? 0 (intKey 2) (Value.integer 20)
  h.store? 0 (intKey 3) (Value.integer 30)

theorem table_move_up_by_one :
    ∃ h, threeItems = some h ∧ MovesRange h { a1 := 0, f := 1, e := 3, t := 2, a2 := 0 }
      (luaMove noTexts h [Value.table 0, Value.integer 1, Value.integer 3, Value.integer 2]) := by
  obtain ⟨h₁, hstore₁, hs₁, -⟩ := store?_index (z := 1) (sane_boot 0) (by decide) (by decide)
    (Value.integer 10)
  obtain ⟨h₂, hstore₂, hs₂, -⟩ := store?_index (z := 2) hs₁ (by decide) (by decide)
    (Value.integer 20)
  obtain ⟨h₃, hstore₃, hs₃, -⟩ := store?_index (z := 3) hs₂ (by decide) (by decide)
    (Value.integer 30)
  refine ⟨h₃, ?_, (table_move_iff noTexts rfl hs₃).2.2 (Or.inr (Or.inr (by decide)))⟩
  rw [threeItems, hstore₁]
  refine Eq.trans ?_ hstore₃
  exact congrArg (fun o : Option Heap => o.bind fun h => h.store? 0 (intKey 3) (Value.integer 30))
    hstore₂

/-- Moving a single element to the largest index panics. -/
theorem table_move_panics :
    ¬ ∀ (h : Heap) (args : List Value) (a : MoveArgs), moveArgs noTexts args = Except.ok a →
      h.Sane a.a2 → MovesRange h a (luaMove noTexts h args) := by
  intro hall
  have hmoves := hall Heap.boot [Value.table 0, Value.integer 1, Value.integer 1,
    Value.integer Int64.maxValue] { a1 := 0, f := 1, e := 1, t := Int64.maxValue, a2 := 0 } rfl
    (sane_boot 0)
  rw [MovesRange, if_neg (by decide)] at hmoves
  exact absurd hmoves.1 (by decide)

end Tcvm
