/-
The length of a table, and tables as lists.

`raw_len` is the length of the array part, which grows to every index stored under and never
shrinks.  So it is a border exactly as long as the last cell of the array is not nil.
`table.insert` and `table.remove` work on the array: the first is the insertion of lists, the second
one leaves a nil behind the elements that it shifts down, so that the length stays.

* `Heap.IsBorder`, `Heap.KeepsBorder` — borders, and the stores that keep the length one;
* `luaInsert`, `luaRemove` — the library functions;
* `isBorder_iff`, `keepsBorder_iff` — one store;
* `luaInsert_spec`, `luaRemove_spec` — one call;
* `length_is_border_iff` — **the runs in which the length is a border and tables act as lists**.
-/

import Tcvm.ConstructorFields
import Tcvm.PackRoundTrip
import Tcvm.RawTable
import Tcvm.StateExcept
import Tcvm.StepRuns

namespace Tcvm

open StepRuns StateExcept

/-! ### Stores under an index -/

/-- The array part of a table. -/
def Heap.arrayOf (h : Heap) (t : TableId) : List Value := (h.tables t).array

/-- `raw_set`, unless the array would be longer than a vector can be. -/
def Heap.store? (h : Heap) (t : TableId) (key value : Value) : Option Heap :=
  if h.overflows t key then none else h.rawSet t key value

theorem arrayIndex_itemKey {n : ℕ} (hpos : 0 < n) (hlt : n < 2 ^ 63) :
    arrayIndex (itemKey n) = some n := by
  have hint : (Int64.ofNat n).toInt = n := Int64.toInt_ofNat_of_lt hlt
  rw [itemKey, arrayIndex, hint, if_pos (by omega), Int.toNat_natCast]

/-- An array after a store at a position, counted from 1. -/
def arrayAfter (l : List Value) (index : ℕ) (value : Value) : List Value :=
  (if l.length < index then l ++ List.replicate (index - l.length) Value.nil else l).set
    (index - 1) value

theorem length_arrayAfter (l : List Value) (index : ℕ) (value : Value) :
    (arrayAfter l index value).length = max l.length index := by
  unfold arrayAfter
  rw [List.length_set]
  split
  · rw [List.length_append, List.length_replicate]
    omega
  · omega

/-- Next to the end or inside, one cell changes. -/
theorem getElem?_arrayAfter {l : List Value} {index : ℕ} (value : Value) (hpos : 0 < index)
    (hle : index ≤ l.length + 1) (i : ℕ) :
    (arrayAfter l index value)[i]? = if i = index - 1 then some value else l[i]? := by
  have hlen := length_arrayAfter l index value
  by_cases hi : i = index - 1
  · rw [if_pos hi, hi]
    unfold arrayAfter at hlen ⊢
    refine List.getElem?_set_self ?_
    rw [List.length_set] at hlen
    omega
  · rw [if_neg hi, arrayAfter, List.getElem?_set_ne (Ne.symm hi)]
    split
    · rename_i hgrow
      rcases Nat.lt_or_ge i l.length with hlt | hge
      · rw [List.getElem?_append_left hlt]
      · rw [List.getElem?_eq_none hge, List.getElem?_eq_none]
        rw [List.length_append, List.length_replicate]
        omega
    · rfl

variable {h h' : Heap} {t : TableId}

theorem rawLen_eq (h : Heap) (t : TableId) : h.rawLen t = (h.arrayOf t).length := rfl

theorem rawGet_itemKey {n : ℕ} (hpos : 0 < n) (hlt : n < 2 ^ 63) :
    h.rawGet t (itemKey n) = (h.arrayOf t).getD (n - 1) Value.nil := by
  have hindex := arrayIndex_itemKey hpos hlt
  rw [itemKey] at hindex ⊢
  simp only [Heap.rawGet, hindex]
  rfl

theorem array_ext {l l' : List Value} (hlen : l'.length = l.length)
    (hget : ∀ i, l'.getD i Value.nil = l.getD i Value.nil) : l' = l := by
  refine List.ext_getElem hlen fun i hi hi' => ?_
  have := hget i
  rwa [List.getD_eq_getElem _ _ hi, List.getD_eq_getElem _ _ hi'] at this

/-- A store changes the array at most where it stores. -/
theorem store?_spec {key value : Value} (hok : HeapOk h) (hset : h.store? t key value = some h')
    (hlen : h.rawLen t ≤ maxArrayLen) :
    HeapOk h' ∧ h'.rawLen t ≤ maxArrayLen ∧
      h'.arrayOf t = match arrayIndex key with
        | some index => arrayAfter (h.arrayOf t) index value
        | none => h.arrayOf t := by
  unfold Heap.store? at hset
  split at hset
  · exact absurd hset (by simp)
  · rename_i hover
    have hstored := rawSet_spec hok hset
    have hcontent : ∀ i, (h'.arrayOf t).getD i Value.nil =
        if Key.pos i = keyOf key then value else (h.arrayOf t).getD i Value.nil := by
      intro i
      have := congrFun (congrFun (congrArg TableStore.content hstored.store) t) (Key.pos i)
      rw [TableStore.content_set] at this
      refine this.trans ?_
      simp only [true_and]
      rfl
    have hlen' := hstored.len t
    rw [if_pos rfl] at hlen'
    cases hkey : arrayIndex key with
    | some index =>
        have hpos := arrayIndex_pos hkey
        rw [keyOf_of_arrayIndex_some hkey] at hcontent hlen'
        have hlen' : h'.rawLen t = max (h.rawLen t) index := by
          rw [hlen', lenAfter]
          omega
        have hroom : ¬ (h.rawLen t < index ∧ maxArrayLen < index) := by
          intro hboth
          refine hover ?_
          simp [Heap.overflows, hkey, hboth.1, hboth.2]
        refine ⟨hstored.ok, by omega, array_ext ?_ fun i => ?_⟩
        · rw [length_arrayAfter]
          exact hlen'
        · rw [hcontent]
          refine Eq.trans ?_ (TableState.getD_arraySet (h.tables t) hpos value i).symm
          simp only [Key.pos.injEq]
          rfl
    | none =>
        have hmisc : ∀ i, Key.pos i ≠ keyOf key := by
          intro i heq
          cases key with
          | string s => exact absurd heq (by simp [keyOf])
          | _ => exact absurd heq (by simp [keyOf, hkey])
        have hsame : h'.rawLen t = h.rawLen t := by
          rw [hlen']
          cases hk : keyOf key with
          | pos i => exact absurd hk.symm (hmisc i)
          | _ => rfl
        refine ⟨hstored.ok, by omega, array_ext hsame fun i => ?_⟩
        rw [hcontent, if_neg (hmisc i)]

/-! ### Borders -/

/-- `n` is a border of the table. -/
def Heap.IsBorder (h : Heap) (t : TableId) (n : ℕ) : Prop :=
  (n = 0 ∧ h.rawGet t (itemKey 1) = Value.nil) ∨
    (0 < n ∧ h.rawGet t (itemKey n) ≠ Value.nil ∧ h.rawGet t (itemKey (n + 1)) = Value.nil)

/-- A nil is stored below the length only. -/
def Heap.KeepsBorder (h : Heap) (t : TableId) (store : Value × Value) : Prop :=
  ∀ index, arrayIndex store.1 = some index → store.2 = Value.nil → index < h.rawLen t

theorem maxArrayLen_lt : maxArrayLen < 2 ^ 60 := by decide

/-- The length is a border iff the last cell of the array is not nil. -/
theorem isBorder_iff (hlen : h.rawLen t ≤ maxArrayLen) :
    h.IsBorder t (h.rawLen t) ↔ (h.arrayOf t).getLast? ≠ some Value.nil := by
  have hmax := maxArrayLen_lt
  have hbeyond : (h.arrayOf t).getD (h.rawLen t) Value.nil = Value.nil :=
    List.getD_eq_default _ _ (Nat.le_refl _)
  have hnext : h.rawGet t (itemKey (h.rawLen t + 1)) = Value.nil := by
    rw [rawGet_itemKey (by omega) (by omega)]
    exact hbeyond
  unfold Heap.IsBorder
  cases hn : h.rawLen t with
  | zero =>
      have hempty : h.arrayOf t = [] := List.length_eq_zero_iff.1 hn
      rw [hn] at hnext
      rw [hnext, hempty]
      simp
  | succ n =>
      have hlen' : (h.arrayOf t).length = n + 1 := hn
      have hend : (h.arrayOf t).getLast? = some (h.rawGet t (itemKey (n + 1))) := by
        rw [rawGet_itemKey (by omega) (by omega), List.getLast?_eq_getElem?, hlen',
          Nat.add_sub_cancel, List.getD_eq_getElem?_getD]
        obtain ⟨v, hv⟩ : ∃ v, (h.arrayOf t)[n]? = some v :=
          ⟨_, List.getElem?_eq_getElem (by omega)⟩
        rw [hv]
        rfl
      rw [hn] at hnext
      rw [hnext, hend]
      simp

/-- The last cell behind a store. -/
theorem getLast?_arrayAfter {l : List Value} {index : ℕ} (value : Value) (hpos : 0 < index) :
    (arrayAfter l index value).getLast? = if l.length ≤ index then some value else l.getLast? := by
  rw [List.getLast?_eq_getElem?, length_arrayAfter]
  split
  · rename_i hle
    rw [Nat.max_eq_right hle]
    refine List.getElem?_set_self ?_
    split
    · rw [List.length_append, List.length_replicate]
      omega
    · omega
  · rename_i hlt
    rw [Nat.max_eq_left (by omega), arrayAfter, if_neg (by omega),
      List.getElem?_set_ne (by omega), ← List.getLast?_eq_getElem?]

/-- A store keeps the length a border iff it stores no nil at the end or beyond. -/
theorem keepsBorder_iff {key value : Value} (hok : HeapOk h)
    (hset : h.store? t key value = some h') (hlen : h.rawLen t ≤ maxArrayLen)
    (hborder : h.IsBorder t (h.rawLen t)) :
    h'.IsBorder t (h'.rawLen t) ↔ h.KeepsBorder t (key, value) := by
  obtain ⟨-, hlen', harray⟩ := store?_spec hok hset hlen
  rw [isBorder_iff hlen] at hborder
  rw [isBorder_iff hlen', Heap.KeepsBorder, harray]
  cases hkey : arrayIndex key with
  | none =>
      exact iff_of_true hborder fun index h => absurd h (by simp)
  | some index =>
      have hpos := arrayIndex_pos hkey
      rw [getLast?_arrayAfter value (arrayIndex_pos hkey)]
      simp only [Option.some.injEq, forall_eq']
      rw [rawLen_eq]
      split
      · rename_i hle
        simp only [ne_eq, Option.some.injEq]
        exact ⟨fun hne hnil => absurd hnil hne, fun hkeeps hnil => by have := hkeeps hnil; omega⟩
      · rename_i hlt
        exact iff_of_true hborder fun _ => by omega

/-! ### `table.insert` and `table.remove` -/

/-- What ends a library function: an error for Lua, or a panic. -/
inductive ListFault
  | raise (e : PackError)
  | panic
  deriving DecidableEq

/-- `raw_set` at an index. -/
def Heap.storeItem (h : Heap) (t : TableId) (index : ℕ) (value : Value) : Except ListFault Heap :=
  match h.store? t (itemKey index) value with
  | some h' => Except.ok h'
  | none => Except.error ListFault.panic

def checkTable (v : Value) (fname : String) : Except ListFault TableId :=
  match v.getTable with
  | some t => Except.ok t
  | none =>
      Except.error (ListFault.raise
        (PackError.badArg 1 fname ("table expected, got " ++ v.typeName)))

/-- A position argument. -/
def NumberRules.checkPos (N : NumberRules) (v : Value) (fname : String) : Except ListFault Int64 :=
  match N.checkInteger v fname 2 with
  | Except.ok pos => Except.ok pos
  | Except.error e => Except.error (ListFault.raise e)

/-- The loop of `lua_insert`: `steps` elements from `pos` on move up by one, the last one first. -/
def shiftUp (t : TableId) (pos : ℕ) : ℕ → Heap → Except ListFault Heap
  | 0, h => return h
  | steps + 1, h => do
      let v := h.rawGet t (itemKey (pos + steps))
      let h ← h.storeItem t (pos + steps + 1) v
      shiftUp t pos steps h

/-- The loop of `lua_remove`: `steps` elements behind `k` move down by one. -/
def shiftDown (t : TableId) : ℕ → ℕ → Heap → Except ListFault Heap
  | 0, _, h => return h
  | steps + 1, k, h => do
      let v := h.rawGet t (itemKey (k + 1))
      let h ← h.storeItem t k v
      shiftDown t steps (k + 1) h

/-- `lua_insert`. -/
def luaInsert (N : NumberRules) (h : Heap) (args : List Value) : Except ListFault Heap := do
  let t ← checkTable (args.getD 0 Value.nil) "insert"
  let n := h.rawLen t
  match args.length with
  | 2 => h.storeItem t (n + 1) (args.getD 1 Value.nil)
  | 3 => do
      let pos ← N.checkPos (args.getD 1 Value.nil) "insert"
      if pos.toInt < 1 ∨ (n : ℤ) + 1 < pos.toInt then
        throw (ListFault.raise (PackError.badArg 2 "insert" "position out of bounds"))
      let k := pos.toInt.toNat
      let h ← shiftUp t k (n + 1 - k) h
      h.storeItem t k (args.getD 2 Value.nil)
  | _ => throw (ListFault.raise (PackError.message "wrong number of arguments to 'insert'"))

/-- `lua_remove`. -/
def luaRemove (N : NumberRules) (h : Heap) (args : List Value) :
    Except ListFault (Heap × Value) := do
  let t ← checkTable (args.getD 0 Value.nil) "remove"
  let n := h.rawLen t
  let posArg := args.getD 1 Value.nil
  let pos ← (if posArg.isNil then Except.ok (n : ℤ)
    else Int64.toInt <$> N.checkPos posArg "remove")
  if pos ≠ n ∧ (pos < 1 ∨ (n : ℤ) + 1 < pos) then
    throw (ListFault.raise (PackError.badArg 2 "remove" "position out of bounds"))
  let k := pos.toNat
  let result := h.rawGet t (itemKey k)
  let h ← shiftDown t (n - k) k h
  let h ← h.storeItem t (max k n) Value.nil
  return (h, result)

/-! ### Shifting -/

theorem checkTable_ok {v : Value} {fname : String} (h : checkTable v fname = Except.ok t) :
    v = Value.table t := by
  unfold checkTable at h
  cases v with
  | table t' =>
      obtain rfl := Except.ok.inj h
      rfl
  | _ => exact absurd h (by simp [Value.getTable])

theorem checkPos_ok {N : NumberRules} {v : Value} {fname : String} {pos : Int64}
    (h : N.checkPos v fname = Except.ok pos) : N.toInteger v = some pos := by
  unfold NumberRules.checkPos at h
  split at h
  · rename_i pos' hpos
    obtain rfl := Except.ok.inj h
    exact checkInteger_ok hpos
  · exact absurd h (by simp)

/-- What the library functions need of the heap. -/
structure Heap.Sane (h : Heap) (t : TableId) : Prop where
  ok : HeapOk h
  len : h.rawLen t ≤ maxArrayLen

theorem storeItem_spec {index : ℕ} {v : Value} (hs : h.Sane t) (hpos : 0 < index)
    (hle : index ≤ h.rawLen t + 1) (hset : h.storeItem t index v = Except.ok h') :
    h'.Sane t ∧ h'.rawLen t = max (h.rawLen t) index ∧
      ∀ i, (h'.arrayOf t)[i]? = if i = index - 1 then some v else (h.arrayOf t)[i]? := by
  unfold Heap.storeItem at hset
  split at hset
  · rename_i h₁ hstore
    obtain rfl := Except.ok.inj hset
    have hmax := maxArrayLen_lt
    have hlen := hs.len
    obtain ⟨hok, hlen', harray⟩ := store?_spec hs.ok hstore hs.len
    rw [arrayIndex_itemKey hpos (by omega)] at harray
    refine ⟨⟨hok, hlen'⟩, ?_, fun i => ?_⟩
    · rw [rawLen_eq, harray, length_arrayAfter]
      rfl
    · rw [harray]
      exact getElem?_arrayAfter v hpos hle i
  · exact absurd hset (by simp)

theorem rawGet_item (hs : h.Sane t) {k : ℕ} (hk : k < h.rawLen t) :
    some (h.rawGet t (itemKey (k + 1))) = (h.arrayOf t)[k]? := by
  have hmax := maxArrayLen_lt
  have hlen := hs.len
  rw [rawGet_itemKey (by omega) (by omega), Nat.add_sub_cancel, List.getD_eq_getElem?_getD]
  obtain ⟨v, hv⟩ : ∃ v, (h.arrayOf t)[k]? = some v := ⟨_, List.getElem?_eq_getElem hk⟩
  rw [hv]
  rfl

/-- Behind the loop of `lua_insert`, the elements from `pos` on stand one higher. -/
theorem shiftUp_spec {pos : ℕ} (hpos : 0 < pos) (steps : ℕ) :
    ∀ {h h' : Heap}, h.Sane t → pos + steps ≤ h.rawLen t + 1 →
      shiftUp t pos steps h = Except.ok h' →
      h'.Sane t ∧ h.rawLen t ≤ h'.rawLen t ∧ ∀ i, (h'.arrayOf t)[i]? =
        if pos ≤ i ∧ i < pos + steps then (h.arrayOf t)[i - 1]? else (h.arrayOf t)[i]? := by
  induction steps with
  | zero =>
      intro h h' hs _ hrun
      obtain rfl := Except.ok.inj hrun
      exact ⟨hs, Nat.le_refl _, fun i => by rw [if_neg (by omega)]⟩
  | succ steps ih =>
      intro h h' hs hle hrun
      obtain ⟨h₁, hstore, hrest⟩ := except_bind_eq_ok.1 hrun
      obtain ⟨hs₁, hlen₁, hget₁⟩ := storeItem_spec hs (by omega) (by omega) hstore
      have hread : some (h.rawGet t (itemKey (pos + steps))) = (h.arrayOf t)[pos + steps - 1]? := by
        have := rawGet_item hs (k := pos + steps - 1) (by omega)
        rwa [Nat.sub_add_cancel (by omega)] at this
      obtain ⟨hs', hlen', hget'⟩ := ih hs₁ (by omega) hrest
      refine ⟨hs', by omega, fun i => ?_⟩
      rw [hget', hget₁, hget₁, hread, Nat.add_sub_cancel]
      -- the step moves the element in front of `pos + steps`, the others move the ones below
      rcases Nat.lt_trichotomy i (pos + steps) with hi | rfl | hi
      · rw [if_neg (show i - 1 ≠ pos + steps by omega), if_neg (show i ≠ pos + steps by omega)]
        by_cases hp : pos ≤ i
        · rw [if_pos ⟨hp, hi⟩, if_pos ⟨hp, by omega⟩]
        · rw [if_neg (by omega), if_neg (by omega)]
      · rw [if_neg (by omega), if_pos rfl, if_pos ⟨by omega, by omega⟩]
      · rw [if_neg (by omega), if_neg (by omega), if_neg (by omega)]

/-- Behind the loop of `lua_remove`, the elements behind `k` stand one lower. -/
theorem shiftDown_spec (steps : ℕ) :
    ∀ {h h' : Heap} {k : ℕ}, h.Sane t → 0 < k → k + steps ≤ h.rawLen t →
      shiftDown t steps k h = Except.ok h' →
        h'.Sane t ∧ h'.rawLen t = h.rawLen t ∧ ∀ i, (h'.arrayOf t)[i]? =
          if k ≤ i + 1 ∧ i + 1 < k + steps then (h.arrayOf t)[i + 1]? else (h.arrayOf t)[i]? := by
  induction steps with
  | zero =>
      intro h h' k hs _ _ hrun
      obtain rfl := Except.ok.inj hrun
      exact ⟨hs, rfl, fun i => by rw [if_neg (by omega)]⟩
  | succ steps ih =>
      intro h h' k hs hk hle hrun
      obtain ⟨h₁, hstore, hrest⟩ := except_bind_eq_ok.1 hrun
      obtain ⟨hs₁, hlen₁, hget₁⟩ := storeItem_spec hs hk (by omega) hstore
      have hread := rawGet_item hs (show k < h.rawLen t by omega)
      obtain ⟨hs', hlen', hget'⟩ := ih hs₁ (by omega) (by omega) hrest
      refine ⟨hs', by omega, fun i => ?_⟩
      rw [hget', hget₁, hget₁, hread]
      rcases Nat.lt_trichotomy i (k - 1) with hi | rfl | hi
      · rw [if_neg (by omega), if_neg (by omega), if_neg (by omega)]
      · rw [if_neg (by omega), if_pos rfl, if_pos ⟨by omega, by omega⟩]
        congr 1
        omega
      · rw [if_neg (show i + 1 ≠ k - 1 by omega), if_neg (show i ≠ k - 1 by omega)]
        by_cases hlt : i + 1 < k + 1 + steps
        · rw [if_pos ⟨by omega, hlt⟩, if_pos ⟨by omega, by omega⟩]
        · rw [if_neg (by omega), if_neg (by omega)]

/-! ### One call -/

/-- The position and the value of an insertion into a list of `n` elements. -/
def insertArgs (N : NumberRules) (n : ℕ) (args : List Value) : Option (ℕ × Value) :=
  match args.length with
  | 2 => some (n + 1, args.getD 1 Value.nil)
  | 3 => (N.toInteger (args.getD 1 Value.nil)).map fun pos =>
      (pos.toInt.toNat, args.getD 2 Value.nil)
  | _ => none

/-- The position of a removal from a list of `n` elements. -/
def removeArgs (N : NumberRules) (n : ℕ) (args : List Value) : Option ℕ :=
  if (args.getD 1 Value.nil).isNil then some n
  else (N.toInteger (args.getD 1 Value.nil)).map fun pos => pos.toInt.toNat

/-- The element is stored where the loop of `lua_insert` has made room. -/
theorem storedInRoom_spec {pos : ℕ} {v : Value} {h₁ : Heap} (hs : h.Sane t) (hpos : 1 ≤ pos)
    (hle : pos ≤ h.rawLen t + 1) (hshift : shiftUp t pos (h.rawLen t + 1 - pos) h = Except.ok h₁)
    (hstore : h₁.storeItem t pos v = Except.ok h') :
    h'.Sane t ∧ h'.arrayOf t = (h.arrayOf t).insertIdx (pos - 1) v := by
  obtain ⟨hs₁, hlen₁, hget₁⟩ := shiftUp_spec hpos _ hs (by omega) hshift
  obtain ⟨hs', -, hget'⟩ := storeItem_spec hs₁ hpos (by omega) hstore
  have hlen : (h.arrayOf t).length = h.rawLen t := rfl
  refine ⟨hs', List.ext_getElem? fun i => ?_⟩
  rw [hget', hget₁, List.getElem?_insertIdx]
  rcases Nat.lt_trichotomy i (pos - 1) with hi | rfl | hi
  · rw [if_neg (by omega), if_neg (by omega), if_pos hi]
  · rw [if_pos rfl, if_neg (by omega), if_pos rfl, if_pos (by omega)]
  · rw [if_neg (by omega), if_neg (show ¬i < pos - 1 by omega),
      if_neg (show i ≠ pos - 1 by omega)]
    by_cases hin : i < pos + (h.rawLen t + 1 - pos)
    · rw [if_pos ⟨by omega, hin⟩]
    · rw [if_neg (by omega), List.getElem?_eq_none (by omega), List.getElem?_eq_none (by omega)]

/-- `table.insert` inserts. -/
theorem luaInsert_spec {N : NumberRules} {args : List Value} (hs : h.Sane t)
    (hrun : luaInsert N h (Value.table t :: args) = Except.ok h') :
    ∃ pos v, insertArgs N (h.rawLen t) (Value.table t :: args) = some (pos, v) ∧ 1 ≤ pos ∧
      pos ≤ h.rawLen t + 1 ∧ h'.Sane t ∧ h'.arrayOf t = (h.arrayOf t).insertIdx (pos - 1) v := by
  obtain ⟨t', ht', hrun⟩ := except_bind_eq_ok.1 hrun
  obtain rfl := Value.table.inj (checkTable_ok ht')
  match args, hrun with
  | [v], hrun =>
      refine ⟨h.rawLen t + 1, v, rfl, by omega, Nat.le_refl _, ?_⟩
      refine storedInRoom_spec hs (by omega) (Nat.le_refl _) ?_ hrun
      rw [Nat.sub_self]
      rfl
  | [posArg, v], hrun =>
      obtain ⟨pos, hpos, hrun⟩ := except_bind_eq_ok.1 hrun
      have hread := checkPos_ok hpos
      split at hrun
      · obtain ⟨_, hthrow, -⟩ := except_bind_eq_ok.1 hrun
        exact nomatch hthrow
      · rename_i hin
        obtain ⟨h₁, hshift, hstore⟩ := except_bind_eq_ok.1 hrun
        refine ⟨pos.toInt.toNat, v, ?_, by omega, by omega,
          storedInRoom_spec hs (by omega) (by omega) hshift hstore⟩
        change (N.toInteger posArg).map _ = _
        rw [show N.toInteger posArg = some pos from hread]
        rfl
  | [], hrun => exact nomatch hrun
  | _ :: _ :: _ :: _, hrun => exact nomatch hrun

/-- The elements behind `k` close the gap, and the nil behind them stays in the array. -/
theorem gap_spec {k : ℕ} {h₁ : Heap} (hs : h.Sane t) (hk : 0 < k) (hle : k ≤ h.rawLen t + 1)
    (hshift : shiftDown t (h.rawLen t - k) k h = Except.ok h₁)
    (hstore : h₁.storeItem t (max k (h.rawLen t)) Value.nil = Except.ok h') :
    h'.Sane t ∧ h'.arrayOf t = (h.arrayOf t).eraseIdx (k - 1) ++ [Value.nil] := by
  obtain ⟨hs₁, hlen₁, hget₁⟩ : h₁.Sane t ∧ h₁.rawLen t = h.rawLen t ∧
      ∀ i, (h₁.arrayOf t)[i]? = if k ≤ i + 1 ∧ i + 1 < h.rawLen t then
        (h.arrayOf t)[i + 1]? else (h.arrayOf t)[i]? := by
    rcases Nat.lt_or_ge (h.rawLen t) k with hbeyond | hin
    · rw [Nat.sub_eq_zero_of_le (Nat.le_of_lt hbeyond)] at hshift
      obtain rfl := Except.ok.inj hshift
      exact ⟨hs, rfl, fun i => by rw [if_neg (by omega)]⟩
    · have hmoved := shiftDown_spec _ hs hk (by omega) hshift
      rwa [Nat.add_sub_cancel' hin] at hmoved
  obtain ⟨hs₂, -, hget₂⟩ := storeItem_spec hs₁ (by omega) (by omega) hstore
  have hlength : (h.arrayOf t).length = h.rawLen t := rfl
  have hcut : ((h.arrayOf t).eraseIdx (k - 1)).length = max k (h.rawLen t) - 1 := by
    rw [List.length_eraseIdx]
    split <;> omega
  refine ⟨hs₂, List.ext_getElem? fun i => ?_⟩
  rw [hget₂, hget₁]
  rcases Nat.lt_trichotomy i (max k (h.rawLen t) - 1) with hi | rfl | hi
  · rw [if_neg (by omega), List.getElem?_append_left (by omega), List.getElem?_eraseIdx]
    by_cases hmove : k ≤ i + 1
    · rw [if_pos (by omega), if_neg (by omega)]
    · rw [if_neg (by omega), if_pos (by omega)]
  · rw [if_pos rfl, List.getElem?_append_right (by omega), hcut, Nat.sub_self]
    rfl
  · rw [if_neg (by omega), if_neg (by omega), List.getElem?_eq_none (by omega),
      List.getElem?_eq_none]
    rw [List.length_append, hcut, List.length_singleton]
    omega

/-- The elements behind a removal, and a nil. -/
theorem luaRemove_spec {N : NumberRules} {args : List Value} {v : Value} (hs : h.Sane t)
    (hrun : luaRemove N h (Value.table t :: args) = Except.ok (h', v)) :
    ∃ pos, removeArgs N (h.rawLen t) (Value.table t :: args) = some pos ∧
      pos ≤ h.rawLen t + 1 ∧ h'.Sane t ∧
      (pos = 0 → h.rawLen t = 0 ∧ h'.arrayOf t = h.arrayOf t) ∧
      (0 < pos → v = (h.arrayOf t).getD (pos - 1) Value.nil ∧
        h'.arrayOf t = (h.arrayOf t).eraseIdx (pos - 1) ++ [Value.nil]) := by
  have hmax := maxArrayLen_lt
  have hlen := hs.len
  obtain ⟨t', ht', hrun⟩ := except_bind_eq_ok.1 hrun
  obtain rfl := Value.table.inj (checkTable_ok ht')
  obtain ⟨pos, hpos, hrun⟩ := except_bind_eq_ok.1 hrun
  have harg : removeArgs N (h.rawLen t) (Value.table t :: args) = some pos.toNat := by
    unfold removeArgs
    split at hpos
    · rename_i hnil
      obtain rfl := Except.ok.inj hpos
      rw [if_pos hnil, Int.toNat_natCast]
    · rename_i hnil
      rw [if_neg hnil]
      cases hp : N.checkPos ((Value.table t :: args).getD 1 Value.nil) "remove" with
      | error e =>
          rw [hp] at hpos
          exact nomatch hpos
      | ok p =>
          rw [hp] at hpos
          obtain rfl := Except.ok.inj hpos
          rw [checkPos_ok hp]
          rfl
  split at hrun
  · obtain ⟨_, hthrow, -⟩ := except_bind_eq_ok.1 hrun
    exact nomatch hthrow
  rename_i hin
  obtain ⟨h₁, hshift, hrun⟩ := except_bind_eq_ok.1 hrun
  obtain ⟨h₂, hstore, hrun⟩ := except_bind_eq_ok.1 hrun
  obtain ⟨rfl, rfl⟩ := Prod.mk.inj (Except.ok.inj hrun)
  refine ⟨pos.toNat, harg, by omega, ?_⟩
  rcases Nat.eq_zero_or_pos pos.toNat with hzero | hposn
  · -- on an empty list nothing moves, and the nil goes under the key 0
    have hn : h.rawLen t = 0 := by omega
    rw [hzero, hn] at hshift hstore
    obtain rfl := Except.ok.inj hshift
    unfold Heap.storeItem at hstore
    split at hstore
    · rename_i h₃ hset
      obtain rfl := Except.ok.inj hstore
      obtain ⟨hok, hlen', harray⟩ := store?_spec hs.ok hset hs.len
      exact ⟨⟨hok, hlen'⟩, fun _ => ⟨hn, harray⟩, fun hpos' => by omega⟩
    · exact nomatch hstore
  · obtain ⟨hs₂, harray⟩ := gap_spec hs hposn (by omega) hshift hstore
    exact ⟨hs₂, fun hpos' => by omega, fun _ => ⟨rawGet_itemKey hposn (by omega), harray⟩⟩

/-! ### Runs of stores and of calls -/

/-- `table.insert(t, …)` or `table.remove(t, …)`, with the arguments behind the table. -/
inductive ListCall
  | insert (args : List Value)
  | remove (args : List Value)

/-- A heap, and what the last call has returned. -/
structure ListState where
  heap : Heap
  result : Value := Value.nil

/-- One call that returns. -/
def ListCall.step (N : NumberRules) (t : TableId) (s : ListState) : ListCall → Option ListState
  | ListCall.insert args =>
      match luaInsert N s.heap (Value.table t :: args) with
      | Except.ok h => some { heap := h }
      | Except.error _ => none
  | ListCall.remove args =>
      match luaRemove N s.heap (Value.table t :: args) with
      | Except.ok (h, v) => some { heap := h, result := v }
      | Except.error _ => none

/-- What a call does to a list: an insertion shifts the tail up by one, a removal returns the
element and shifts the tail down by one.  Where there is no element, there is nothing to remove. -/
def ListCall.Acts (N : NumberRules) (t : TableId) (s : ListState) (c : ListCall)
    (s' : ListState) : Prop :=
  match c with
  | ListCall.insert args =>
      ∃ pos v, insertArgs N (s.heap.rawLen t) (Value.table t :: args) = some (pos, v) ∧ 1 ≤ pos ∧
        pos ≤ s.heap.rawLen t + 1 ∧
        s'.heap.arrayOf t = (s.heap.arrayOf t).insertIdx (pos - 1) v ∧
        s'.heap.rawLen t = s.heap.rawLen t + 1
  | ListCall.remove args =>
      ∃ pos, removeArgs N (s.heap.rawLen t) (Value.table t :: args) = some pos ∧
        if 1 ≤ pos ∧ pos ≤ s.heap.rawLen t then
          (s.heap.arrayOf t)[pos - 1]? = some s'.result ∧
            s'.heap.arrayOf t = (s.heap.arrayOf t).eraseIdx (pos - 1) ∧
            s'.heap.rawLen t + 1 = s.heap.rawLen t
        else s'.heap.arrayOf t = s.heap.arrayOf t

/-- No nil is put at the end, and nothing is removed but the absent element of an empty list. -/
def ListCall.Meets (N : NumberRules) (t : TableId) (s : ListState) : ListCall → Prop
  | ListCall.insert args =>
      insertArgs N (s.heap.rawLen t) (Value.table t :: args) ≠
        some (s.heap.rawLen t + 1, Value.nil)
  | ListCall.remove args =>
      removeArgs N (s.heap.rawLen t) (Value.table t :: args) = some 0

theorem Heap.Sane.of_store {key value : Value} (hs : h.Sane t)
    (hset : h.store? t key value = some h') : h'.Sane t := by
  obtain ⟨hok, hlen, -⟩ := store?_spec hs.ok hset hs.len
  exact ⟨hok, hlen⟩

theorem ListCall.sane_step {N : NumberRules} {s s' : ListState} {c : ListCall}
    (hs : s.heap.Sane t) (hstep : c.step N t s = some s') : s'.heap.Sane t := by
  unfold ListCall.step at hstep
  split at hstep
  · split at hstep
    · rename_i hrun
      obtain rfl := Option.some.inj hstep
      obtain ⟨-, -, -, -, -, hsane, -⟩ := luaInsert_spec hs hrun
      exact hsane
    · exact nomatch hstep
  · split at hstep
    · rename_i hrun
      obtain rfl := Option.some.inj hstep
      obtain ⟨-, -, -, hsane, -⟩ := luaRemove_spec hs hrun
      exact hsane
    · exact nomatch hstep

/-- The last element of a list with one more element. -/
theorem getLast?_insertIdx {l : List Value} {i : ℕ} {v : Value} (hi : i ≤ l.length) :
    (l.insertIdx i v).getLast? = if i = l.length then some v else l.getLast? := by
  rw [List.getLast?_eq_getElem?, List.length_insertIdx_of_le_length hi, Nat.add_sub_cancel,
    List.getElem?_insertIdx]
  split
  · omega
  · split
    · rename_i hend
      rw [if_pos hend.symm, if_pos (by omega)]
    · rename_i hend
      rw [if_neg (Ne.symm hend), List.getLast?_eq_getElem?]

/-- One call on a list whose length is a border. -/
theorem ListCall.acts_iff {N : NumberRules} {s s' : ListState} {c : ListCall}
    (hs : s.heap.Sane t) (hborder : s.heap.IsBorder t (s.heap.rawLen t))
    (hstep : c.step N t s = some s') :
    (c.Acts N t s s' ∧ s'.heap.IsBorder t (s'.heap.rawLen t)) ↔ c.Meets N t s := by
  have hsane := ListCall.sane_step hs hstep
  rw [isBorder_iff hs.len] at hborder
  rw [isBorder_iff hsane.len]
  cases c with
  | insert args =>
      unfold ListCall.step at hstep
      simp only at hstep
      split at hstep
      · rename_i h' hrun
        obtain rfl := Option.some.inj hstep
        obtain ⟨pos, v, hargs, hpos, hle, -, harray⟩ := luaInsert_spec hs hrun
        have hacts : (ListCall.insert args).Acts N t s { heap := h' } := by
          refine ⟨pos, v, hargs, hpos, hle, harray, ?_⟩
          rw [rawLen_eq, harray, List.length_insertIdx_of_le_length]
          · rfl
          · rw [← rawLen_eq]
            omega
        rw [ListCall.Meets, hargs, harray, getLast?_insertIdx (by rw [← rawLen_eq]; omega),
          ← rawLen_eq]
        constructor
        · rintro ⟨-, hlast⟩ hend
          obtain ⟨rfl, rfl⟩ := Prod.mk.inj (Option.some.inj hend)
          rw [if_pos (Nat.add_sub_cancel _ _)] at hlast
          exact hlast rfl
        · intro hmeets
          refine ⟨hacts, ?_⟩
          split
          · rename_i hend
            intro hnil
            refine hmeets ?_
            rw [Option.some.inj hnil, ← hend, Nat.sub_add_cancel hpos]
          · exact hborder
      · exact nomatch hstep
  | remove args =>
      unfold ListCall.step at hstep
      simp only at hstep
      split at hstep
      · rename_i h' v hrun
        obtain rfl := Option.some.inj hstep
        obtain ⟨pos, hargs, hle, -, hzero, hsome⟩ := luaRemove_spec hs hrun
        rw [ListCall.Meets, hargs]
        rcases Nat.eq_zero_or_pos pos with rfl | hpos
        · obtain ⟨-, harray⟩ := hzero rfl
          refine iff_of_true ⟨⟨0, hargs, ?_⟩, ?_⟩ rfl
          · rw [if_neg (by omega)]
            exact harray
          · rw [harray]
            exact hborder
        · -- the nil at the end is no border
          obtain ⟨-, harray⟩ := hsome hpos
          refine iff_of_false (fun hboth => hboth.2 ?_) ?_
          · rw [harray, List.getLast?_concat]
          · intro hp
            have := Option.some.inj hp
            omega
      · exact nomatch hstep

/-- A store of a key and a value. -/
def storeStep (t : TableId) (h : Heap) (store : Value × Value) : Option Heap :=
  h.store? t store.1 store.2

/-- **In a run of stores the length is a border iff every nil is stored below it, and in a run of
calls of `table.insert` and `table.remove` the table acts as a list whose length is a border iff no
call removes an element or puts a nil at the end.** -/
theorem length_is_border_iff (N : NumberRules) {h : Heap} {t : TableId} (hs : h.Sane t)
    (hborder : h.IsBorder t (h.rawLen t)) :
    (∀ stores h', runSteps (storeStep t) stores h = some h' →
      (EveryStep (storeStep t) (fun _ _ h₂ => h₂.IsBorder t (h₂.rawLen t)) stores h ↔
        EveryStep (storeStep t) (fun h₁ store _ => h₁.KeepsBorder t store) stores h)) ∧
    ∀ calls s', runSteps (ListCall.step N t) calls { heap := h } = some s' →
      (EveryStep (ListCall.step N t)
          (fun s₁ c s₂ => c.Acts N t s₁ s₂ ∧ s₂.heap.IsBorder t (s₂.heap.rawLen t)) calls
          { heap := h } ↔
        EveryStep (ListCall.step N t) (fun s₁ c _ => c.Meets N t s₁) calls { heap := h }) := by
  constructor
  · intro stores h' hrun
    have hkeep : ∀ h₁ store h₂, h₁.Sane t → h₁.IsBorder t (h₁.rawLen t) →
        storeStep t h₁ store = some h₂ →
          (True ∧ h₂.IsBorder t (h₂.rawLen t) ↔ h₁.KeepsBorder t store) := by
      intro h₁ store h₂ hs₁ hb hset
      rw [true_and]
      exact keepsBorder_iff hs₁.ok hset hs₁.len hb
    have hgood : ∀ h₁ store h₂, h₁.Sane t → storeStep t h₁ store = some h₂ → h₂.Sane t :=
      fun _ _ _ hs₁ hset => Heap.Sane.of_store hs₁ hset
    have hruns := run_steps_iff hgood hkeep stores h h' hs hborder hrun
    simpa only [true_and] using hruns
  · intro calls s' hrun
    have hkeep : ∀ s₁ c s₂, s₁.heap.Sane t → s₁.heap.IsBorder t (s₁.heap.rawLen t) →
        ListCall.step N t s₁ c = some s₂ →
          (c.Acts N t s₁ s₂ ∧ s₂.heap.IsBorder t (s₂.heap.rawLen t) ↔ c.Meets N t s₁) :=
      fun _ _ _ hs₁ hb hstep => ListCall.acts_iff hs₁ hb hstep
    have hgood : ∀ s₁ c s₂, s₁.heap.Sane t → ListCall.step N t s₁ c = some s₂ →
        s₂.heap.Sane t := fun _ _ _ hs₁ hstep => ListCall.sane_step hs₁ hstep
    exact run_steps_iff hgood hkeep calls _ s' hs hborder hrun

theorem sane_boot (t : TableId) : Heap.boot.Sane t := ⟨heapOk_boot, Nat.zero_le _⟩

theorem border_boot (t : TableId) : Heap.boot.IsBorder t (Heap.boot.rawLen t) := Or.inl ⟨rfl, rfl⟩

/-- A nil under 1, and a list of one element that loses it. -/
theorem length_is_border_runs :
    ¬ EveryStep (storeStep 0) (fun _ _ h₂ => h₂.IsBorder 0 (h₂.rawLen 0))
        [(Value.integer 1, Value.nil)] Heap.boot ∧
      EveryStep (ListCall.step noTexts 0)
        (fun s₁ c s₂ => c.Acts noTexts 0 s₁ s₂ ∧ s₂.heap.IsBorder 0 (s₂.heap.rawLen 0))
        [ListCall.insert [Value.integer 5], ListCall.insert [Value.integer 1, Value.integer 4]]
        { heap := Heap.boot } := by
  have hboth := length_is_border_iff noTexts (sane_boot 0) (border_boot 0)
  refine ⟨fun hall => ?_, ?_⟩
  · have hkeeps := (hboth.1 [(Value.integer 1, Value.nil)] _ rfl).1 hall [] _ [] _ _ rfl rfl rfl
    exact absurd (hkeeps 1 rfl rfl) (by decide)
  · refine (hboth.2 _ _ rfl).2 ?_
    refine (everyStep_cons rfl).2 ⟨?_, (everyStep_cons rfl).2 ⟨?_, everyStep_nil _⟩⟩
    · exact fun heq => absurd heq (by decide)
    · exact fun heq => absurd heq (by decide)

/-- The removal of the only element of a list leaves the length 1, and no border. -/
theorem length_outlives_elements :
    ¬ ∀ calls s', runSteps (ListCall.step noTexts 0) calls { heap := Heap.boot } = some s' →
        s'.heap.IsBorder 0 (s'.heap.rawLen 0) := by
  intro hall
  have hborder := hall [ListCall.insert [Value.integer 5], ListCall.remove []] _ rfl
  rcases hborder with ⟨hzero, -⟩ | ⟨-, hlast, -⟩
  · exact absurd hzero (by decide)
  · exact hlast rfl

end Tcvm
