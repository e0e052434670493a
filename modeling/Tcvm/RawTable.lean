/-
# Tables as finite maps on Lua keys

`raw_get` and `raw_set` against the map of the language.  The language has one key for an integer
and for the float equal to it, and no key at all for nil and NaN; the table routes a key by its
type and value to the shape, the array or the misc hash.  The two agree on positive integers, and
on every key that is not a number.

## Main definitions

* `f64ToInt?`, `f64IsNan` — the integer a double is equal to, and the doubles that are not a
  number;
* `Value.normKey`, `Value.isKey` — the key of the language a value stands for;
* `rawMachine`, `mapMachine` — runs of raw reads and writes, on the heap and on the map;
* `KeysApart` — the keys on which the two have to agree.

## Main results

* `keyOf_eq_iff` — two keys are routed to the same place exactly when the language identifies
  them, on keys that are apart;
* `rawMachine_step`, `rawMachine_run` — operations on such keys keep heap and map in agreement;
* **`raw_tables_are_maps`** — the operations over a set of keys obey the map in every run exactly
  when the keys are apart.
-/

import Mathlib.Algebra.Group.Int.Defs
import Tcvm.InlineCache

namespace Tcvm

/-! ### Keys of the language -/

/-- The integer a finite double is equal to, if any. -/
def f64ToInt? (bits : UInt64) : Option ℤ :=
  if bits.toNat / 2 ^ 63 = 1 then
    (f64ToNat? (UInt64.ofNat (bits.toNat - 2 ^ 63))).map fun n : ℕ => -(n : ℤ)
  else (f64ToNat? bits).map fun n : ℕ => (n : ℤ)

/-- All exponent bits set, and a mantissa. -/
def f64IsNan (bits : UInt64) : Bool :=
  bits.toNat / 2 ^ 52 % 2 ^ 11 == 2047 && bits.toNat % 2 ^ 52 != 0

namespace Value

/-- The key a value is normalised to: a float with an integral value in the range of an integer
is that integer. -/
def normKey : Value → Value
  | float bits =>
      match f64ToInt? bits with
      | some z => if -2 ^ 63 ≤ z ∧ z < 2 ^ 63 then integer (Int64.ofInt z) else float bits
      | none => float bits
  | key => key

/-- Every value but nil and NaN is a key. -/
def isKey : Value → Bool
  | nil => false
  | float bits => !f64IsNan bits
  | _ => true

end Value

/-! ### The two machines -/

/-- A raw operation. -/
inductive RawOp
  | get (t : TableId) (key : Value)
  | set (t : TableId) (key value : Value)
  deriving DecidableEq

/-- The most values a `Vec` can hold: a value takes 16 bytes, and an allocation at most
`isize::MAX`. -/
def maxArrayLen : ℕ := (2 ^ 63 - 1) / 16

/-- `self.array.resize` fails with a capacity overflow. -/
def Heap.overflows (h : Heap) (t : TableId) (key : Value) : Bool :=
  match arrayIndex key with
  | some index => h.rawLen t < index && maxArrayLen < index
  | none => false

/-- One raw operation on the heap. -/
def rawStep (h : Heap) : RawOp → Heap × Outcome
  | RawOp.get t key => (h, Outcome.value (h.rawGet t key))
  | RawOp.set t key value =>
      if h.overflows t key then (h, Outcome.panic) else h.rawSetOp t key value

/-- One raw operation on the map of the language. -/
def mapStep (m : TableStore TableId Value Value) :
    RawOp → TableStore TableId Value Value × Outcome
  | RawOp.get t key => (m, Outcome.value (m.content t key.normKey))
  | RawOp.set t key value =>
      if key.isKey then (m.set t key.normKey value, Outcome.done) else (m, Outcome.raise)

def rawMachine : Machine Heap RawOp Outcome := { step := rawStep }

def mapMachine : Machine (TableStore TableId Value Value) RawOp Outcome := { step := mapStep }

/-- The map with no entry. -/
def TableStore.empty : TableStore TableId Value Value :=
  { content := fun _ _ => Value.nil, metatable := fun _ => none }

/-- A heap all of whose tables are empty. -/
structure Heap.Fresh (h : Heap) : Prop where
  ok : HeapOk h
  empty : ∀ t key, h.rawGet t key = Value.nil
  len : ∀ t, h.rawLen t ≤ maxArrayLen

theorem fresh_boot : Heap.boot.Fresh := by
  refine ⟨heapOk_boot, ?_, fun t => Nat.zero_le _⟩
  intro t key
  rw [Heap.rawGet_eq]
  cases keyOf key with
  | str s => rfl
  | pos i => rfl
  | misc v => rfl

/-- Stores under the keys `S` and reads under the keys `R`, table by table. -/
def RawOp.Uses (S R : TableId → Set Value) : RawOp → Prop
  | get t key => key ∈ R t
  | set t key _ => key ∈ S t

/-- Stores only under keys of the language, no array index beyond what a vector can hold, and no
integer that is not positive stored under one representation and read under another one. -/
structure KeysApart (S R : TableId → Set Value) : Prop where
  isKey : ∀ t, ∀ key ∈ S t, key.isKey = true
  index : ∀ t, ∀ key ∈ S t, ∀ index, arrayIndex key = some index → index ≤ maxArrayLen
  nonPos : ∀ t, ∀ key ∈ S t, ∀ key' ∈ R t, ∀ i : Int64, i.toInt ≤ 0 →
    key.normKey = Value.integer i → key'.normKey = Value.integer i → key' = key

/-! ### Routing and normalisation -/

/-- A double with its sign bit set is no natural number. -/
theorem f64ToNat?_of_sign {bits : UInt64} (hsign : bits.toNat / 2 ^ 63 = 1) :
    f64ToNat? bits = none := by
  unfold f64ToNat?
  exact if_pos (Or.inl hsign)

/-- An array index is below the first one a float rounds to, or it is the saturated one. -/
theorem normKey_of_arrayIndex {key : Value} {index : ℕ} (h : arrayIndex key = some index)
    (hlt : index < 2 ^ 63 - 1) : key.normKey = Value.integer (Int64.ofInt index) := by
  cases key with
  | integer i =>
      simp only [arrayIndex] at h
      split at h
      case isFalse => exact absurd h (by simp)
      case isTrue hpos =>
        have hindex : (index : ℤ) = i.toInt := by
          have := Option.some.inj h
          omega
        rw [hindex, Int64.ofInt_toInt]
        rfl
  | float bits =>
      simp only [arrayIndex] at h
      cases hn : f64ToNat? bits with
      | none => simp [hn] at h
      | some n =>
          have hsign : bits.toNat / 2 ^ 63 ≠ 1 := by
            intro hs
            exact absurd (hn.symm.trans (f64ToNat?_of_sign hs)) (by simp)
          have hz : f64ToInt? bits = some (n : ℤ) := by
            unfold f64ToInt?
            rw [if_neg hsign, hn]
            rfl
          have hindex : n = index ∧ n < 2 ^ 63 := by
            simp only [hn] at h
            split at h
            · exact absurd h (by simp)
            · split at h
              · exact ⟨Option.some.inj h, by assumption⟩
              · split at h
                · have := Option.some.inj h
                  omega
                · exact absurd h (by simp)
          have hrange : -2 ^ 63 ≤ (n : ℤ) ∧ (n : ℤ) < 2 ^ 63 := by omega
          simp only [Value.normKey, hz]
          rw [if_pos hrange, hindex.1]
  | _ => simp [arrayIndex] at h

/-- A key equal to an integer is routed to the array exactly when the integer is positive. -/
theorem arrayIndex_of_normKey {key : Value} {i : Int64} (h : key.normKey = Value.integer i) :
    arrayIndex key = if 1 ≤ i.toInt then some i.toInt.toNat else none := by
  cases key with
  | integer j =>
      obtain rfl : j = i := by simpa [Value.normKey] using h
      rfl
  | float bits =>
      simp only [Value.normKey] at h
      split at h
      case h_2 => exact absurd h (by simp)
      case h_1 z hz =>
        split at h
        case isFalse => exact absurd h (by simp)
        case isTrue hrange =>
          have hi : i.toInt = z := by
            obtain rfl : Int64.ofInt z = i := by simpa using h
            exact Int64.toInt_ofInt_of_le hrange.1 (by omega)
          unfold f64ToInt? at hz
          split at hz
          case isTrue hsign =>
            -- a negative double, or negative zero
            obtain ⟨n, -, hn⟩ := Option.map_eq_some_iff.1 hz
            have hnone : f64ToNat? bits = none := f64ToNat?_of_sign hsign
            simp only [arrayIndex, hnone]
            rw [if_neg (by omega)]
          case isFalse =>
            obtain ⟨n, hn, hnz⟩ := Option.map_eq_some_iff.1 hz
            have hlt : n < 2 ^ 63 := by omega
            simp only [arrayIndex, hn, hi, ← hnz, Int.toNat_natCast]
            by_cases hn0 : n = 0
            · rw [if_pos hn0, if_neg (by omega)]
            · rw [if_neg hn0, if_pos hlt, if_pos (by omega)]
  | _ => simp [Value.normKey] at h

/-- Only integers are the result of a normalisation that changes something. -/
theorem normKey_eq_self {key : Value} (h : ∀ i, key.normKey ≠ Value.integer i) :
    key.normKey = key := by
  cases key with
  | float bits =>
      simp only [Value.normKey] at h ⊢
      cases hz : f64ToInt? bits with
      | none => rfl
      | some z =>
          simp only [hz] at h ⊢
          refine if_neg fun hrange => h (Int64.ofInt z) ?_
          rw [if_pos hrange]
  | _ => rfl

/-- The routing decides the key of the language: two keys that are routed to one place are
identified, if their array index is not the saturated one. -/
theorem normKey_eq_of_keyOf_eq {key key' : Value}
    (hindex : ∀ index, arrayIndex key = some index → index < 2 ^ 63 - 1)
    (h : keyOf key' = keyOf key) : key'.normKey = key.normKey := by
  cases hk : arrayIndex key with
  | some index =>
      rw [keyOf_of_arrayIndex_some hk] at h
      cases hk' : arrayIndex key' with
      | some index' =>
          rw [keyOf_of_arrayIndex_some hk', Key.pos.injEq] at h
          have hpos := arrayIndex_pos hk
          have hpos' := arrayIndex_pos hk'
          obtain rfl : index' = index := by omega
          rw [normKey_of_arrayIndex hk (hindex _ hk), normKey_of_arrayIndex hk' (hindex _ hk)]
      | none => cases key' <;> simp [keyOf, hk'] at h
  | none =>
      suffices hkk : key' = key by rw [hkk]
      cases hk' : arrayIndex key' with
      | some index' =>
          rw [keyOf_of_arrayIndex_some hk'] at h
          cases key <;> simp [keyOf, hk] at h
      | none => cases key <;> cases key' <;> simp_all [keyOf]

/-- **Routing agrees with normalisation** between a key that is stored and a key that is read. -/
theorem keyOf_eq_iff {key key' : Value}
    (hindex : ∀ index, arrayIndex key = some index → index ≤ maxArrayLen)
    (hone : ∀ i : Int64, i.toInt ≤ 0 → key.normKey = Value.integer i →
      key'.normKey = Value.integer i → key' = key) :
    keyOf key' = keyOf key ↔ key'.normKey = key.normKey := by
  constructor
  · exact normKey_eq_of_keyOf_eq fun index h =>
      Nat.lt_of_le_of_lt (hindex index h) (by decide)
  · intro h
    by_cases hint : ∃ i, key.normKey = Value.integer i
    · obtain ⟨i, hi⟩ := hint
      by_cases hpos : 1 ≤ i.toInt
      · have hk := arrayIndex_of_normKey hi
        have hk' := arrayIndex_of_normKey (h.trans hi)
        rw [if_pos hpos] at hk hk'
        rw [keyOf_of_arrayIndex_some hk, keyOf_of_arrayIndex_some hk']
      · rw [hone i (by omega) hi (h.trans hi)]
    · have hself := normKey_eq_self fun i hi => hint ⟨i, hi⟩
      have hself' := normKey_eq_self fun i hi => hint ⟨i, h ▸ hi⟩
      rw [← hself', h, hself]

/-! ### Runs -/

/-- A heap and a map that agree on the keys that are read. -/
structure Agree (R : TableId → Set Value) (h : Heap) (m : TableStore TableId Value Value) :
    Prop where
  ok : HeapOk h
  get : ∀ t, ∀ key ∈ R t, h.rawGet t key = m.content t key.normKey

/-- A store under a key that is apart from the keys that are read. -/
theorem rawSet_agree {S R : TableId → Set Value} (hapart : KeysApart S R) {h h' : Heap}
    {m : TableStore TableId Value Value} (hagree : Agree R h m) {t : TableId} {key value : Value}
    (hkey : key ∈ S t) (hset : h.rawSet t key value = some h') :
    Agree R h' (m.set t key.normKey value) := by
  obtain ⟨hok', hstore, -, -⟩ := rawSet_spec hagree.ok hset
  refine ⟨hok', ?_⟩
  intro t' key' hkey'
  rw [Heap.rawGet_eq, hstore, TableStore.content_set, TableStore.content_set, ← Heap.rawGet_eq,
    hagree.get t' key' hkey']
  by_cases ht : t' = t
  · subst ht
    have hiff := keyOf_eq_iff (hapart.index t' key hkey) (hapart.nonPos t' key hkey key' hkey')
    simp only [hiff]
  · simp only [ht, false_and]

/-- **One operation** keeps heap and map in agreement, and both answer the same. -/
theorem rawMachine_step {S R : TableId → Set Value} (hapart : KeysApart S R) {h : Heap}
    {m : TableStore TableId Value Value} (op : RawOp) (hop : op.Uses S R)
    (hagree : Agree R h m) :
    Agree R (rawStep h op).1 (mapStep m op).1 ∧ (rawStep h op).2 = (mapStep m op).2 := by
  cases op with
  | get t key =>
      refine ⟨hagree, ?_⟩
      simp only [rawStep, mapStep, hagree.get t key hop]
  | set t key value =>
      have hisKey := hapart.isKey t key hop
      have hroom : h.overflows t key = false := by
        unfold Heap.overflows
        cases hi : arrayIndex key with
        | none => rfl
        | some index =>
            have := hapart.index t key hop index hi
            simp only [Bool.and_eq_false_iff, decide_eq_false_iff_not]
            exact Or.inr (by omega)
      have hnil : key ≠ Value.nil := by
        rintro rfl
        exact absurd hisKey (by decide)
      simp only [rawStep, mapStep, hroom, hisKey, if_true, Bool.false_eq_true, if_false,
        Heap.rawSetOp]
      cases hset : h.rawSet t key value with
      | none => exact absurd (rawSet_eq_none_iff.1 hset) hnil
      | some h' => exact ⟨rawSet_agree hapart hagree hop hset, rfl⟩

/-- The runs over keys that are apart answer as the map does. -/
theorem rawMachine_run {S R : TableId → Set Value} (hapart : KeysApart S R) {h : Heap}
    (hfresh : h.Fresh) (ops : List RawOp) (hops : ∀ op ∈ ops, op.Uses S R) :
    (rawMachine.run h ops).2 = (mapMachine.run TableStore.empty ops).2 := by
  have hagree : Agree R h TableStore.empty := ⟨hfresh.ok, fun t key _ => hfresh.empty t key⟩
  obtain ⟨-, hout⟩ := Machine.run_of_forall (M := rawMachine) (N := mapMachine) (f := id)
    (fun h m op hop hrel => rawMachine_step hapart op hop hrel) hagree ops hops
  rwa [List.map_id] at hout

/-! ### The keys the table gets wrong -/

/-- A store never reports an error. -/
theorem rawStep_set_ne_raise (h : Heap) (t : TableId) (key value : Value) :
    (rawStep h (RawOp.set t key value)).2 ≠ Outcome.raise := by
  simp only [rawStep]
  split
  · simp
  · unfold Heap.rawSetOp
    split <;> simp

/-- A store of the map never panics. -/
theorem mapStep_ne_panic (m : TableStore TableId Value Value) (op : RawOp) :
    (mapStep m op).2 ≠ Outcome.panic := by
  cases op with
  | get t key => simp [mapStep]
  | set t key value =>
      simp only [mapStep]
      split <;> simp

/-- A value stored under an integer that is not positive is not found under another
representation of the integer. -/
theorem rawGet_of_nonPos {h : Heap} (hfresh : h.Fresh) {t : TableId} {key key' value : Value}
    {i : Int64} (hle : i.toInt ≤ 0) (hkey : key.normKey = Value.integer i)
    (hkey' : key'.normKey = Value.integer i) (hne : key' ≠ key) :
    (rawMachine.run h [RawOp.set t key value, RawOp.get t key']).2 =
      [Outcome.done, Outcome.value Value.nil] := by
  have hpart : ∀ k : Value, k.normKey = Value.integer i →
      arrayIndex k = none ∧ keyOf k = Key.misc k ∧ k ≠ Value.nil := by
    intro k hk
    have hindex := arrayIndex_of_normKey hk
    rw [if_neg (by omega)] at hindex
    refine ⟨hindex, keyOf_of_arrayIndex_none ?_ hindex, ?_⟩
    · rintro s rfl
      simp [Value.normKey] at hk
    · rintro rfl
      simp [Value.normKey] at hk
  obtain ⟨hindex, hmisc, hnil⟩ := hpart key hkey
  obtain ⟨-, hmisc', -⟩ := hpart key' hkey'
  have hroom : h.overflows t key = false := by
    simp only [Heap.overflows, hindex]
  cases hset : h.rawSet t key value with
  | none => exact absurd (rawSet_eq_none_iff.1 hset) hnil
  | some h' =>
      have hget : h'.rawGet t key' = Value.nil := by
        rw [Heap.rawGet_eq, (rawSet_spec hfresh.ok hset).store, TableStore.content_set, hmisc,
          hmisc', if_neg (by simp [hne]), ← hmisc', ← Heap.rawGet_eq, hfresh.empty]
      simp only [Machine.run_cons, Machine.run_nil, rawMachine, rawStep, hroom, Heap.rawSetOp,
        hset, hget, Bool.false_eq_true, if_false]

/-- **Tables are finite maps on keys that are apart**, and on no others: the stores under the keys
`S` and the reads under the keys `R` answer as the map of the language does, in every run, exactly
when the keys are apart. -/
theorem raw_tables_are_maps {h : Heap} (hfresh : h.Fresh) (S R : TableId → Set Value) :
    (∀ ops : List RawOp, (∀ op ∈ ops, op.Uses S R) →
      (rawMachine.run h ops).2 = (mapMachine.run TableStore.empty ops).2) ↔ KeysApart S R := by
  constructor
  · intro hruns
    have hset : ∀ t, ∀ key ∈ S t, ∀ value,
        (rawStep h (RawOp.set t key value)).2 =
          (mapStep TableStore.empty (RawOp.set t key value)).2 := by
      intro t key hkey value
      have hrun := hruns [RawOp.set t key value] fun op hop => by
        obtain rfl := List.mem_singleton.1 hop
        exact hkey
      simpa [rawMachine, mapMachine] using hrun
    refine ⟨?_, ?_, ?_⟩
    · intro t key hkey
      by_contra hno
      have hout := hset t key hkey Value.nil
      simp only [mapStep, if_neg hno] at hout
      exact rawStep_set_ne_raise h t key Value.nil hout
    · intro t key hkey index hindex
      by_contra hbig
      have hlen := hfresh.len t
      have hover : h.overflows t key = true := by
        simp only [Heap.overflows, hindex, Bool.and_eq_true, decide_eq_true_eq]
        omega
      have hout := hset t key hkey Value.nil
      simp only [rawStep, hover, if_true] at hout
      exact mapStep_ne_panic _ _ hout.symm
    · intro t key hkey key' hkey' i hle hi hi'
      by_contra hne
      have hrun := hruns [RawOp.set t key (Value.boolean true), RawOp.get t key'] fun op hop => by
        rcases List.mem_pair.1 hop with rfl | rfl
        · exact hkey
        · exact hkey'
      rw [rawGet_of_nonPos hfresh hle hi hi' hne] at hrun
      have hout := congrArg (fun l => l[1]?) hrun
      have hisKey : key.isKey = true := by
        by_contra hno
        have hfirst := congrArg (fun l => l[0]?) hrun
        simp [mapMachine, mapStep, hno] at hfirst
      simp [mapMachine, mapStep, hisKey, TableStore.content_set, hi, hi'] at hout
  · intro hapart ops hops
    exact rawMachine_run hapart hfresh ops hops

/-- The integer one and the float one are one key. -/
theorem raw_tables_are_maps_one :
    (rawMachine.run Heap.boot [RawOp.set 0 (Value.integer 1) (Value.boolean true),
        RawOp.get 0 (Value.float 0x3FF0000000000000)]).2 =
      (mapMachine.run TableStore.empty [RawOp.set 0 (Value.integer 1) (Value.boolean true),
        RawOp.get 0 (Value.float 0x3FF0000000000000)]).2 := by
  refine (raw_tables_are_maps fresh_boot (fun _ => {Value.integer 1})
    (fun _ => {Value.float 0x3FF0000000000000})).2 ⟨?_, ?_, ?_⟩ _ ?_
  · rintro t key rfl
    rfl
  · rintro t key rfl index hindex
    have : index = 1 := (Option.some.inj hindex).symm
    subst this
    decide
  · rintro t key rfl key' rfl i hle hi -
    obtain rfl : (1 : Int64) = i := by simpa [Value.normKey] using hi
    exact absurd hle (by decide)
  · intro op hop
    rcases List.mem_pair.1 hop with rfl | rfl <;> exact rfl

/-- The integer zero and the float zero are two keys. -/
theorem not_map_zero :
    ¬ (rawMachine.run Heap.boot [RawOp.set 0 (Value.integer 0) (Value.boolean true),
        RawOp.get 0 (Value.float 0)]).2 =
      (mapMachine.run TableStore.empty [RawOp.set 0 (Value.integer 0) (Value.boolean true),
        RawOp.get 0 (Value.float 0)]).2 := by
  have hint : (Value.integer 0).normKey = Value.integer 0 := rfl
  have hfloat : (Value.float 0).normKey = Value.integer 0 := by
    have hzero : f64ToNat? 0 = some 0 := by
      simp only [f64ToNat?, UInt64.toNat_zero, Nat.zero_div, Nat.zero_mod, if_true]
      simp
    simp only [Value.normKey, f64ToInt?, UInt64.toNat_zero, hzero]
    rfl
  rw [rawGet_of_nonPos fresh_boot (by decide) hint hfloat (by decide)]
  intro h
  have hout := congrArg (fun l => l[1]?) h
  simp [mapMachine, mapStep, Value.isKey, TableStore.content_set, hint, hfloat] at hout

end Tcvm
