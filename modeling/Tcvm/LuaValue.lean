/-
Lua values and the metamethod names the runtime tracks.

A value is a kind and a payload, and two values are equal when both agree (`Value` derives
`PartialEq` on the pair), so equality here is the structural one: a float is its bit pattern,
strings are interned and therefore equal exactly when their bytes are, and everything else on the
heap is an address.

* `LuaString`, `Value`, `Value.isFalsy` — byte strings, values and truthiness;
* `Metamethod`, `Metamethod.name` — the rows of `for_each_metamethod`;
* `metamethodBitOfBytes` — the metamethod a key names, if any;
* `arrayIndex` — the positive array index a key denotes, if any;
* `metamethodBitOfBytes_eq_some` — a key names at most one metamethod, the one with that name.
-/

import Mathlib.Algebra.Group.Nat.Defs
import Mathlib.Data.List.Basic

namespace Tcvm

/-- An interned byte string: its identity is its bytes. -/
abbrev LuaString := List UInt8

/-- The bytes of an ASCII text. -/
def bytes (s : String) : LuaString := s.toList.map fun c => c.toNat.toUInt8

/-- The address of a table on the heap. -/
abbrev TableId := ℕ

/-- A Lua value. -/
inductive Value
  | nil
  | boolean (b : Bool)
  | integer (i : Int64)
  /-- A double, given by its bits. -/
  | float (bits : UInt64)
  | string (s : LuaString)
  | table (t : TableId)
  | function (f : ℕ)
  | thread (t : ℕ)
  | userdata (u : ℕ)
  deriving DecidableEq

namespace Value

/-- `nil` and `false` are falsy, everything else is truthy. -/
def isFalsy : Value → Bool
  | nil => true
  | boolean b => !b
  | _ => false

def isNil : Value → Bool
  | nil => true
  | _ => false

@[simp] theorem isNil_iff (v : Value) : v.isNil = true ↔ v = nil := by
  cases v <;> simp [isNil]

@[simp] theorem isNil_eq_false_iff (v : Value) : v.isNil = false ↔ v ≠ nil := by
  cases v <;> simp [isNil]

end Value

/-! ### Array indices -/

/-- The natural number a finite non-negative double is equal to, if any. -/
def f64ToNat? (bits : UInt64) : Option ℕ :=
  let b := bits.toNat
  let e := b / 2 ^ 52 % 2 ^ 11
  let m := if e = 0 then b % 2 ^ 52 else b % 2 ^ 52 + 2 ^ 52
  let e' := max e 1
  if b / 2 ^ 63 = 1 ∨ e = 2047 then none
  else if 1075 ≤ e' then some (m * 2 ^ (e' - 1075))
  else if m % 2 ^ (1075 - e') = 0 then some (m / 2 ^ (1075 - e'))
  else none

/-- Extract a valid array index from a key (1-based positive integer).  The cast `f as i64`
saturates, so the double `2^63` passes the round-trip test and denotes the index `i64::MAX`. -/
def arrayIndex : Value → Option ℕ
  | Value.integer i => if 1 ≤ i.toInt then some i.toInt.toNat else none
  | Value.float bits =>
      match f64ToNat? bits with
      | some n =>
          if n = 0 then none
          else if n < 2 ^ 63 then some n
          else if n = 2 ^ 63 then some (2 ^ 63 - 1)
          else none
      | none => none
  | _ => none

/-! ### Metamethods -/

/-- The tracked metamethods, in bit order. -/
inductive Metamethod
  | index | newindex | add | sub | mul | div | mod | pow | idiv | band | bor | bxor | bnot | shl
  | shr | unm | eq | lt | le | concat | len | call | tostring
  deriving DecidableEq, Repr

namespace Metamethod

/-- The Lua name of a metamethod. -/
def name : Metamethod → LuaString
  | index => bytes "__index"
  | newindex => bytes "__newindex"
  | add => bytes "__add"
  | sub => bytes "__sub"
  | mul => bytes "__mul"
  | div => bytes "__div"
  | mod => bytes "__mod"
  | pow => bytes "__pow"
  | idiv => bytes "__idiv"
  | band => bytes "__band"
  | bor => bytes "__bor"
  | bxor => bytes "__bxor"
  | bnot => bytes "__bnot"
  | shl => bytes "__shl"
  | shr => bytes "__shr"
  | unm => bytes "__unm"
  | eq => bytes "__eq"
  | lt => bytes "__lt"
  | le => bytes "__le"
  | concat => bytes "__concat"
  | len => bytes "__len"
  | call => bytes "__call"
  | tostring => bytes "__tostring"

/-- All rows of `METAMETHOD_TABLE`. -/
def all : List Metamethod :=
  [index, newindex, add, sub, mul, div, mod, pow, idiv, band, bor, bxor, bnot, shl, shr, unm, eq,
    lt, le, concat, len, call, tostring]

end Metamethod

/-- Map a key's bytes to its metamethod, if any. -/
def metamethodBitOfBytes (name : LuaString) : Option Metamethod :=
  if (bytes "__").isPrefixOf name then Metamethod.all.find? fun m => m.name == name else none

theorem metamethodBitOfBytes_name (m : Metamethod) : metamethodBitOfBytes m.name = some m := by
  cases m <;> decide

/-- A key names a metamethod exactly when it is that metamethod's name. -/
theorem metamethodBitOfBytes_eq_some {name : LuaString} {m : Metamethod} :
    metamethodBitOfBytes name = some m ↔ name = m.name := by
  constructor
  · intro h
    unfold metamethodBitOfBytes at h
    split at h
    · have hm := List.find?_some h
      exact (by simpa using hm : m.name = name).symm
    · exact absurd h (by simp)
  · rintro rfl
    exact metamethodBitOfBytes_name m

end Tcvm
