/-
The instruction set and prototypes.

Registers, upvalue indices and constant indices are natural numbers here; the compiler keeps the
bounds of their encodings (`u8`, `u16`) where the source computes with them.

* `Instruction` — the opcodes with their operands;
* `UpValueDescriptor` — how a closure captures an upvalue;
* `Prototype` — a compiled function.
-/

import Tcvm.LuaValue

namespace Tcvm

/-- The opcodes. -/
inductive Instruction
  | move (dst src : ℕ)
  | load (dst idx : ℕ)
  | lfalseskip (src : ℕ)
  | getupval (dst idx : ℕ)
  | setupval (src idx : ℕ)
  | gettabup (dst idx icIdx key : ℕ)
  | settabup (src idx icIdx key : ℕ)
  | gettable (dst table key : ℕ)
  | settable (src table key : ℕ)
  | getfield (dst table icIdx keyIdx : ℕ)
  | setfield (src table icIdx keyIdx : ℕ)
  | self (dst object keyIdx : ℕ)
  | newtable (dst : ℕ)
  | add (dst lhs rhs : ℕ)
  | sub (dst lhs rhs : ℕ)
  | mul (dst lhs rhs : ℕ)
  | mod (dst lhs rhs : ℕ)
  | pow (dst lhs rhs : ℕ)
  | div (dst lhs rhs : ℕ)
  | idiv (dst lhs rhs : ℕ)
  | band (dst lhs rhs : ℕ)
  | bor (dst lhs rhs : ℕ)
  | bxor (dst lhs rhs : ℕ)
  | shl (dst lhs rhs : ℕ)
  | shr (dst lhs rhs : ℕ)
  | unm (dst src : ℕ)
  | bnot (dst src : ℕ)
  | not (dst src : ℕ)
  | len (dst src : ℕ)
  | concat (dst lhs rhs : ℕ)
  | close (start : ℕ)
  | tbc (val : ℕ)
  | jmp (offset : ℤ)
  | eq (lhs rhs : ℕ) (inverted : Bool)
  | lt (lhs rhs : ℕ) (inverted : Bool)
  | le (lhs rhs : ℕ) (inverted : Bool)
  | test (src : ℕ) (inverted : Bool)
  | testset (dst src : ℕ) (inverted : Bool)
  | call (func args returns : ℕ)
  | tailcall (func args : ℕ)
  | return (values count : ℕ)
  | forloop (base : ℕ) (offset : ℤ)
  | forprep (base : ℕ) (offset : ℤ)
  | tforprep (base : ℕ) (offset : ℤ)
  | tforcall (base count : ℕ)
  | tforloop (base : ℕ) (offset : ℤ)
  | setlist (table count offset : ℕ)
  | closure (dst proto : ℕ)
  | vararg (dst count : ℕ)
  | varargget (dst base key : ℕ)
  | varargprep (numFixed : ℕ)
  | errnnil (src nameKey : ℕ)
  | nop
  | stop
  deriving DecidableEq

/-- How to capture an upvalue when creating a closure. -/
inductive UpValueDescriptor
  | parentLocal (register : ℕ)
  | parentUpvalue (index : ℕ)
  deriving DecidableEq

/-- A compiled function. -/
structure Prototype where
  code : List Instruction
  constants : List Value
  prototypes : List Prototype
  upvalueDesc : List UpValueDescriptor
  numParams : ℕ
  isVararg : Bool
  needsVarargTable : Bool
  maxStackSize : ℕ
  numUpvalues : ℕ
  /-- The length of the inline-cache table. -/
  icTable : ℕ

end Tcvm
