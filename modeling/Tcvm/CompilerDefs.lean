/-
The compiler's data: expression descriptors, chunks, variables and errors.

A compilation is a computation with the function's context as its state.  It fails with a compile
error, or with a panic where the source asserts, indexes out of range, or overflows a `u8` in
checked arithmetic.  Debug assertions are left out: they are not part of a release build.

* `ExprKind`, `ExprDesc`, `Want` — where an expression's value lives;
* `VarKind`, `ConstVal`, `VariableData`, `GlobalEnv` — variables and global declarations;
* `Chunk`, `Ctx`, `Enclosing` — the state of a function's compilation;
* `CompileError`, `Fault`, `CompileM` — failure.
-/

import Tcvm.Instruction
import Tcvm.StateExcept
import Tcvm.Syntax

namespace Tcvm

/-- Sentinel `dst` of a `TESTSET` whose destination is still unknown. -/
def noReg : ℕ := 255

/-! ### Expression descriptors -/

/-- Numeric literal value; a float is given by its bits. -/
inductive Numeral
  | int (i : Int64)
  | float (bits : UInt64)
  deriving DecidableEq

/-- Result-count request for a multires-capable expression. -/
inductive Want
  | exact (n : ℕ)
  | multRet
  deriving DecidableEq

/-- The shape of an expression's current representation. -/
inductive ExprKind
  | reg (r : ℕ)
  /-- Truthiness encoded by jumps, with an optional pending head. -/
  | jump (pending : Option ℕ)
  | numeral (n : Numeral)
  | bool (b : Bool)
  | nil
  deriving DecidableEq

/-- Where an expression's value lives, with its pending short-circuit jumps: tape indices of `JMP`
instructions that fire on truthy and on falsy. -/
structure ExprDesc where
  kind : ExprKind
  trueList : List ℕ
  falseList : List ℕ
  deriving DecidableEq

namespace ExprDesc

def fromReg (r : ℕ) : ExprDesc := ⟨ExprKind.reg r, [], []⟩

def fromNumeral (n : Numeral) : ExprDesc := ⟨ExprKind.numeral n, [], []⟩

def fromBool (b : Bool) : ExprDesc := ⟨ExprKind.bool b, [], []⟩

def fromNil : ExprDesc := ⟨ExprKind.nil, [], []⟩

def hasJumps (e : ExprDesc) : Bool :=
  !e.trueList.isEmpty || !e.falseList.isEmpty ||
    (match e.kind with
      | ExprKind.jump (some _) => true
      | _ => false)

end ExprDesc

/-- The runtime value of a constant kind. -/
def constKindToValue : ExprKind → Option Value
  | ExprKind.numeral (Numeral.int i) => some (Value.integer i)
  | ExprKind.numeral (Numeral.float b) => some (Value.float b)
  | ExprKind.bool b => some (Value.boolean b)
  | ExprKind.nil => some Value.nil
  | ExprKind.reg _ => none
  | ExprKind.jump _ => none

/-- The host's floating-point arithmetic, which constant folding calls: `try_fold_binop` and
`exact_float_to_int`. -/
structure NumOps where
  tryFoldBinop : BinaryOperator → Numeral → Numeral → Option Numeral
  exactFloatToInt : UInt64 → Option Int64

/-! ### Variables -/

/-- Compile-time value of a `<const>` local. -/
inductive ConstVal
  | numeral (n : Numeral)
  | bool (b : Bool)
  | nil
  deriving DecidableEq

namespace ConstVal

def fromExprKind : ExprKind → Option ConstVal
  | ExprKind.numeral n => some (ConstVal.numeral n)
  | ExprKind.bool b => some (ConstVal.bool b)
  | ExprKind.nil => some ConstVal.nil
  | _ => none

def toExprDesc : ConstVal → ExprDesc
  | numeral n => ExprDesc.fromNumeral n
  | bool b => ExprDesc.fromBool b
  | nil => ExprDesc.fromNil

end ConstVal

/-- Local variable kind. -/
inductive VarKind
  | reg
  /-- `<const>`, with its value when the initializer folded; loop variables. -/
  | const (value : Option ConstVal)
  | toClose
  | varargParam
  /-- A `global` declaration, which shadows a local of its name and has no register. -/
  | global
  deriving DecidableEq

def VarKind.isConst : VarKind → Bool
  | const _ => true
  | _ => false

structure VariableData where
  register : ℕ
  kind : VarKind
  deriving DecidableEq

/-- One frame of the lexical scope: the latest binding of a name comes first. -/
abbrev Scope := List (Name × VariableData)

inductive GlobalKind
  | reg | const
  deriving DecidableEq

/-- What happens to a free name without a declaration. -/
inductive DefaultPolicy
  | preamble
  | star (kind : GlobalKind)
  | none
  deriving DecidableEq

/-- The global declarations in scope. -/
structure GlobalEnv where
  decls : List (Name × GlobalKind)
  default : DefaultPolicy
  deriving DecidableEq

namespace GlobalEnv

def new : GlobalEnv := { decls := [], default := DefaultPolicy.preamble }

/-- A list-form declaration voids the implicit preamble only. -/
def voidPreamble (g : GlobalEnv) : GlobalEnv :=
  if g.default = DefaultPolicy.preamble then { g with default := DefaultPolicy.none } else g

end GlobalEnv

structure ScopeMark where
  freereg : ℕ
  nactvar : ℕ
  deriving DecidableEq

/-- Escape-analysis state of a named vararg parameter. -/
structure VarargInfo where
  usedAsNonBase : Bool
  captured : Bool
  deriving DecidableEq

def VarargInfo.needsTable (i : VarargInfo) : Bool := i.usedAsNonBase || i.captured

/-! ### The state of a compilation -/

/-- Accumulator of a single function. -/
structure Chunk where
  tape : List Instruction
  constants : List Value
  prototypes : List Prototype
  upvalueDesc : List UpValueDescriptor
  /-- Next free register. -/
  freereg : ℕ
  /-- Number of registers that belong to active locals. -/
  nactvar : ℕ
  maxStack : ℕ
  arity : ℕ
  isVararg : Bool
  varargInfo : Option VarargInfo
  labels : List ℕ
  /-- Instruction indices with the label each of them jumps to. -/
  jumpPatches : List (ℕ × ℕ)
  lastTarget : ℕ
  nextIcIdx : ℕ

def Chunk.new : Chunk :=
  { tape := [], constants := [], prototypes := [], upvalueDesc := [], freereg := 0, nactvar := 0,
    maxStack := 0, arity := 0, isVararg := false, varargInfo := none, labels := [],
    jumpPatches := [], lastTarget := 0, nextIcIdx := 0 }

/-- What a nested function can reach of an enclosing one, through `resolve_for_child`: it reads the
scope, and may add upvalues and mark the named vararg as captured. -/
structure Enclosing where
  scope : List Scope
  upvalues : List (Name × UpValueDescriptor)
  varargInfo : Option VarargInfo

/-- What a compilation did, in order.  Events are only ever recorded, for stating what happened
along the way; nothing reads them. -/
inductive Event
  /-- The `JMP` of a `goto` statement was emitted at `pos`. -/
  | goto (name : Name) (pos : ℕ)
  /-- A label statement was resolved to `pos`. -/
  | label (name : Name) (pos : ℕ)
  /-- The `JMP` at `jmp` was patched to `target`. -/
  | patched (jmp target : ℕ)
  /-- The tape was cut back to `len` instructions. -/
  | elided (len : ℕ)
  deriving DecidableEq

/-- The context of a function's compilation. -/
structure Ctx where
  chunk : Chunk
  /-- Break targets of the nested loops, innermost first. -/
  controlEndLabel : List ℕ
  /-- Innermost frame first, as are the three lists below it. -/
  scope : List Scope
  scopeMarks : List ScopeMark
  scopeClose : List (List ℕ)
  scopeGlobals : List GlobalEnv
  gotoLabels : List (Name × ℕ)
  /-- The enclosing functions, innermost first. -/
  capture : List Enclosing
  upvalues : List (Name × UpValueDescriptor)
  globals : GlobalEnv
  num : NumOps
  events : List Event

/-! ### Failure -/

inductive CompileError
  | internal (msg : String)
  | undeclaredGlobal (name : Name)
  | constGlobalAssign (name : Name)
  | registers
  | upValues
  | fixedParameters
  | functions
  | constants
  | duplicateLabel
  | gotoInvalid
  | jumpLocal
  | jumpOverflow
  deriving DecidableEq

/-- How a compilation fails. -/
inductive Fault
  | error (e : CompileError)
  /-- An assertion, an index or checked arithmetic failed. -/
  | panic
  deriving DecidableEq

/-- A step of a function's compilation. -/
abbrev CompileM := StateT Ctx (Except Fault)

namespace CompileM

variable {α : Type}

def err (e : CompileError) : CompileM α := throw (Fault.error e)

def ice (msg : String) : CompileM α := err (CompileError.internal msg)

/-- `assert!`. -/
def ensure (b : Bool) : CompileM Unit := if b then pure () else throw Fault.panic

/-- Unwrap an `Option`, or index a vector: the source panics on `none`. -/
def unwrap : Option α → CompileM α
  | some a => pure a
  | none => throw Fault.panic

/-- Checked `u8` addition. -/
def addU8 (a b : ℕ) : CompileM ℕ := if a + b < 256 then pure (a + b) else throw Fault.panic

/-- Change the chunk. -/
def modifyChunk (f : Chunk → Chunk) : CompileM Unit := modify fun c => { c with chunk := f c.chunk }

/-- Read the chunk. -/
def getChunk : CompileM Chunk := do return (← get).chunk

/-- Record an event. -/
def record (e : Event) : CompileM Unit := modify fun c => { c with events := c.events ++ [e] }

end CompileM

end Tcvm
