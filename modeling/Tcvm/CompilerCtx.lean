/-
Registers, labels, scopes, constants and names.

The helper methods of the compilation context that neither compile syntax nor patch jump lists.

* `reserveReg`, `freeReg`, `adjustLocals`, `dstOrAlloc` — the register cursor;
* `newLabel`, `setLabel`, `emitJump` — labels;
* `pushScope`, `popScope`, `scopeLexical`, `scopeBreak` — scopes;
* `allocConstant`, `allocFieldKey` — constants and inline-cache slots;
* `resolveLocal`, `resolveForChild`, `resolveOrCapture` — name resolution.
-/

import Tcvm.CompilerDefs

namespace Tcvm

open CompileM

/-! ### Registers -/

def emit (i : Instruction) : CompileM Unit := modifyChunk fun c => { c with tape := c.tape ++ [i] }

/-- Move the cursor, raising the peak. -/
def setFreeregPeak (n : ℕ) : CompileM Unit :=
  modifyChunk fun c => { c with freereg := n, maxStack := max c.maxStack n }

/-- Move the cursor. -/
def setFreereg (n : ℕ) : CompileM Unit := modifyChunk fun c => { c with freereg := n }

/-- Reserve a fresh temp register. -/
def reserveReg : CompileM ℕ := do
  let c ← getChunk
  ensure (c.nactvar ≤ c.freereg)
  if c.freereg = 255 then err CompileError.registers
  else
    setFreeregPeak (c.freereg + 1)
    return c.freereg

/-- Reserve `n` consecutive temp registers. -/
def reserveRegs (n : ℕ) : CompileM ℕ := do
  let c ← getChunk
  ensure (c.nactvar ≤ c.freereg)
  if c.freereg + n < 256 then
    setFreeregPeak (c.freereg + n)
    return c.freereg
  else err CompileError.registers

def allocRegister : CompileM ℕ := reserveReg

/-- Reserve registers until the cursor is at least `n`. -/
def allocUpTo (n : ℕ) : CompileM Unit := do
  let c ← getChunk
  (List.range (n - c.freereg)).forM fun _ => do
    let _ ← allocRegister

/-- Free a register iff it is a temp; temps are freed last in, first out. -/
def freeReg (reg : ℕ) : CompileM Unit := do
  let c ← getChunk
  if c.nactvar ≤ reg then
    let next ← addU8 reg 1
    ensure (next = c.freereg)
    setFreereg (c.freereg - 1)
  else pure ()

/-- Free two registers, the higher one first. -/
def freeRegs (r1 r2 : ℕ) : CompileM Unit := do
  if r2 < r1 then
    freeReg r1
    freeReg r2
  else
    freeReg r2
    freeReg r1

/-- Promote the top `n` temps to locals. -/
def adjustLocals (n : ℕ) : CompileM Unit := do
  let c ← getChunk
  ensure (c.nactvar + n ≤ c.freereg)
  let nactvar ← addU8 c.nactvar n
  modifyChunk fun c => { c with nactvar := nactvar }

/-- Use the destination hint, or reserve a register. -/
def dstOrAlloc : Option ℕ → CompileM ℕ
  | some reg => do
      let c ← getChunk
      if c.freereg ≤ reg then
        let next ← addU8 reg 1
        setFreeregPeak next
      return reg
  | none => reserveReg

def nextOffset : CompileM ℕ := do return (← getChunk).tape.length

/-! ### Labels -/

/-- Label indices are `u16`. -/
def newLabel : CompileM ℕ := do
  let c ← getChunk
  modifyChunk fun c => { c with labels := c.labels ++ [0] }
  return c.labels.length % 2 ^ 16

def setLabel (label offset : ℕ) : CompileM Unit := do
  let c ← getChunk
  ensure (label < c.labels.length)
  modifyChunk fun c =>
    { c with labels := c.labels.set label offset, lastTarget := max c.lastTarget offset }

/-- Emit a jump instruction whose offset is resolved when the chunk is assembled. -/
def emitJumpInstr (label : ℕ) (instr : Instruction) : CompileM Unit := do
  let idx ← nextOffset
  modifyChunk fun c => { c with jumpPatches := c.jumpPatches ++ [(idx, label)] }
  emit instr

def emitJump (label : ℕ) : CompileM Unit := emitJumpInstr label (Instruction.jmp 0)

/-! ### Scopes -/

def pushScope : CompileM Unit :=
  modify fun c =>
    { c with
      scope := [] :: c.scope
      scopeMarks := ⟨c.chunk.freereg, c.chunk.nactvar⟩ :: c.scopeMarks
      scopeClose := [] :: c.scopeClose
      scopeGlobals := c.globals :: c.scopeGlobals }

/-- Leave a scope: restore the register cursor and the global declarations, and return the
registers to be closed. -/
def popScope : CompileM (List ℕ) := do
  let c ← get
  match c.scope, c.scopeMarks, c.scopeGlobals, c.scopeClose with
  | _ :: scope, mark :: marks, globals :: scopeGlobals, close :: scopeClose => do
      set
        { c with
          scope := scope
          scopeMarks := marks
          scopeGlobals := scopeGlobals
          scopeClose := scopeClose
          globals := globals
          chunk := { c.chunk with freereg := mark.freereg, nactvar := mark.nactvar } }
      return close
  | _, _, _, _ => ice "missing scope"

def markClose (register : ℕ) : CompileM Unit := do
  let c ← get
  match c.scopeClose with
  | close :: rest => set { c with scopeClose := (close ++ [register]) :: rest }
  | [] => ice "missing scope close list"

def define (name : Name) (data : VariableData) : CompileM Unit := do
  let c ← get
  match c.scope with
  | frame :: rest => set { c with scope := ((name, data) :: frame) :: rest }
  | [] => ice "missing scope"

/-- The innermost binding of a name. -/
def resolveLocalIn (scope : List Scope) (name : Name) : Option VariableData :=
  scope.findSome? fun frame => frame.lookup name

def resolveLocal (name : Name) : CompileM (Option VariableData) := do
  return resolveLocalIn (← get).scope name

/-- Run `compile` in a scope of its own, and emit `CLOSE` behind it when the scope has
to-be-closed variables. -/
def scopeLexical (compile : CompileM Unit) : CompileM Unit := do
  pushScope
  compile
  let closeRegs ← popScope
  match closeRegs with
  | first :: _ => emit (Instruction.close first)
  | [] => pure ()

/-- Run `compile` as the body of a loop, with a break label behind it. -/
def scopeBreak (compile : CompileM Unit) : CompileM Unit := do
  let label ← newLabel
  modify fun c => { c with controlEndLabel := label :: c.controlEndLabel }
  compile
  setLabel label (← nextOffset)
  modify fun c => { c with controlEndLabel := c.controlEndLabel.tail }

def scopeLexicalBreak (compile : CompileM Unit) : CompileM Unit := scopeLexical (scopeBreak compile)

/-! ### Constants -/

/-- The index of a constant, appended on first use. -/
def allocConstant (value : Value) : CompileM ℕ := do
  let c ← getChunk
  match c.constants.findIdx? (· = value) with
  | some idx => return idx % 2 ^ 16
  | none =>
      if 2 ^ 16 - 1 ≤ c.constants.length then err CompileError.constants
      else
        modifyChunk fun c => { c with constants := c.constants ++ [value] }
        return c.constants.length % 2 ^ 16

def allocStringConstant (s : LuaString) : CompileM ℕ := allocConstant (Value.string s)

/-- Reserve an inline-cache slot; the counter saturates. -/
def allocIcSlot : CompileM ℕ := do
  let c ← getChunk
  modifyChunk fun c => { c with nextIcIdx := min (c.nextIcIdx + 1) (2 ^ 16 - 1) }
  return c.nextIcIdx

/-- A string constant and an inline-cache slot for a field or global access. -/
def allocFieldKey (s : LuaString) : CompileM (ℕ × ℕ) := do
  let idx ← allocConstant (Value.string s)
  let ic ← allocIcSlot
  return (idx, ic)

/-! ### Names -/

/-- How an enclosing scope resolves a child's free name. -/
inductive ChildResolution
  | const (v : ConstVal)
  | upvalue (desc : UpValueDescriptor)
  deriving DecidableEq

/-- How a free name resolves in the current function. -/
inductive ResolvedName
  | const (v : ConstVal)
  | upvalue (idx : ℕ)
  deriving DecidableEq

/-- The index of a captured upvalue, as a `u8`. -/
def upvalueIndex (upvalues : List (Name × UpValueDescriptor)) (name : Name) : Option ℕ :=
  (upvalues.findIdx? fun u => u.1 = name).map fun i => i % 2 ^ 8

/-- Resolve a child's free name through the enclosing functions, innermost first.  A cascade
captures the name at every level it passes. -/
def resolveForChild (name : Name) : List Enclosing → Option ChildResolution × List Enclosing
  | [] => (none, [])
  | f :: fs =>
      match resolveLocalIn f.scope name with
      | some data =>
          match data.kind with
          | VarKind.global => (none, f :: fs)
          | VarKind.const (some v) => (some (ChildResolution.const v), f :: fs)
          | VarKind.varargParam =>
              (some (ChildResolution.upvalue (UpValueDescriptor.parentLocal data.register)),
                { f with varargInfo := f.varargInfo.map fun i => { i with captured := true } } ::
                  fs)
          | _ =>
              (some (ChildResolution.upvalue (UpValueDescriptor.parentLocal data.register)),
                f :: fs)
      | none =>
          match upvalueIndex f.upvalues name with
          | some i =>
              (some (ChildResolution.upvalue (UpValueDescriptor.parentUpvalue i)), f :: fs)
          | none =>
              match resolveForChild name fs with
              | (none, fs') => (none, f :: fs')
              | (some (ChildResolution.const v), fs') =>
                  (some (ChildResolution.const v), f :: fs')
              | (some (ChildResolution.upvalue desc), fs') =>
                  (some (ChildResolution.upvalue
                      (UpValueDescriptor.parentUpvalue (f.upvalues.length % 2 ^ 8))),
                    { f with upvalues := f.upvalues ++ [(name, desc)] } :: fs')

/-- Resolve a free name into an inlined constant or an upvalue of this function. -/
def resolveOrCapture (name : Name) : CompileM (Option ResolvedName) := do
  let c ← get
  match upvalueIndex c.upvalues name with
  | some i => return some (ResolvedName.upvalue i)
  | none =>
      match resolveForChild name c.capture with
      | (none, capture) => do
          set { c with capture := capture }
          return none
      | (some (ChildResolution.const v), capture) => do
          set { c with capture := capture }
          return some (ResolvedName.const v)
      | (some (ChildResolution.upvalue desc), capture) => do
          set { c with capture := capture, upvalues := c.upvalues ++ [(name, desc)] }
          return some (ResolvedName.upvalue (c.upvalues.length % 2 ^ 8))

/-- The name of the environment. -/
def envName : Name := bytes "_ENV"

/-- The upvalue that holds `_ENV`; a `<const>` local of that name reaches `unreachable!`. -/
def resolveEnvUpvalue : CompileM ℕ := do
  match ← resolveOrCapture envName with
  | some (ResolvedName.upvalue idx) => return idx
  | some (ResolvedName.const _) => throw Fault.panic
  | none => ice "_ENV must resolve; main chunk pre-seeds it"

end Tcvm
