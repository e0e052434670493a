/-
Jump lists.

Expressions with pending short-circuit jumps are consumed in two ways: a branch patches the lists
to code positions, a value context discharges them into a register.  The functions below are the
jump-list primitives and the two consumers.

* `downgradeTestsets`, `patchTo`, `patchToHere`, `patchListAux` — patching;
* `emitTestJump`, `flipControlPolarity`, `codenot`, `negateCond` — polarity;
* `goiftrue`, `goiffalse` — absorb an expression into a branch;
* `dischargeToRegMut` — materialise an expression in a register.
-/

import Tcvm.CompilerCtx

namespace Tcvm

open CompileM

/-- The `i32` offset that takes a jump at `idx` to `target`. -/
def jumpOffset (idx target : ℕ) : ℤ := Int.bmod ((target : ℤ) - ((idx : ℤ) + 1)) (2 ^ 32)

/-- The instruction at a tape index; indexing out of range panics. -/
def tapeAt (idx : ℕ) : CompileM Instruction := do unwrap (← getChunk).tape[idx]?

def setTape (idx : ℕ) (i : Instruction) : CompileM Unit :=
  modifyChunk fun c => { c with tape := c.tape.set idx i }

/-- Emit a `JMP` with a placeholder offset and return its index. -/
def emitUnfilledJmp : CompileM ℕ := do
  let idx ← nextOffset
  emit (Instruction.jmp 0)
  return idx

/-- The instructions that decide whether the `JMP` behind them is taken. -/
def Instruction.isControl : Instruction → Bool
  | eq .. => true
  | lt .. => true
  | le .. => true
  | test .. => true
  | testset .. => true
  | _ => false

def assertCtrlPredecessor (jmpIdx : ℕ) : CompileM Unit := do
  if jmpIdx = 0 then pure ()
  else
    let prev ← tapeAt (jmpIdx - 1)
    ensure prev.isControl

/-- A `TESTSET` without a destination becomes the `TEST` with the same skip behaviour. -/
def Instruction.downgrade : Instruction → Instruction
  | testset dst src inverted =>
      if dst = noReg then test src (!inverted) else testset dst src inverted
  | i => i

/-- Downgrade the control of every jump in a list whose value is not needed. -/
def downgradeTestsets : List ℕ → CompileM Unit
  | [] => pure ()
  | jmpIdx :: rest => do
      if jmpIdx = 0 then pure ()
      else
        assertCtrlPredecessor jmpIdx
        let ctrl ← tapeAt (jmpIdx - 1)
        setTape (jmpIdx - 1) ctrl.downgrade
      downgradeTestsets rest

/-- Aim the `JMP` at `idx`. -/
def patchJmp (idx target : ℕ) : CompileM Unit := do
  match ← tapeAt idx with
  | Instruction.jmp _ => do
      setTape idx (Instruction.jmp (jumpOffset idx target))
      record (Event.patched idx target)
  | _ => throw Fault.panic

/-- Patch every jump in a list to `target`, in branch context. -/
def patchTo (list : List ℕ) (target : ℕ) : CompileM Unit := do
  downgradeTestsets list
  list.forM fun idx => patchJmp idx target
  modifyChunk fun c => { c with lastTarget := max c.lastTarget target }

/-- The controls that may be dropped together with the jump behind them. -/
def Instruction.isElidable : Instruction → Bool
  | test .. => true
  | testset dst _ _ => dst = noReg
  | _ => false

/-- Drop trailing jumps of a list that would jump to their own successor, each with its control.
Every round removes one jump, so the length of the list bounds the rounds. -/
def elideTail : ℕ → List ℕ → CompileM (List ℕ)
  | 0, list => return list
  | fuel + 1, list => do
      let stop ← nextOffset
      match list.find? (fun j => j + 1 = stop) with
      | none => return list
      | some j =>
          if j = 0 then return list
          else
            let ctrl ← tapeAt (j - 1)
            if ctrl.isElidable then
              modifyChunk fun c => { c with tape := c.tape.take (j - 1) }
              record (Event.elided (j - 1))
              elideTail fuel (list.erase j)
            else return list

/-- Patch every jump in a list to the next instruction, eliding trailing no-op jumps. -/
def patchToHere (list : List ℕ) : CompileM Unit := do
  let rest ← elideTail list.length list
  patchTo rest (← nextOffset)

/-- Does a list contain a jump whose control does not preserve its operand's value? -/
def needValue : List ℕ → CompileM Bool
  | [] => return false
  | idx :: rest => do
      if idx = 0 then return true
      else
        assertCtrlPredecessor idx
        match ← tapeAt (idx - 1) with
        | Instruction.testset dst _ _ => if dst = noReg then needValue rest else return true
        | _ => return true

/-- Where a jump goes in a value context: a control that preserves its operand puts it into `reg`,
and the jump goes to `vtarget`; any other jump goes to `dtarget`. -/
def exitTarget (vtarget reg dtarget jmpIdx : ℕ) : CompileM ℕ := do
  if jmpIdx = 0 then return dtarget
  else
    assertCtrlPredecessor jmpIdx
    match ← tapeAt (jmpIdx - 1) with
    | Instruction.testset dst src inverted =>
        if dst = noReg then
          if src = reg then setTape (jmpIdx - 1) (Instruction.test src (!inverted))
          else setTape (jmpIdx - 1) (Instruction.testset reg src inverted)
          return vtarget
        else return dtarget
    | _ => return dtarget

/-- Aim the instruction at `idx`, if it is a `JMP`. -/
def retarget (idx target : ℕ) : CompileM Unit := do
  match ← tapeAt idx with
  | Instruction.jmp _ => do
      setTape idx (Instruction.jmp (jumpOffset idx target))
      record (Event.patched idx target)
  | _ => pure ()

/-- Value-context patching. -/
def patchListAux (vtarget reg dtarget : ℕ) : List ℕ → CompileM Unit
  | [] => pure ()
  | jmpIdx :: rest => do
      let target ← exitTarget vtarget reg dtarget jmpIdx
      retarget jmpIdx target
      patchListAux vtarget reg dtarget rest

/-- Emit a `TESTSET` without a destination and a `JMP` that fires when the truthiness of `src` is
`jumpIfTruthy`. -/
def emitTestJump (src : ℕ) (jumpIfTruthy : Bool) : CompileM ℕ := do
  emit (Instruction.testset noReg src (!jumpIfTruthy))
  emitUnfilledJmp

/-- Flip the polarity of a control instruction; anything else is unreachable. -/
def Instruction.flip : Instruction → Option Instruction
  | lt lhs rhs inverted => some (lt lhs rhs (!inverted))
  | le lhs rhs inverted => some (le lhs rhs (!inverted))
  | eq lhs rhs inverted => some (eq lhs rhs (!inverted))
  | test src inverted => some (test src (!inverted))
  | testset dst src inverted => some (testset dst src (!inverted))
  | _ => none

/-- Flip the polarity of the control in front of a jump. -/
def flipControlPolarity (jmpIdx : ℕ) : CompileM Unit := do
  if jmpIdx = 0 then pure ()
  else
    let ctrl ← tapeAt (jmpIdx - 1)
    let flipped ← unwrap ctrl.flip
    setTape (jmpIdx - 1) flipped

/-- Negate an expression: its exits change places and preserve no values. -/
def codenot (operand : ExprDesc) (resultKind : ExprKind) : CompileM ExprDesc := do
  downgradeTestsets operand.trueList
  downgradeTestsets operand.falseList
  return { kind := resultKind, trueList := operand.falseList, falseList := operand.trueList }

/-- Flip every pending jump of an expression whose head has been absorbed. -/
def negateCond (expr : ExprDesc) : CompileM ExprDesc := do
  ensure (match expr.kind with
    | ExprKind.jump (some _) => false
    | _ => true)
  (expr.trueList ++ expr.falseList).forM flipControlPolarity
  return { expr with trueList := expr.falseList, falseList := expr.trueList }

/-- The register that the value of an expression with pending jumps is discharged to, once it is
of kind `kind`; the fall-through value is moved there. -/
def dischargeDst (kind : ExprKind) (hint : Option ℕ) : CompileM ℕ := do
  match kind with
  | ExprKind.reg reg =>
      let c ← getChunk
      match hint with
      | some h =>
          if h ≠ reg then
            let _ ← dstOrAlloc (some h)
            emit (Instruction.move h reg)
            return h
          else return reg
      | none =>
          -- patching through the register of a local would overwrite the local
          if reg < c.nactvar then
            let fresh ← reserveReg
            emit (Instruction.move fresh reg)
            return fresh
          else return reg
  | ExprKind.jump _ => dstOrAlloc hint
  | _ => throw Fault.panic

/-- Does a jump of the expression need the boolean fixup tail? -/
def needTail (expr : ExprDesc) : CompileM Bool := do
  let needFalse ← needValue expr.falseList
  if needFalse then return true else needValue expr.trueList

/-- The jump over the fixup tail. -/
def emitSkip (skip : Bool) : CompileM (Option ℕ) := do
  if skip then
    let idx ← emitUnfilledJmp
    return some idx
  else return none

/-- The fixup tail, and where it loads `false` and `true`. -/
def emitFixup (needed : Bool) (dst : ℕ) : CompileM (ℕ × ℕ) := do
  if needed then
    let ft ← nextOffset
    emit (Instruction.lfalseskip dst)
    let tt ← nextOffset
    let trueIdx ← allocConstant (Value.boolean true)
    emit (Instruction.load dst trueIdx)
    return (ft, tt)
  else return (0, 0)

/-- Aim the jump over the fixup tail. -/
def closeSkip : Option ℕ → CompileM Unit
  | some idx => do
      let stop ← nextOffset
      retarget idx stop
  | none => pure ()

/-- The boolean fixup tail and the patching of both lists into `dst`. -/
def dischargeJumps (expr : ExprDesc) (isJump : Bool) (dst : ℕ) : CompileM Unit := do
  let tail ← needTail expr
  let skipFixup ← emitSkip (!isJump && tail)
  let targets ← emitFixup tail dst
  let finalPos ← nextOffset
  patchListAux finalPos dst targets.1 expr.falseList
  patchListAux finalPos dst targets.2 expr.trueList
  closeSkip skipFixup

/-- A compile-time constant is loaded on demand. -/
def materializeConst (expr : ExprDesc) (hint : Option ℕ) : CompileM ExprDesc :=
  match constKindToValue expr.kind with
  | some value => do
      let idx ← allocConstant value
      let dst ← dstOrAlloc hint
      emit (Instruction.load dst idx)
      return { expr with kind := ExprKind.reg dst }
  | none => return expr

def ExprKind.isJump : ExprKind → Bool
  | jump _ => true
  | _ => false

/-- A pending head fires on truthy. -/
def ExprDesc.absorbHead (expr : ExprDesc) : ExprDesc :=
  match expr.kind with
  | ExprKind.jump (some idx) => { expr with trueList := expr.trueList ++ [idx] }
  | _ => expr

/-- Discharge an expression that is no constant. -/
def dischargeSettled (expr : ExprDesc) (hint : Option ℕ) : CompileM (ExprDesc × ℕ) := do
  match expr.kind, expr.hasJumps with
  | ExprKind.reg reg, false => return (expr, reg)
  | kind, _ => do
      let dst ← dischargeDst kind hint
      let expr := expr.absorbHead
      if expr.trueList.isEmpty && expr.falseList.isEmpty then
        return ({ expr with kind := ExprKind.reg dst }, dst)
      else
        dischargeJumps expr kind.isJump dst
        return (ExprDesc.fromReg dst, dst)

/-- Discharge an expression to a register, resolving its pending jumps.  Returns the expression as
it is afterwards and the register. -/
def dischargeToRegMut (expr : ExprDesc) (hint : Option ℕ) : CompileM (ExprDesc × ℕ) := do
  let expr ← materializeConst expr hint
  dischargeSettled expr hint

/-- `goiftrue`, for an expression that is no constant. -/
def branchTrue (expr : ExprDesc) : CompileM ExprDesc := do
  match expr.kind with
  | ExprKind.jump (some idx) => do
      flipControlPolarity idx
      return { expr with kind := ExprKind.jump none, falseList := expr.falseList ++ [idx] }
  | ExprKind.jump none =>
      if expr.falseList.isEmpty && !expr.trueList.isEmpty then negateCond expr else return expr
  | ExprKind.reg reg => do
      freeReg reg
      let jmp ← emitTestJump reg false
      return { expr with falseList := expr.falseList ++ [jmp] }
  | _ => throw Fault.panic

/-- Fall through when the expression is truthy, jump from its false list otherwise. -/
def goiftrue (expr : ExprDesc) : CompileM ExprDesc := do
  match expr.kind with
  | ExprKind.numeral _ => return expr
  | ExprKind.bool true => return expr
  -- a falsy constant takes the path of a register operand
  | ExprKind.bool false => do
      let r ← dischargeToRegMut expr none
      branchTrue r.1
  | ExprKind.nil => do
      let r ← dischargeToRegMut expr none
      branchTrue r.1
  | _ => branchTrue expr

/-- `goiffalse`, for an expression that is no constant. -/
def branchFalse (expr : ExprDesc) : CompileM ExprDesc := do
  match expr.kind with
  | ExprKind.jump (some idx) =>
      return { expr with kind := ExprKind.jump none, trueList := expr.trueList ++ [idx] }
  | ExprKind.jump none =>
      if expr.trueList.isEmpty && !expr.falseList.isEmpty then negateCond expr else return expr
  | ExprKind.reg reg => do
      freeReg reg
      let jmp ← emitTestJump reg true
      return { expr with trueList := expr.trueList ++ [jmp] }
  | _ => throw Fault.panic

/-- Fall through when the expression is falsy, jump from its true list otherwise. -/
def goiffalse (expr : ExprDesc) : CompileM ExprDesc := do
  match expr.kind with
  | ExprKind.bool false => return expr
  | ExprKind.nil => return expr
  -- a truthy constant takes the path of a register operand
  | ExprKind.numeral _ => do
      let r ← dischargeToRegMut expr none
      branchFalse r.1
  | ExprKind.bool true => do
      let r ← dischargeToRegMut expr none
      branchFalse r.1
  | _ => branchFalse expr

end Tcvm
