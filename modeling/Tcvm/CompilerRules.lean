/-
Compiling expressions, statements and functions.

The rules that compile a form with sub-expressions are split in two: what a rule does around its
operands is a definition that takes the operands' compilations as arguments (`comparisonDesc`,
`logicalAnd`, `methodCallSetup`, …), and the mutual recursion at the end, which follows the syntax,
applies them.

* `exprReads`, `anyReads` — does an expression read a register?
* `Lvalue`, `emitStore` — assignment targets;
* `functionToChunk`, `assemble`, `compileNested` — functions;
* `compileExpr`, `compileStmt`, `compileBlock`, … — the recursion;
* `compile` — the entry point.
-/

import Tcvm.CompilerJumps

namespace Tcvm

open CompileM

/-! ### Reads -/

mutual

/-- Does evaluating the expression read the register?  The bodies of function literals run later
and do not count, nor do field names. -/
def exprReads (scope : List Scope) (reg : ℕ) : Expr → Bool
  | Expr.literal _ => false
  | Expr.varArg => false
  | Expr.func _ => false
  | Expr.ident name =>
      match resolveLocalIn scope name with
      | some d => d.kind ≠ VarKind.global && d.register = reg
      | none => false
  | Expr.prefixOp _ rhs => exprReads scope reg rhs
  | Expr.binaryOp op lhs rhs =>
      exprReads scope reg lhs ||
        (!(op = BinaryOperator.property || op = BinaryOperator.method) && exprReads scope reg rhs)
  | Expr.index target index => exprReads scope reg target || exprReads scope reg index
  | Expr.funcCall target args => exprReads scope reg target || anyReads scope reg args
  | Expr.method object _ args => exprReads scope reg object || anyReads scope reg args
  | Expr.table entries => entriesRead scope reg entries
  | Expr.paren inner => exprReads scope reg inner

/-- Does any of the expressions read the register? -/
def anyReads (scope : List Scope) (reg : ℕ) : List Expr → Bool
  | [] => false
  | e :: es => exprReads scope reg e || anyReads scope reg es

def entryReads (scope : List Scope) (reg : ℕ) : TableEntry → Bool
  | TableEntry.array value => exprReads scope reg value
  | TableEntry.map _ value => exprReads scope reg value
  | TableEntry.generic index value => exprReads scope reg index || exprReads scope reg value

def entriesRead (scope : List Scope) (reg : ℕ) : List TableEntry → Bool
  | [] => false
  | e :: es => entryReads scope reg e || entriesRead scope reg es

end

/-! ### Operands and calls -/

/-- `compile_expr_to_reg`: compile, then discharge. -/
def toReg (compile : CompileM ExprDesc) (dst : Option ℕ) : CompileM ℕ := do
  let expr ← compile
  let r ← dischargeToRegMut expr dst
  return r.2

/-- Put the value of `reg` into `target`, allocating up to it first. -/
def moveInto (reg target : ℕ) : CompileM Unit := do
  if reg ≠ target then
    allocUpTo (target + 1)
    emit (Instruction.move target reg)

/-- `emit_func_call_setup`: the function in a fresh register on top, then the arguments. -/
def funcCallSetup (target : CompileM ℕ) (args : ℕ → CompileM ℕ) : CompileM (ℕ × ℕ) := do
  let func ← target
  let c ← getChunk
  let next ← addU8 func 1
  let func ←
    if next ≠ c.freereg || func < c.nactvar then do
      let top ← allocRegister
      emit (Instruction.move top func)
      pure top
    else pure func
  let argsWire ← args func
  return (func, argsWire)

/-- `emit_method_call_setup`: the receiver, `SELF`, then the arguments. -/
def methodCallSetup (object : CompileM ℕ) (method : Name) (args : ℕ → CompileM ℕ) :
    CompileM (ℕ × ℕ) := do
  let object ← object
  let keyIdx ← allocStringConstant method
  let func ← allocRegister
  emit (Instruction.self func object keyIdx)
  let selfReg ← addU8 func 1
  allocUpTo (selfReg + 1)
  let argsWire ← args func
  return (func, argsWire)

/-- `compile_expr_func_call` and `compile_expr_method_call`: a `CALL` and its result registers. -/
def callResults (setup : CompileM (ℕ × ℕ)) (want : Want) : CompileM (List ℕ) := do
  let (func, argsWire) ← setup
  match want with
  | Want.exact n => do
      let returns ← addU8 n 1
      emit (Instruction.call func argsWire returns)
      let stop ← addU8 func n
      setFreereg stop
      return (List.range n).map fun i => func + i
  | Want.multRet => do
      emit (Instruction.call func argsWire 0)
      return []

/-- `compile_tail_func_call` and `compile_tail_method_call`. -/
def tailCall (setup : CompileM (ℕ × ℕ)) : CompileM Unit := do
  let (func, argsWire) ← setup
  emit (Instruction.tailcall func argsWire)
  setFreereg func

/-- A call as an expression statement: no results. -/
def callStmt (setup : CompileM (ℕ × ℕ)) : CompileM Unit := do
  let (func, argsWire) ← setup
  emit (Instruction.call func argsWire 1)
  setFreereg func

/-- The forms that can produce several values, with the setup of the calls among them. -/
inductive Multires
  | funcCall (setup : CompileM (ℕ × ℕ))
  | method (setup : CompileM (ℕ × ℕ))
  | varArg
  | single

def Multires.isMulti : Multires → Bool
  | single => false
  | _ => true

/-- `compile_trailing_multires`: all values of a call or vararg from `target` on, or one value in
`target`.  Returns whether the number of values is open. -/
def trailingMultires (multi : Multires) (single : CompileM ℕ) (target : ℕ) : CompileM Bool := do
  match multi with
  | Multires.funcCall setup => do
      allocUpTo target
      let _ ← callResults setup Want.multRet
      return true
  | Multires.method setup => do
      allocUpTo target
      let _ ← callResults setup Want.multRet
      return true
  | Multires.varArg => do
      allocUpTo (target + 1)
      emit (Instruction.vararg target 0)
      return true
  | Multires.single => do
      let reg ← single
      moveInto reg target
      return false

/-- `compile_call_args`: the `args` operand of a call with `n` arguments; `window` compiles them and
says whether their number is open. -/
def callArgs (n offset : ℕ) (window : CompileM Bool) : CompileM ℕ := do
  let total ← addU8 (n % 2 ^ 8) (offset - 1)
  let multi ← window
  if multi then return 0 else addU8 total 1

/-- `expand_method_call`: the results of a method call, moved down to `base`. -/
def expandMethodCall (setup : CompileM (ℕ × ℕ)) (base n : ℕ) : CompileM Unit := do
  let regs ← callResults setup (Want.exact n)
  let landed ← unwrap regs[0]?
  if landed ≠ base then
    (List.range n).forM fun k => do
      let dst ← addU8 base k
      let src ← addU8 landed k
      emit (Instruction.move dst src)
    let stop ← addU8 base n
    setFreereg stop

/-- The last initializer of a `local` declaration with fewer initializers than targets: `want`
values from `expected` on.  Returns `false` when it supplies one value only. -/
def declExpand (multi : Multires) (expected want : ℕ) : CompileM Bool := do
  match multi with
  | Multires.funcCall setup => do
      let regs ← callResults setup (Want.exact want)
      let first ← unwrap regs[0]?
      ensure (first = expected)
      return true
  | Multires.method setup => do
      expandMethodCall setup expected want
      return true
  | Multires.varArg => do
      let dst ← reserveRegs want
      ensure (dst = expected)
      let count ← addU8 want 1
      emit (Instruction.vararg dst count)
      return true
  | Multires.single => return false

/-- `expand_count`. -/
def expandCount (n : ℕ) : CompileM ℕ :=
  if 255 ≤ n then err CompileError.registers else return n

/-- The last initializer of a `global` list with fewer initializers than names. -/
def globalExpand (multi : Multires) (expected n : ℕ) : CompileM Bool := do
  match multi with
  | Multires.funcCall setup => do
      let n ← expandCount n
      let _ ← callResults setup (Want.exact n)
      return true
  | Multires.method setup => do
      let n ← expandCount n
      expandMethodCall setup expected n
      return true
  | Multires.varArg => do
      let n ← expandCount n
      let dst ← reserveRegs n
      emit (Instruction.vararg dst (n + 1))
      return true
  | Multires.single => return false

/-- The last initializer of a generic `for` with fewer than three of them.  The results of a method
call are not moved down here. -/
def forGenExpand (multi : Multires) (expected want : ℕ) : CompileM Bool := do
  match multi with
  | Multires.funcCall setup => do
      let regs ← callResults setup (Want.exact want)
      let first ← unwrap regs[0]?
      ensure (first = expected)
      return true
  | Multires.method setup => do
      let regs ← callResults setup (Want.exact want)
      let first ← unwrap regs[0]?
      ensure (first = expected)
      return true
  | Multires.varArg => do
      let dst ← reserveRegs want
      ensure (dst = expected)
      emit (Instruction.vararg dst (want + 1))
      return true
  | Multires.single => return false

/-- Keep the value of `reg` in the slot `expected` and drop the temps above it. -/
def settleAt (reg expected : ℕ) : CompileM Unit := do
  let c ← getChunk
  if reg ≠ expected then
    setFreereg expected
    let slot ← reserveReg
    ensure (slot = expected)
    emit (Instruction.move slot reg)
  else
    let next ← addU8 expected 1
    if next < c.freereg then setFreereg next

/-- Load nil into fresh registers until the cursor reaches `top`. -/
def padNil (top : ℕ) : CompileM Unit := do
  let c ← getChunk
  (List.range (top - c.freereg)).forM fun _ => do
    let slot ← reserveReg
    let idx ← allocConstant Value.nil
    emit (Instruction.load slot idx)

/-! ### Expressions -/

/-- Does a `global` declaration shadow the name? -/
def isShadowGlobal : Option VariableData → Bool
  | some d => d.kind = VarKind.global
  | none => false

/-- A global is read through `_ENV`, unless the declarations in scope do not provide it. -/
def readGlobal (name : Name) (dst : Option ℕ) : CompileM ExprDesc := do
  let c ← get
  if (c.globals.decls.lookup name).isNone && c.globals.default = DefaultPolicy.none then
    err (CompileError.undeclaredGlobal name)
  else
    let (key, icIdx) ← allocFieldKey name
    let dst ← dstOrAlloc dst
    let envIdx ← resolveEnvUpvalue
    emit (Instruction.gettabup dst envIdx icIdx key)
    return ExprDesc.fromReg dst

/-- A name that is no local of this function. -/
def readFree (name : Name) (dst : Option ℕ) : CompileM ExprDesc := do
  match ← resolveOrCapture name with
  | some (ResolvedName.const v) => return v.toExprDesc
  | some (ResolvedName.upvalue idx) => do
      let dst ← dstOrAlloc dst
      emit (Instruction.getupval dst idx)
      return ExprDesc.fromReg dst
  | none => readGlobal name dst

/-- `compile_expr_ident`. -/
def compileExprIdent (name : Name) (dst : Option ℕ) : CompileM ExprDesc := do
  match ← resolveLocal name with
  | some d =>
      match d.kind with
      | VarKind.const (some v) => return v.toExprDesc
      | VarKind.varargParam => do
          modifyChunk fun c =>
            { c with varargInfo := c.varargInfo.map fun i => { i with usedAsNonBase := true } }
          return ExprDesc.fromReg d.register
      | VarKind.global => readGlobal name dst
      | _ => return ExprDesc.fromReg d.register
  | none => readFree name dst

/-- `compile_expr_literal`. -/
def compileExprLiteral (value : LiteralValue) (dst : Option ℕ) : CompileM ExprDesc := do
  match value with
  | LiteralValue.int n => return ExprDesc.fromNumeral (Numeral.int n)
  | LiteralValue.float b => return ExprDesc.fromNumeral (Numeral.float b)
  | LiteralValue.bool b => return ExprDesc.fromBool b
  | LiteralValue.nil => return ExprDesc.fromNil
  | LiteralValue.string s => do
      let idx ← allocConstant (Value.string s)
      let dst ← dstOrAlloc dst
      emit (Instruction.load dst idx)
      return ExprDesc.fromReg dst

/-- Constant folding of a prefix operator. -/
def prefixFold (num : NumOps) : PrefixOperator → ExprKind → Option ExprDesc
  | PrefixOperator.neg, ExprKind.numeral (Numeral.int n) =>
      some (ExprDesc.fromNumeral (Numeral.int (-n)))
  | PrefixOperator.neg, ExprKind.numeral (Numeral.float b) =>
      some (ExprDesc.fromNumeral (Numeral.float (b ^^^ 0x8000000000000000)))
  | PrefixOperator.bitNot, ExprKind.numeral (Numeral.int n) =>
      some (ExprDesc.fromNumeral (Numeral.int (~~~n)))
  | PrefixOperator.bitNot, ExprKind.numeral (Numeral.float b) =>
      (num.exactFloatToInt b).map fun i => ExprDesc.fromNumeral (Numeral.int (~~~i))
  | PrefixOperator.not, ExprKind.numeral _ => some (ExprDesc.fromBool false)
  | PrefixOperator.not, ExprKind.bool b => some (ExprDesc.fromBool (!b))
  | PrefixOperator.not, ExprKind.nil => some (ExprDesc.fromBool true)
  | _, _ => none

/-- `not` of an operand that does not fold. -/
def compileNot (inner : ExprDesc) (dst : Option ℕ) : CompileM ExprDesc := do
  match inner.kind with
  | ExprKind.jump (some idx) => do
      flipControlPolarity idx
      codenot inner (ExprKind.jump (some idx))
  | ExprKind.jump none => ice "not on Jump-kind ExprDesc with no pending head"
  | ExprKind.reg src => do
      freeReg src
      let dst ← dstOrAlloc dst
      emit (Instruction.not dst src)
      codenot inner (ExprKind.reg dst)
  | ExprKind.numeral _ => codenot inner (ExprKind.bool false)
  | ExprKind.bool b => codenot inner (ExprKind.bool (!b))
  | ExprKind.nil => codenot inner (ExprKind.bool true)

/-- The instruction of a unary operator. -/
def unaryInstr (op : PrefixOperator) (dst src : ℕ) : Option Instruction :=
  match op with
  | PrefixOperator.neg => some (Instruction.unm dst src)
  | PrefixOperator.len => some (Instruction.len dst src)
  | PrefixOperator.bitNot => some (Instruction.bnot dst src)
  | _ => none

/-- `compile_expr_prefix_op`. -/
def prefixOpDesc (op : PrefixOperator) (operand : CompileM ExprDesc) (dst : Option ℕ) :
    CompileM ExprDesc := do
  let inner ← operand
  let num := (← get).num
  let folded := if inner.hasJumps then none else prefixFold num op inner.kind
  match folded, op with
  | some e, _ => return e
  | none, PrefixOperator.not => compileNot inner dst
  | none, PrefixOperator.none => do
      let r ← dischargeToRegMut inner none
      return ExprDesc.fromReg r.2
  | none, op => do
      let r ← dischargeToRegMut inner none
      freeReg r.2
      let dst ← dstOrAlloc dst
      let instr ← unwrap (unaryInstr op dst r.2)
      emit instr
      return ExprDesc.fromReg dst

/-- The comparison instruction whose paired `JMP` fires when the comparison holds. -/
def comparisonInstr (op : BinaryOperator) (lhs rhs : ℕ) : Option Instruction :=
  match op with
  | BinaryOperator.eq => some (Instruction.eq lhs rhs true)
  | BinaryOperator.nEq => some (Instruction.eq lhs rhs false)
  | BinaryOperator.lt => some (Instruction.lt lhs rhs true)
  | BinaryOperator.gt => some (Instruction.lt rhs lhs true)
  | BinaryOperator.lEq => some (Instruction.le lhs rhs true)
  | BinaryOperator.gEq => some (Instruction.le rhs lhs true)
  | _ => none

/-- `compile_comparison_desc`. -/
def comparisonDesc (op : BinaryOperator) (lhs rhs : CompileM ℕ) : CompileM ExprDesc := do
  let lhs ← lhs
  let rhs ← rhs
  match comparisonInstr op lhs rhs with
  | some instr => do
      emit instr
      let jmp ← emitUnfilledJmp
      freeRegs lhs rhs
      return { kind := ExprKind.jump (some jmp), trueList := [], falseList := [] }
  | none => ice "compile_comparison_desc called with non-comparison op"

/-- `compile_logical_and_desc`. -/
def logicalAnd (lhs rhs : CompileM ExprDesc) : CompileM ExprDesc := do
  let lhs ← lhs
  let lhs ← goiftrue lhs
  patchToHere lhs.trueList
  let rhs ← rhs
  return { rhs with falseList := rhs.falseList ++ lhs.falseList }

/-- `compile_logical_or_desc`. -/
def logicalOr (lhs rhs : CompileM ExprDesc) : CompileM ExprDesc := do
  let lhs ← lhs
  let lhs ← goiffalse lhs
  patchToHere lhs.falseList
  let rhs ← rhs
  return { rhs with trueList := rhs.trueList ++ lhs.trueList }

/-- The register of the named vararg, if the expression names it. -/
def resolveVarargBase (scope : List Scope) : Expr → Option ℕ
  | Expr.ident name =>
      match resolveLocalIn scope name with
      | some d => if d.kind = VarKind.varargParam then some d.register else none
      | none => none
  | _ => none

/-- The field name of a property access. -/
def propertyFieldName : Expr → Option Name
  | Expr.ident name => some name
  | _ => none

/-- Property access; `key` compiles a field that is not a name. -/
def propertyDesc (varargBase : Option ℕ) (field : Option Name) (table key : CompileM ℕ)
    (dst : Option ℕ) : CompileM ExprDesc := do
  match varargBase with
  | some argsReg =>
      match field with
      | some name => do
          let keyConst ← allocStringConstant name
          let keyReg ← allocRegister
          emit (Instruction.load keyReg keyConst)
          freeReg keyReg
          let dst ← dstOrAlloc dst
          emit (Instruction.varargget dst argsReg keyReg)
          return ExprDesc.fromReg dst
      | none => ice "vararg property without static key"
  | none => do
      let table ← table
      match field with
      | some name => do
          let (keyIdx, icIdx) ← allocFieldKey name
          freeReg table
          let dst ← dstOrAlloc dst
          emit (Instruction.getfield dst table icIdx keyIdx)
          return ExprDesc.fromReg dst
      | none => do
          let key ← key
          freeRegs table key
          let dst ← dstOrAlloc dst
          emit (Instruction.gettable dst table key)
          return ExprDesc.fromReg dst

/-- `compile_expr_index`. -/
def indexReg (varargBase : Option ℕ) (table key : CompileM ℕ) (dst : Option ℕ) : CompileM ℕ := do
  match varargBase with
  | some argsReg => do
      let key ← key
      freeReg key
      let dst ← dstOrAlloc dst
      emit (Instruction.varargget dst argsReg key)
      return dst
  | none => do
      let table ← table
      let key ← key
      freeRegs table key
      let dst ← dstOrAlloc dst
      emit (Instruction.gettable dst table key)
      return dst

/-- The instruction of an arithmetic, bitwise or concatenation operator. -/
def binaryInstr (op : BinaryOperator) (dst lhs rhs : ℕ) : Option Instruction :=
  match op with
  | BinaryOperator.add => some (Instruction.add dst lhs rhs)
  | BinaryOperator.sub => some (Instruction.sub dst lhs rhs)
  | BinaryOperator.mul => some (Instruction.mul dst lhs rhs)
  | BinaryOperator.div => some (Instruction.div dst lhs rhs)
  | BinaryOperator.intDiv => some (Instruction.idiv dst lhs rhs)
  | BinaryOperator.mod => some (Instruction.mod dst lhs rhs)
  | BinaryOperator.exp => some (Instruction.pow dst lhs rhs)
  | BinaryOperator.bitAnd => some (Instruction.band dst lhs rhs)
  | BinaryOperator.bitOr => some (Instruction.bor dst lhs rhs)
  | BinaryOperator.bitXor => some (Instruction.bxor dst lhs rhs)
  | BinaryOperator.lShift => some (Instruction.shl dst lhs rhs)
  | BinaryOperator.rShift => some (Instruction.shr dst lhs rhs)
  | BinaryOperator.concat => some (Instruction.concat dst lhs rhs)
  | _ => none

/-- The folded value of two lazy numerals. -/
def binaryFold (num : NumOps) (op : BinaryOperator) (lhs rhs : ExprDesc) : Option ExprDesc :=
  if lhs.hasJumps || rhs.hasJumps then none
  else
    match lhs.kind, rhs.kind with
    | ExprKind.numeral l, ExprKind.numeral r => (num.tryFoldBinop op l r).map ExprDesc.fromNumeral
    | _, _ => none

/-- The operands of a binary operator, unless they fold, and its instruction. -/
def arithDesc (op : BinaryOperator) (lhs rhs : CompileM ExprDesc) (dst : Option ℕ) :
    CompileM ExprDesc := do
  let lhsDesc ← lhs
  -- settle the left operand first, except for a numeral that may still fold
  let lazyNumeral :=
    (match lhsDesc.kind with
      | ExprKind.numeral _ => true
      | _ => false) && !lhsDesc.hasJumps
  let early := op = BinaryOperator.concat || !lazyNumeral
  let lhsDesc ←
    if early then do
      let r ← dischargeToRegMut lhsDesc none
      pure r.1
    else pure lhsDesc
  let rhsDesc ← rhs
  let num := (← get).num
  match binaryFold num op lhsDesc rhsDesc with
  | some e => return e
  | none => do
      let (lhs, rhs) ←
        if !early && rhsDesc.hasJumps then do
          let r ← dischargeToRegMut rhsDesc none
          let l ← dischargeToRegMut lhsDesc none
          pure (l.2, r.2)
        else do
          let l ← dischargeToRegMut lhsDesc none
          let r ← dischargeToRegMut rhsDesc none
          pure (l.2, r.2)
      freeRegs lhs rhs
      let dst ← dstOrAlloc dst
      let instr ← unwrap (binaryInstr op dst lhs rhs)
      emit instr
      return ExprDesc.fromReg dst

/-- What `arithDesc` does once both operands are compiled. -/
def arithOperands (op : BinaryOperator) (early : Bool) (lhsDesc rhsDesc : ExprDesc)
    (dst : Option ℕ) : CompileM ExprDesc := do
  let num := (← get).num
  match binaryFold num op lhsDesc rhsDesc with
  | some e => return e
  | none => do
      let (lhs, rhs) ←
        if !early && rhsDesc.hasJumps then do
          let r ← dischargeToRegMut rhsDesc none
          let l ← dischargeToRegMut lhsDesc none
          pure (l.2, r.2)
        else do
          let l ← dischargeToRegMut lhsDesc none
          let r ← dischargeToRegMut rhsDesc none
          pure (l.2, r.2)
      freeRegs lhs rhs
      let dst ← dstOrAlloc dst
      let instr ← unwrap (binaryInstr op dst lhs rhs)
      emit instr
      return ExprDesc.fromReg dst

/-- `compile_expr_binary_op`, given the compilations of its operands under every hint. -/
def binaryOpDesc (op : BinaryOperator) (varargBase : Option ℕ) (field : Option Name)
    (lhs rhs : Option ℕ → CompileM ExprDesc) (dst : Option ℕ) : CompileM ExprDesc :=
  match op with
  | BinaryOperator.eq | BinaryOperator.nEq | BinaryOperator.lt | BinaryOperator.gt
  | BinaryOperator.lEq | BinaryOperator.gEq =>
      comparisonDesc op (toReg (lhs none) none) (toReg (rhs none) none)
  | BinaryOperator.and => logicalAnd (lhs dst) (rhs dst)
  | BinaryOperator.or => logicalOr (lhs dst) (rhs dst)
  | BinaryOperator.property =>
      propertyDesc varargBase field (toReg (lhs none) none) (toReg (rhs none) none) dst
  | BinaryOperator.method => ice "method operator in binary expression"
  | _ => arithDesc op (lhs none) (rhs none) dst

/-! ### Assignment targets -/

/-- A resolved assignment target. -/
inductive Lvalue
  | local (dst : ℕ)
  | upvalue (idx : ℕ)
  | global (envIdx key icIdx : ℕ)
  | indexed (table key : ℕ)
  | field (table keyIdx icIdx : ℕ)
  deriving DecidableEq

def localDst : Lvalue → Option ℕ
  | Lvalue.local dst => some dst
  | _ => none

/-- The local register a target compiles into, if any. -/
def targetLocalReg (scope : List Scope) : Expr → Option ℕ
  | Expr.ident name =>
      match resolveLocalIn scope name with
      | some d =>
          if d.kind = VarKind.global then none
          else if d.kind.isConst then none
          else some d.register
      | none => none
  | _ => none

/-- Reject a write to a global that may not be written. -/
def checkGlobalWrite (g : GlobalEnv) (name : Name) : CompileM Unit :=
  match g.decls.lookup name with
  | some kind =>
      if kind = GlobalKind.const then err (CompileError.constGlobalAssign name) else pure ()
  | none =>
      match g.default with
      | DefaultPolicy.none => err (CompileError.undeclaredGlobal name)
      | DefaultPolicy.star GlobalKind.const => err (CompileError.constGlobalAssign name)
      | _ => pure ()

/-- The target of an assignment to a name. -/
def identLvalue (name : Name) : CompileM Lvalue := do
  let resolved ← resolveLocal name
  let shadowGlobal := isShadowGlobal resolved
  match resolved, shadowGlobal with
  | some d, false =>
      if d.kind.isConst then ice "assignment to const variable" else return Lvalue.local d.register
  | _, _ => do
      let captured ← if shadowGlobal then pure none else resolveOrCapture name
      match captured with
      | some (ResolvedName.const _) => ice "assignment to const variable"
      | some (ResolvedName.upvalue idx) => return Lvalue.upvalue idx
      | none => do
          checkGlobalWrite (← get).globals name
          let (key, icIdx) ← allocFieldKey name
          let envIdx ← resolveEnvUpvalue
          return Lvalue.global envIdx key icIdx

/-- `compile_indexed_subexpr`: copy the operand when it is a local that is also a target. -/
def indexedSubexpr (operand : CompileM ℕ) (targetLocalRegs : List ℕ) : CompileM ℕ := do
  let reg ← operand
  if reg ∈ targetLocalRegs then
    let temp ← allocRegister
    emit (Instruction.move temp reg)
    return temp
  else return reg

/-- Emit the store to a target; a self-store of a local is elided. -/
def emitStore (lv : Lvalue) (src : ℕ) : CompileM Unit :=
  match lv with
  | Lvalue.local dst => if dst ≠ src then emit (Instruction.move dst src) else pure ()
  | Lvalue.upvalue idx => emit (Instruction.setupval src idx)
  | Lvalue.global envIdx key icIdx => emit (Instruction.settabup src envIdx icIdx key)
  | Lvalue.indexed table key => emit (Instruction.settable src table key)
  | Lvalue.field table keyIdx icIdx => emit (Instruction.setfield src table icIdx keyIdx)

/-- For every value, the local register it may be evaluated into: its target, unless a later value
reads it.  A value without a target is an index out of range. -/
def assignHints (scope : List Scope) (lvalues : List Lvalue) :
    List Expr → CompileM (List (Option ℕ))
  | [] => return []
  | _ :: rest => do
      let lv ← unwrap lvalues.head?
      let hint :=
        match localDst lv with
        | some dst => if anyReads scope dst rest then none else some dst
        | none => none
      let hints ← assignHints scope lvalues.tail rest
      return hint :: hints

/-- What is left to store after a value was put into `reg`. -/
def pendingStore (hint : Option ℕ) (reg : ℕ) : Option ℕ :=
  if hint = some reg then none else some reg

/-- Nil for the targets without a value. -/
def assignPad : List Lvalue → CompileM (List (Option ℕ))
  | [] => return []
  | lv :: rest => do
      let nil ← allocConstant Value.nil
      let hint := localDst lv
      let reg ← dstOrAlloc hint
      emit (Instruction.load reg nil)
      let pending ← assignPad rest
      return pendingStore hint reg :: pending

/-- Save the sources that alias an earlier target; `earlier` are the targets before this point. -/
def saveSources (earlier : List ℕ) : List Lvalue → List (Option ℕ) → CompileM (List (Option ℕ))
  | lv :: lvalues, src :: pending => do
      let src ←
        match src with
        | some r =>
            if r ∈ earlier then do
              let temp ← allocRegister
              emit (Instruction.move temp r)
              pure (some temp)
            else pure (some r)
        | none => pure none
      let rest ← saveSources (earlier ++ (localDst lv).toList) lvalues pending
      return src :: rest
  | _, pending => return pending

/-- The stores of an assignment, in order. -/
def emitStores : List Lvalue → List (Option ℕ) → CompileM Unit
  | lv :: lvalues, src :: pending => do
      match src with
      | some val => emitStore lv val
      | none => pure ()
      emitStores lvalues pending
  | _, _ => pure ()

/-- `compile_assign`, given the compilations of the targets and of the values. -/
def assignStmt (targets values : List Expr) (lvalues : List ℕ → CompileM (List Lvalue))
    (sources : List (Option ℕ) → CompileM (List (Option ℕ))) : CompileM Unit := do
  let c ← get
  let freeregBefore := c.chunk.freereg
  let lvalues ← lvalues (targets.filterMap (targetLocalReg c.scope))
  let hints ← assignHints c.scope lvalues values
  let pending ← sources hints
  let pad ← assignPad (lvalues.drop pending.length)
  let pending ← saveSources [] lvalues (pending ++ pad)
  emitStores lvalues pending
  ensure (freeregBefore ≤ (← getChunk).freereg)
  setFreereg freeregBefore

/-- `compile_assign_lhs`. -/
def assignLhs (lvalue : CompileM Lvalue) (value : ℕ) : CompileM Unit := do
  let freeregBefore := (← getChunk).freereg
  let lv ← lvalue
  emitStore lv value
  setFreereg freeregBefore

/-! ### Functions -/

/-- Resolve one jump patch. -/
def resolvePatch (labels : List ℕ) (tape : List Instruction) (patch : ℕ × ℕ) :
    Except Fault (List Instruction) :=
  match labels[patch.2]?, tape[patch.1]? with
  | some target, some instr =>
      let offset := jumpOffset patch.1 target
      match instr with
      | Instruction.jmp _ => .ok (tape.set patch.1 (Instruction.jmp offset))
      | Instruction.forprep base _ => .ok (tape.set patch.1 (Instruction.forprep base offset))
      | Instruction.forloop base _ => .ok (tape.set patch.1 (Instruction.forloop base offset))
      | Instruction.tforprep base _ => .ok (tape.set patch.1 (Instruction.tforprep base offset))
      | Instruction.tforloop base _ => .ok (tape.set patch.1 (Instruction.tforloop base offset))
      | _ => .error Fault.panic
  | _, _ => .error Fault.panic

/-- Resolve the jump patches and convert into a prototype. -/
def assemble (c : Chunk) : Except Fault Prototype := do
  let code ← c.jumpPatches.foldlM (resolvePatch c.labels) c.tape
  return {
    code := code
    constants := c.constants
    prototypes := c.prototypes
    upvalueDesc := c.upvalueDesc
    numParams := c.arity
    isVararg := c.isVararg
    needsVarargTable :=
      match c.varargInfo with
      | some i => i.needsTable
      | none => false
    maxStackSize := c.maxStack
    numUpvalues := c.upvalueDesc.length % 2 ^ 8
    icTable := c.nextIcIdx }

/-- Bind the parameters to fresh registers; returns their number. -/
def bindParams : List Name → ℕ → CompileM ℕ
  | [], numParams => return numParams
  | name :: rest, numParams => do
      let reg ← allocRegister
      define name { register := reg, kind := VarKind.reg }
      let numParams ← addU8 numParams 1
      bindParams rest numParams

/-- An escaped named vararg is a table. -/
def Instruction.materialize : Instruction → Instruction
  | varargget dst base key => gettable dst base key
  | i => i

def Instruction.isTerminator : Instruction → Bool
  | .return .. => true
  | tailcall .. => true
  | _ => false

/-- What a function does before its body: the prologue and the parameters. -/
def functionPrologue (params : List Name) (isVararg : Bool) (varargName : Option Name)
    (arity : ℕ) : CompileM Unit := do
  pushScope
  if isVararg then emit (Instruction.varargprep arity)
  let numParams ← bindParams params 0
  adjustLocals numParams
  match varargName with
  | some name => do
      let argsReg ← allocRegister
      define name { register := argsReg, kind := VarKind.varargParam }
      let n ← addU8 numParams 1
      adjustLocals n
      modifyChunk fun c =>
        { c with varargInfo := some { usedAsNonBase := false, captured := false } }
  | none => pure ()

/-- What `functionPrologue` binds in the scope of the function. -/
def prologueLocals (params : List Name) (varargName : Option Name) : CompileM Unit := do
  let numParams ← bindParams params 0
  adjustLocals numParams
  match varargName with
  | some name => do
      let argsReg ← allocRegister
      define name { register := argsReg, kind := VarKind.varargParam }
      let n ← addU8 numParams 1
      adjustLocals n
      modifyChunk fun c =>
        { c with varargInfo := some { usedAsNonBase := false, captured := false } }
  | none => pure ()

/-- What a function does behind its body: the implicit return and the close. -/
def functionEpilogue : CompileM Unit := do
  let c ← getChunk
  if (match c.varargInfo with
      | some i => i.needsTable
      | none => false) then
    modifyChunk fun c => { c with tape := c.tape.map Instruction.materialize }
  let c ← getChunk
  let lastIsTerminator :=
    match c.tape.getLast? with
    | some i => i.isTerminator
    | none => false
  if c.tape.length ≤ c.lastTarget || !lastIsTerminator then emit (Instruction.return 0 1)
  let closeRegs ← popScope
  match closeRegs with
  | first :: _ => do
      let c ← getChunk
      let ret ← unwrap c.tape.getLast?
      modifyChunk fun c => { c with tape := c.tape.dropLast ++ [Instruction.close first, ret] }
  | [] => pure ()
  modify fun c => { c with chunk := { c.chunk with upvalueDesc := c.upvalues.map Prod.snd } }

/-- The context a function's compilation starts in. -/
def initialCtx (capture : List Enclosing) (isVararg : Bool) (arity : ℕ)
    (initialUpvalues : List (Name × UpValueDescriptor)) (globals : GlobalEnv)
    (num : NumOps) : Ctx :=
  { chunk := { Chunk.new with isVararg := isVararg, arity := arity }
    controlEndLabel := []
    scope := []
    scopeMarks := []
    scopeClose := []
    scopeGlobals := []
    gotoLabels := []
    capture := capture
    upvalues := initialUpvalues
    globals := globals
    num := num
    events := [] }

/-- `compile_function_to_chunk`, given the compilation of the body: the context at the end. -/
def functionToChunk (capture : List Enclosing) (params : List Name) (isVararg : Bool)
    (varargName : Option Name) (arity : ℕ) (initialUpvalues : List (Name × UpValueDescriptor))
    (globals : GlobalEnv) (num : NumOps) (body : CompileM Unit) : Except Fault Ctx := do
  let r ←
    (do
      functionPrologue params isVararg varargName arity
      body
      functionEpilogue : CompileM Unit).run
      (initialCtx capture isVararg arity initialUpvalues globals num)
  return r.2

/-- `compile_nested`: the prototype of a nested function.  Of the enclosing context the child may
change only what it reaches through its captures. -/
def compileNested (params : List Name) (vararg : Option (Option Name)) (body : CompileM Unit) :
    CompileM Prototype := do
  let c ← get
  let parent : Enclosing :=
    { scope := c.scope, upvalues := c.upvalues, varargInfo := c.chunk.varargInfo }
  let child ←
    liftM (functionToChunk (parent :: c.capture) params vararg.isSome vararg.join
      (params.length % 2 ^ 8) [] c.globals c.num body)
  match child.capture with
  | parent :: capture => do
      set
        { c with
          capture := capture
          upvalues := parent.upvalues
          chunk := { c.chunk with varargInfo := parent.varargInfo } }
      liftM (assemble child.chunk)
  | [] => throw Fault.panic

/-- The closure of a nested function: `compile_func_body` and `compile_expr_func`. -/
def funcReg (params : List Name) (vararg : Option (Option Name)) (body : CompileM Unit)
    (dst : Option ℕ) : CompileM ℕ := do
  let proto ← compileNested params vararg body
  let c ← getChunk
  modifyChunk fun c => { c with prototypes := c.prototypes ++ [proto] }
  let dst ← dstOrAlloc dst
  emit (Instruction.closure dst (c.prototypes.length % 2 ^ 16))
  return dst

/-! ### Statements without sub-statements -/

/-- `compile_label`: the definition of a label moves the label of its name here. -/
def compileLabel (name : Name) : CompileM Unit := do
  let c ← get
  match c.gotoLabels.lookup name with
  | some label => setLabel label c.chunk.tape.length
  | none => do
      let label ← newLabel
      setLabel label c.chunk.tape.length
      modify fun c => { c with gotoLabels := (name, label) :: c.gotoLabels }
  record (Event.label name c.chunk.tape.length)

/-- `compile_goto`: a jump to the label of the name, which may be defined later. -/
def compileGoto (name : Name) : CompileM Unit := do
  let c ← get
  match c.gotoLabels.lookup name with
  | some label => emitJump label
  | none => do
      let label ← newLabel
      modify fun c => { c with gotoLabels := (name, label) :: c.gotoLabels }
      emitJump label
  record (Event.goto name c.chunk.tape.length)

def compileBreak : CompileM Unit := do
  let c ← get
  match c.controlEndLabel with
  | label :: _ => emitJump label
  | [] => ice "break outside of loop"

/-- Declare a global in the innermost scope. -/
def declareGlobal (name : Name) (kind : GlobalKind) : CompileM Unit := do
  modify fun c => { c with globals := { c.globals with decls := (name, kind) :: c.globals.decls } }
  define name { register := 0, kind := VarKind.global }

def voidPreamble : CompileM Unit := modify fun c => { c with globals := c.globals.voidPreamble }

/-- The guarded initialization of a global from a register. -/
def initGlobal (name : Name) (envIdx : ℕ) (src : ℕ) : CompileM Unit := do
  let (key, icIdx) ← allocFieldKey name
  let guardReg ← allocRegister
  emit (Instruction.gettabup guardReg envIdx icIdx key)
  emit (Instruction.errnnil guardReg key)
  emit (Instruction.settabup src envIdx icIdx key)
  freeReg guardReg

/-- `global function name body`. -/
def globalFunction (name : Name) (closure : Option ℕ → CompileM ℕ) : CompileM Unit := do
  voidPreamble
  declareGlobal name GlobalKind.reg
  let targetReg ← allocRegister
  let func ← closure (some targetReg)
  ensure (func = targetReg)
  let (key, icIdx) ← allocFieldKey name
  let envIdx ← resolveEnvUpvalue
  let guardReg ← allocRegister
  emit (Instruction.gettabup guardReg envIdx icIdx key)
  emit (Instruction.errnnil guardReg key)
  emit (Instruction.settabup func envIdx icIdx key)
  freeReg guardReg
  freeReg targetReg

/-- The guarded initializations of a `global` list. -/
def initGlobals (envIdx valueBase : ℕ) : List GlobalTarget → ℕ → CompileM Unit
  | [], _ => pure ()
  | target :: rest, i => do
      let src ← addU8 valueBase (i % 2 ^ 8)
      initGlobal target.name envIdx src
      initGlobals envIdx valueBase rest (i + 1)

/-- `global *`. -/
def globalStar (defaultConst : Bool) : CompileM Unit :=
  modify fun c =>
    { c with
      globals :=
        { c.globals with
          default :=
            DefaultPolicy.star (if defaultConst then GlobalKind.const else GlobalKind.reg) } }

/-- The kind of a `global` target. -/
def globalKind (defaultConst : Bool) (target : GlobalTarget) : GlobalKind :=
  if target.isConst || defaultConst then GlobalKind.const else GlobalKind.reg

/-- `global` with a list of names, given the compilation of the initializers. -/
def globalList (defaultConst : Bool) (targets : List GlobalTarget) (numValues : ℕ)
    (values : ℕ → CompileM Unit) : CompileM Unit := do
  let valueBase := (← getChunk).freereg
  if numValues ≠ 0 then
    values valueBase
    let top ← addU8 valueBase (targets.length % 2 ^ 8)
    padNil top
    if targets.length < numValues then setFreereg top
  voidPreamble
  targets.forM fun target => declareGlobal target.name (globalKind defaultConst target)
  if numValues ≠ 0 then
    let envIdx ← resolveEnvUpvalue
    initGlobals envIdx valueBase targets 0
    setFreereg valueBase

/-- Bind the targets of a `local` declaration to their slots. -/
def bindTargets (base : ℕ) (consts : List (Option ConstVal)) : List DeclTarget → ℕ → CompileM Unit
  | [], _ => pure ()
  | target :: rest, i => do
      let kind :=
        match target.modifier with
        | some DeclModifier.const => VarKind.const (consts[i]?.join)
        | some DeclModifier.close => VarKind.toClose
        | none => VarKind.reg
      let reg ← addU8 base (i % 2 ^ 8)
      if kind = VarKind.toClose then
        emit (Instruction.tbc reg)
        markClose reg
      define target.name { register := reg, kind := kind }
      bindTargets base consts rest (i + 1)

/-- `local` with a list of names, given the compilation of the initializers, which returns the
compile-time values of the targets. -/
def declList (targets : List DeclTarget)
    (values : ℕ → List (Option ConstVal) → CompileM (List (Option ConstVal))) : CompileM Unit := do
  let base := (← getChunk).freereg
  let consts ← values base (List.replicate targets.length none)
  let top ← addU8 base (targets.length % 2 ^ 8)
  let filled := (← getChunk).freereg - base
  padNil top
  let consts := consts.mapIdx fun t v =>
    if filled ≤ t && t < top - base then some ConstVal.nil else v
  bindTargets base consts targets 0
  adjustLocals (targets.length % 2 ^ 8)

/-- `local function name body`. -/
def localFunction (name : Name) (closure : Option ℕ → CompileM ℕ) : CompileM Unit := do
  let reg ← allocRegister
  define name { register := reg, kind := VarKind.reg }
  adjustLocals 1
  let func ← closure (some reg)
  if func ≠ reg then emit (Instruction.move reg func)

/-! ### Control flow -/

/-- `compile_branch_cond_false`: the jumps to take when the condition is falsy; the code falls
through when it is truthy. -/
def branchCondFalse (cond : CompileM ExprDesc) : CompileM (List ℕ) := do
  let desc ← cond
  let desc ← goiftrue desc
  patchToHere desc.trueList
  return desc.falseList

/-- `while`. -/
def whileLoop (cond : CompileM ExprDesc) (body : CompileM Unit) : CompileM Unit :=
  scopeLexicalBreak do
    let loopStart ← newLabel
    setLabel loopStart (← nextOffset)
    let breakList ← branchCondFalse cond
    body
    emitJump loopStart
    let c ← get
    match c.controlEndLabel with
    | breakLabel :: _ => do
        downgradeTestsets breakList
        modifyChunk fun c =>
          { c with jumpPatches := c.jumpPatches ++ breakList.map fun idx => (idx, breakLabel) }
    | [] => ice "missing break label"

/-- `repeat`: the condition is in the scope of the body. -/
def repeatLoop (body : CompileM Unit) (cond : CompileM ExprDesc) : CompileM Unit :=
  scopeBreak <| scopeLexical do
    let loopStart ← nextOffset
    body
    let falseList ← branchCondFalse cond
    patchTo falseList loopStart

/-- `compile_if`. -/
def ifStmt (chain : ℕ → CompileM Unit) : CompileM Unit := do
  let endLabel ← newLabel
  chain endLabel
  setLabel endLabel (← nextOffset)

/-- One condition with its block; `rest` is what follows when there is an else chain. -/
def ifChain (cond : CompileM ExprDesc) (block : CompileM Unit) (rest : Option (CompileM Unit))
    (endLabel : ℕ) : CompileM Unit := do
  let elseList ← branchCondFalse cond
  scopeLexical block
  if rest.isSome then emitJump endLabel
  patchToHere elseList
  match rest with
  | some compile => compile
  | none => pure ()

/-- Move an operand into its control register and free its temp. -/
def controlOperand (operand : CompileM ℕ) (target : ℕ) : CompileM Unit := do
  let reg ← operand
  if reg ≠ target then
    emit (Instruction.move target reg)
    freeReg reg

/-- The part of a numeric `for` between its operands and its body, with the labels of the loop. -/
def forNumEntry (counter : Name) (base stepReg : ℕ) : CompileM (ℕ × ℕ) := do
  let next ← addU8 stepReg 1
  ensure ((← getChunk).freereg = next)
  adjustLocals 3
  let loopVar ← allocRegister
  let expected ← addU8 base 3
  ensure (loopVar = expected)
  define counter { register := loopVar, kind := VarKind.const none }
  adjustLocals 1
  let loopBody ← newLabel
  let loopEnd ← newLabel
  emitJumpInstr loopEnd (Instruction.forprep base 0)
  setLabel loopBody (← nextOffset)
  return (loopBody, loopEnd)

/-- Numeric `for`; the operands are given the register they are hinted into. -/
def forNumLoop (counter : Name) (init limit : Option ℕ → CompileM ℕ)
    (step : Option (Option ℕ → CompileM ℕ)) (body : CompileM Unit) : CompileM Unit :=
  scopeLexicalBreak do
    let base ← allocRegister
    let limitReg ← allocRegister
    let stepReg ← allocRegister
    controlOperand (init (some base)) base
    controlOperand (limit (some limitReg)) limitReg
    match step with
    | some step => controlOperand (step (some stepReg)) stepReg
    | none => do
        let oneIdx ← allocConstant (Value.integer 1)
        emit (Instruction.load stepReg oneIdx)
    let (loopBody, loopEnd) ← forNumEntry counter base stepReg
    body
    emitJumpInstr loopBody (Instruction.forloop base 0)
    setLabel loopEnd (← nextOffset)

/-- Bind the variables of a generic `for` to the registers behind the control triple. -/
def bindLoopVars (base : ℕ) : List Name → ℕ → CompileM Unit
  | [], _ => pure ()
  | name :: rest, i => do
      let reg ← allocRegister
      let first ← addU8 base 3
      let expected ← addU8 first (i % 2 ^ 8)
      ensure (reg = expected)
      define name { register := reg, kind := VarKind.const none }
      bindLoopVars base rest (i + 1)

/-- The part of a generic `for` between its initializers and its body. -/
def forGenEntry (targets : List Name) (base : ℕ) : CompileM (ℕ × ℕ) := do
  let top ← addU8 base 3
  padNil top
  setFreereg top
  adjustLocals 3
  bindLoopVars base targets 0
  adjustLocals (targets.length % 2 ^ 8)
  let loopBody ← newLabel
  let loopTest ← newLabel
  emitJumpInstr loopTest (Instruction.tforprep base 0)
  setLabel loopBody (← nextOffset)
  return (loopBody, loopTest)

/-- Generic `for`, given the compilation of its initializers. -/
def forGenLoop (targets : List Name) (values : ℕ → CompileM Unit) (body : CompileM Unit) :
    CompileM Unit :=
  scopeLexicalBreak do
    let base := (← getChunk).freereg
    values base
    let (loopBody, loopTest) ← forGenEntry targets base
    body
    setLabel loopTest (← nextOffset)
    emit (Instruction.tforcall base (targets.length % 2 ^ 8))
    emitJumpInstr loopBody (Instruction.tforloop base 0)

/-- Flush pending array entries of a table constructor. -/
def flushArray (table base count pending : ℕ) : CompileM Unit := do
  if 0 < pending then
    emit (Instruction.setlist table pending (count - pending))
    setFreereg base

/-- An array entry, with the number of array entries and of pending ones before it and after it. -/
def arrayItem (isLast : Bool) (multi : Multires) (value : Option ℕ → CompileM ℕ)
    (table base count pending : ℕ) : CompileM (ℕ × ℕ) := do
  let slot ← addU8 base pending
  if isLast && multi.isMulti then
    let _ ← trailingMultires multi (throw Fault.panic) slot
    emit (Instruction.setlist table 0 (count - pending))
    setFreereg base
    return (count, 0)
  else
    let val ← value (some slot)
    if val ≠ slot then
      allocUpTo (slot + 1)
      emit (Instruction.move slot val)
      freeReg val
    ensure (count + 1 < 2 ^ 16)
    if 50 ≤ pending + 1 then
      flushArray table base (count + 1) (pending + 1)
      return (count + 1, 0)
    else return (count + 1, pending + 1)

/-- `field = value`. -/
def mapItem (field : Name) (value : CompileM ℕ) (table base count pending : ℕ) :
    CompileM Unit := do
  flushArray table base count pending
  let (keyIdx, icIdx) ← allocFieldKey field
  let val ← value
  emit (Instruction.setfield val table icIdx keyIdx)
  freeReg val

/-- `[key] = value`. -/
def genericItem (key value : CompileM ℕ) (table base count pending : ℕ) : CompileM Unit := do
  flushArray table base count pending
  let key ← key
  let val ← value
  emit (Instruction.settable val table key)
  freeRegs val key

/-- `compile_expr_table`, given the compilation of the entries. -/
def tableDesc (entries : ℕ → ℕ → CompileM Unit) : CompileM ExprDesc := do
  let dst ← allocRegister
  emit (Instruction.newtable dst)
  let base := (← getChunk).freereg
  entries dst base
  return ExprDesc.fromReg dst

/-- The value of an `Option`al lone expression in `return e`. -/
def returnSingle (compile : CompileM ExprDesc) : CompileM Unit := do
  let desc ← compile
  match desc.kind, desc.hasJumps with
  | ExprKind.reg reg, false => emit (Instruction.return reg 2)
  | _, _ => do
      let firstReg ← allocRegister
      let r ← dischargeToRegMut desc (some firstReg)
      if r.2 ≠ firstReg then emit (Instruction.move firstReg r.2)
      emit (Instruction.return firstReg 2)

/-- `return` with several values, given their compilation from a register on. -/
def returnGeneric (n : ℕ) (window : ℕ → CompileM Bool) : CompileM Unit := do
  let firstReg ← allocRegister
  let multi ← window firstReg
  let count ← if multi then pure 0 else addU8 (n % 2 ^ 8) 1
  emit (Instruction.return firstReg count)

/-- `return ...`. -/
def returnVararg : CompileM Unit := do
  let dst ← allocRegister
  emit (Instruction.vararg dst 0)
  emit (Instruction.return dst 0)

/-- `compile_return` with one expression. -/
def returnOne (multi : Multires) (single : CompileM ExprDesc) : CompileM Unit :=
  match multi with
  | Multires.funcCall setup => tailCall setup
  | Multires.method setup => tailCall setup
  | Multires.varArg => returnVararg
  | Multires.single => returnSingle single

/-- `compile_stmt_expr`; the parser accepts calls only, the other forms drop their temps. -/
def stmtExpr (multi : Multires) (single : CompileM ℕ) : CompileM Unit :=
  match multi with
  | Multires.funcCall setup => callStmt setup
  | Multires.method setup => callStmt setup
  | _ => do
      let _ ← single
      setFreereg (← getChunk).nactvar

/-! ### The recursion -/

mutual

/-- `compile_expr`. -/
def compileExpr : Expr → Option ℕ → CompileM ExprDesc
  | Expr.prefixOp op rhs, dst => prefixOpDesc op (compileExpr rhs none) dst
  | Expr.binaryOp op lhs rhs, dst => do
      let scope := (← get).scope
      binaryOpDesc op (resolveVarargBase scope lhs) (propertyFieldName rhs)
        (fun hint => compileExpr lhs hint) (fun hint => compileExpr rhs hint) dst
  | Expr.method object method args, _ => do
      let regs ←
        callResults
          (methodCallSetup (toReg (compileExpr object none) none) method
            (fun func => callArgs args.length 2 (compileWindow args func 2 0)))
          (Want.exact 1)
      return ExprDesc.fromReg (← unwrap regs[0]?)
  | Expr.ident name, dst => compileExprIdent name dst
  | Expr.literal value, dst => compileExprLiteral value dst
  | Expr.func (FuncBody.mk params vararg block), dst => do
      let reg ← funcReg params vararg (compileBlock block) dst
      return ExprDesc.fromReg reg
  | Expr.table entries, _ => tableDesc fun dst base => compileEntries entries dst base 0 0
  | Expr.funcCall target args, _ => do
      let regs ←
        callResults
          (funcCallSetup (toReg (compileExpr target none) none)
            (fun func => callArgs args.length 1 (compileWindow args func 1 0)))
          (Want.exact 1)
      return ExprDesc.fromReg (← unwrap regs[0]?)
  | Expr.index target index, dst => do
      let scope := (← get).scope
      let reg ←
        indexReg (resolveVarargBase scope target) (toReg (compileExpr target none) none)
          (toReg (compileExpr index none) none) dst
      return ExprDesc.fromReg reg
  | Expr.varArg, dst => do
      let dst ← dstOrAlloc dst
      emit (Instruction.vararg dst 2)
      return ExprDesc.fromReg dst
  | Expr.paren inner, dst => compileExpr inner dst

/-- The calls and the vararg among the expressions, for the places that expand them. -/
def compileMultires : Expr → Multires
  | Expr.funcCall target args =>
      Multires.funcCall
        (funcCallSetup (toReg (compileExpr target none) none)
          (fun func => callArgs args.length 1 (compileWindow args func 1 0)))
  | Expr.method object method args =>
      Multires.method
        (methodCallSetup (toReg (compileExpr object none) none) method
          (fun func => callArgs args.length 2 (compileWindow args func 2 0)))
  | Expr.varArg => Multires.varArg
  | _ => Multires.single

/-- The expressions from the `i`-th on in consecutive registers from `base + offset` on, the last
one with all its values; returns whether their number is open. -/
def compileWindow : List Expr → ℕ → ℕ → ℕ → CompileM Bool
  | [], _, _, _ => return false
  | e :: rest, base, offset, i => do
      let first ← addU8 base offset
      let target ← addU8 first (i % 2 ^ 8)
      if rest.isEmpty then
        trailingMultires (compileMultires e) (toReg (compileExpr e (some target)) (some target))
          target
      else
        let reg ← toReg (compileExpr e (some target)) (some target)
        moveInto reg target
        compileWindow rest base offset (i + 1)

/-- The entries of a table constructor, with the number of array entries so far and how many of
them are pending. -/
def compileEntries : List TableEntry → ℕ → ℕ → ℕ → ℕ → CompileM Unit
  | [], table, base, count, pending => flushArray table base count pending
  | TableEntry.array value :: rest, table, base, count, pending => do
      let next ←
        arrayItem rest.isEmpty (compileMultires value)
          (fun hint => toReg (compileExpr value hint) hint) table base count pending
      compileEntries rest table base next.1 next.2
  | TableEntry.map field value :: rest, table, base, count, pending => do
      mapItem field (toReg (compileExpr value none) none) table base count pending
      compileEntries rest table base count 0
  | TableEntry.generic index value :: rest, table, base, count, pending => do
      genericItem (toReg (compileExpr index none) none) (toReg (compileExpr value none) none) table
        base count pending
      compileEntries rest table base count 0

/-- The initializers of a `local` declaration from the `i`-th on, with the compile-time values of
the targets so far. -/
def compileDeclValues : List Expr → ℕ → ℕ → ℕ → ℕ → List (Option ConstVal) →
    CompileM (List (Option ConstVal))
  | [], _, _, _, _, consts => return consts
  | e :: rest, numTargets, numValues, base, i, consts => do
      let expected ← addU8 base (i % 2 ^ 8)
      let expanded ←
        if rest.isEmpty && numValues < numTargets then
          declExpand (compileMultires e) expected ((numTargets - i) % 2 ^ 8)
        else pure false
      if expanded then return consts
      else
        let desc ← compileExpr e none
        let consts :=
          if desc.hasJumps then consts else consts.set i (ConstVal.fromExprKind desc.kind)
        let r ← dischargeToRegMut desc none
        settleAt r.2 expected
        compileDeclValues rest numTargets numValues base (i + 1) consts

/-- The initializers of a `global` list from the `i`-th on. -/
def compileGlobalValues : List Expr → ℕ → ℕ → ℕ → ℕ → CompileM Unit
  | [], _, _, _, _ => pure ()
  | e :: rest, numTargets, numValues, base, i => do
      let want ← addU8 base (i % 2 ^ 8)
      let expanded ←
        if rest.isEmpty && numValues < numTargets then
          globalExpand (compileMultires e) want (numTargets - i)
        else pure false
      if expanded then pure ()
      else
        let got ← toReg (compileExpr e none) none
        settleAt got want
        compileGlobalValues rest numTargets numValues base (i + 1)

/-- The initializers of a generic `for` from the `i`-th on. -/
def compileForValues : List Expr → ℕ → ℕ → ℕ → CompileM Unit
  | [], _, _, _ => pure ()
  | e :: rest, numValues, base, i => do
      let expected ← addU8 base (i % 2 ^ 8)
      let expanded ←
        if rest.isEmpty && numValues < 3 then
          forGenExpand (compileMultires e) expected (3 - i)
        else pure false
      if expanded then pure ()
      else
        let reg ← toReg (compileExpr e none) none
        settleAt reg expected
        compileForValues rest numValues base (i + 1)

/-- `compile_lvalue`. -/
def compileLvalue : Expr → List ℕ → CompileM Lvalue
  | Expr.ident name, _ => identLvalue name
  | Expr.index target index, targetLocalRegs => do
      let table ← indexedSubexpr (toReg (compileExpr target none) none) targetLocalRegs
      let key ← indexedSubexpr (toReg (compileExpr index none) none) targetLocalRegs
      return Lvalue.indexed table key
  | Expr.binaryOp BinaryOperator.property target field, targetLocalRegs => do
      let table ← indexedSubexpr (toReg (compileExpr target none) none) targetLocalRegs
      match propertyFieldName field with
      | some name => do
          let (keyIdx, icIdx) ← allocFieldKey name
          return Lvalue.field table keyIdx icIdx
      | none => do
          let key ← toReg (compileExpr field none) none
          return Lvalue.indexed table key
  | Expr.binaryOp _ _ _, _ => ice "non-property binop as assignment target"
  | _, _ => ice "invalid assignment target"

/-- The targets of an assignment, first to last. -/
def compileLvalues : List Expr → List ℕ → CompileM (List Lvalue)
  | [], _ => return []
  | target :: rest, targetLocalRegs => do
      let lv ← compileLvalue target targetLocalRegs
      let lvs ← compileLvalues rest targetLocalRegs
      return lv :: lvs

/-- The values of an assignment from the `i`-th on: for each target what is left to store. -/
def compileSources : List Expr → List (Option ℕ) → ℕ → ℕ → ℕ → CompileM (List (Option ℕ))
  | [], _, _, _, _ => return []
  | e :: rest, hints, numTargets, numValues, i => do
      match compileMultires e, rest.isEmpty && numValues < numTargets with
      | Multires.funcCall setup, true => do
          let regs ← callResults setup (Want.exact ((numTargets - i) % 2 ^ 8))
          return regs.map some
      | _, _ => do
          let hint := hints.head?.join
          let reg ← toReg (compileExpr e hint) hint
          let pending ← compileSources rest hints.tail numTargets numValues (i + 1)
          return pendingStore hint reg :: pending

/-- The statements of a block, in order. -/
def compileBlock : List Stmt → CompileM Unit
  | [] => pure ()
  | s :: rest => do
      compileStmt s
      compileBlock rest

/-- `compile_stmt`. -/
def compileStmt : Stmt → CompileM Unit
  | Stmt.label name => compileLabel name
  | Stmt.goto name => compileGoto name
  | Stmt.localFunction name (FuncBody.mk params vararg block) =>
      localFunction name (funcReg params vararg (compileBlock block))
  | Stmt.decl targets values =>
      declList targets fun base consts =>
        compileDeclValues values targets.length values.length base 0 consts
  | Stmt.globalFunction name (FuncBody.mk params vararg block) =>
      globalFunction name (funcReg params vararg (compileBlock block))
  | Stmt.globalStar defaultConst => globalStar defaultConst
  | Stmt.global defaultConst targets values =>
      globalList defaultConst targets values.length fun base =>
        compileGlobalValues values targets.length values.length base 0
  | Stmt.assign targets values =>
      assignStmt targets values (fun targetLocalRegs => compileLvalues targets targetLocalRegs)
        (fun hints => compileSources values hints targets.length values.length 0)
  | Stmt.func target (FuncBody.mk params vararg block) => do
      let value ← funcReg params vararg (compileBlock block) none
      assignLhs (compileLvalue target []) value
  | Stmt.expr e => stmtExpr (compileMultires e) (toReg (compileExpr e none) none)
  | Stmt.breakStmt => compileBreak
  | Stmt.returnStmt [] => emit (Instruction.return 0 1)
  | Stmt.returnStmt [e] => returnOne (compileMultires e) (compileExpr e none)
  | Stmt.returnStmt (e :: e' :: rest) =>
      returnGeneric (rest.length + 2) fun first => compileWindow (e :: e' :: rest) first 0 0
  | Stmt.doStmt stmts => scopeLexical (compileBlock stmts)
  | Stmt.whileStmt cond block => whileLoop (compileExpr cond none) (compileBlock block)
  | Stmt.repeatStmt block cond => repeatLoop (compileBlock block) (compileExpr cond none)
  | Stmt.ifStmt chain => ifStmt fun endLabel => compileIfChain chain endLabel
  | Stmt.forNum counter init limit (some step) block =>
      forNumLoop counter (fun hint => toReg (compileExpr init hint) hint)
        (fun hint => toReg (compileExpr limit hint) hint)
        (some fun hint => toReg (compileExpr step hint) hint) (compileBlock block)
  | Stmt.forNum counter init limit none block =>
      forNumLoop counter (fun hint => toReg (compileExpr init hint) hint)
        (fun hint => toReg (compileExpr limit hint) hint) none (compileBlock block)
  | Stmt.forGen targets values block =>
      forGenLoop targets (fun base => compileForValues values values.length base 0)
        (compileBlock block)

/-- `compile_if_chain`. -/
def compileIfChain : IfChain → ℕ → CompileM Unit
  | IfChain.mk cond stmts elseChain, endLabel =>
      ifChain (compileExpr cond none) (compileBlock stmts) (compileElse elseChain endLabel) endLabel

/-- What follows the block of a condition, if anything. -/
def compileElse : ElseChain → ℕ → Option (CompileM Unit)
  | ElseChain.none, _ => none
  | ElseChain.elseIf chain, endLabel => some (compileIfChain chain endLabel)
  | ElseChain.elseBlock stmts, _ => some (scopeLexical (compileBlock stmts))

end

/-- `compile`: the context of the main chunk at the end. -/
def compileMain (num : NumOps) (block : List Stmt) : Except Fault Ctx :=
  functionToChunk [] [] true none 0 [(envName, UpValueDescriptor.parentLocal 0)] GlobalEnv.new num
    (compileBlock block)

/-- `compile`: the prototype of a chunk. -/
def compile (num : NumOps) (block : List Stmt) : Except Fault Prototype := do
  assemble (← compileMain num block).chunk

end Tcvm
