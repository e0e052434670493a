/-
A compiler that is told which declarations are in force.

The recursion of the compiler once more, with two differences: it carries the declarations in force
along the syntax, and it leaves the uses of names to `NameRules`, which are given the declarations
in force at the use.  Its declarations are those of the text: a block or a function body is compiled
under what is in force around it and what it declares itself, and behind it the declarations are
again those in front of it.

With `manualRules`, a use of a name is decided by the declarations in force and by nothing else;
this is the reference that the compiler is compared with.

* `NameRules` — what to do with the uses of names;
* `NameRules.expr`, `NameRules.stmt`, `NameRules.block`, … — the recursion;
* `manualRules` — the uses of names by the rules of the manual;
* `NameRules.main` — a whole chunk.
-/

import Tcvm.CompilerRules
import Tcvm.Declarations

namespace Tcvm

open CompileM

/-- What to do with the uses of names under given declarations. -/
structure NameRules where
  /-- A name as an expression. -/
  read : Declarations → Name → Option ℕ → CompileM ExprDesc
  /-- A name as the target of an assignment. -/
  write : Declarations → Name → CompileM Lvalue
  /-- The register of the named vararg, when the indexed expression names it. -/
  varargBase : Declarations → List Scope → Expr → Option ℕ

/-! ### The recursion -/

namespace NameRules

mutual

def expr (N : NameRules) (ds : Declarations) : Expr → Option ℕ → CompileM ExprDesc
  | Expr.prefixOp op rhs, dst => prefixOpDesc op (N.expr ds rhs none) dst
  | Expr.binaryOp op lhs rhs, dst => do
      let scope := (← get).scope
      binaryOpDesc op (N.varargBase ds scope lhs) (propertyFieldName rhs)
        (fun hint => N.expr ds lhs hint) (fun hint => N.expr ds rhs hint) dst
  | Expr.method object method args, _ => do
      let regs ←
        callResults
          (methodCallSetup (toReg (N.expr ds object none) none) method
            (fun func => callArgs args.length 2 (N.window ds args func 2 0)))
          (Want.exact 1)
      return ExprDesc.fromReg (← unwrap regs[0]?)
  | Expr.ident name, dst => N.read ds name dst
  | Expr.literal value, dst => compileExprLiteral value dst
  | Expr.func (FuncBody.mk params vararg block), dst => do
      let reg ← funcReg params vararg (N.block (ds.body params vararg) block) dst
      return ExprDesc.fromReg reg
  | Expr.table entries, _ => tableDesc fun dst base => N.entries ds entries dst base 0 0
  | Expr.funcCall target args, _ => do
      let regs ←
        callResults
          (funcCallSetup (toReg (N.expr ds target none) none)
            (fun func => callArgs args.length 1 (N.window ds args func 1 0)))
          (Want.exact 1)
      return ExprDesc.fromReg (← unwrap regs[0]?)
  | Expr.index target index, dst => do
      let scope := (← get).scope
      let reg ←
        indexReg (N.varargBase ds scope target) (toReg (N.expr ds target none) none)
          (toReg (N.expr ds index none) none) dst
      return ExprDesc.fromReg reg
  | Expr.varArg, dst => do
      let dst ← dstOrAlloc dst
      emit (Instruction.vararg dst 2)
      return ExprDesc.fromReg dst
  | Expr.paren inner, dst => N.expr ds inner dst

def multires (N : NameRules) (ds : Declarations) : Expr → Multires
  | Expr.funcCall target args =>
      Multires.funcCall
        (funcCallSetup (toReg (N.expr ds target none) none)
          (fun func => callArgs args.length 1 (N.window ds args func 1 0)))
  | Expr.method object method args =>
      Multires.method
        (methodCallSetup (toReg (N.expr ds object none) none) method
          (fun func => callArgs args.length 2 (N.window ds args func 2 0)))
  | Expr.varArg => Multires.varArg
  | _ => Multires.single

def window (N : NameRules) (ds : Declarations) : List Expr → ℕ → ℕ → ℕ → CompileM Bool
  | [], _, _, _ => return false
  | e :: rest, base, offset, i => do
      let first ← addU8 base offset
      let target ← addU8 first (i % 2 ^ 8)
      if rest.isEmpty then
        trailingMultires (N.multires ds e) (toReg (N.expr ds e (some target)) (some target)) target
      else
        let reg ← toReg (N.expr ds e (some target)) (some target)
        moveInto reg target
        N.window ds rest base offset (i + 1)

def entries (N : NameRules) (ds : Declarations) : List TableEntry → ℕ → ℕ → ℕ → ℕ → CompileM Unit
  | [], table, base, count, pending => flushArray table base count pending
  | TableEntry.array value :: rest, table, base, count, pending => do
      let next ←
        arrayItem rest.isEmpty (N.multires ds value)
          (fun hint => toReg (N.expr ds value hint) hint) table base count pending
      N.entries ds rest table base next.1 next.2
  | TableEntry.map field value :: rest, table, base, count, pending => do
      mapItem field (toReg (N.expr ds value none) none) table base count pending
      N.entries ds rest table base count 0
  | TableEntry.generic index value :: rest, table, base, count, pending => do
      genericItem (toReg (N.expr ds index none) none) (toReg (N.expr ds value none) none) table
        base count pending
      N.entries ds rest table base count 0

def declValues (N : NameRules) (ds : Declarations) :
    List Expr → ℕ → ℕ → ℕ → ℕ → List (Option ConstVal) → CompileM (List (Option ConstVal))
  | [], _, _, _, _, consts => return consts
  | e :: rest, numTargets, numValues, base, i, consts => do
      let expected ← addU8 base (i % 2 ^ 8)
      let expanded ←
        if rest.isEmpty && numValues < numTargets then
          declExpand (N.multires ds e) expected ((numTargets - i) % 2 ^ 8)
        else pure false
      if expanded then return consts
      else
        let desc ← N.expr ds e none
        let consts :=
          if desc.hasJumps then consts else consts.set i (ConstVal.fromExprKind desc.kind)
        let r ← dischargeToRegMut desc none
        settleAt r.2 expected
        N.declValues ds rest numTargets numValues base (i + 1) consts

def globalValues (N : NameRules) (ds : Declarations) :
    List Expr → ℕ → ℕ → ℕ → ℕ → CompileM Unit
  | [], _, _, _, _ => pure ()
  | e :: rest, numTargets, numValues, base, i => do
      let want ← addU8 base (i % 2 ^ 8)
      let expanded ←
        if rest.isEmpty && numValues < numTargets then
          globalExpand (N.multires ds e) want (numTargets - i)
        else pure false
      if expanded then pure ()
      else
        let got ← toReg (N.expr ds e none) none
        settleAt got want
        N.globalValues ds rest numTargets numValues base (i + 1)

def forValues (N : NameRules) (ds : Declarations) : List Expr → ℕ → ℕ → ℕ → CompileM Unit
  | [], _, _, _ => pure ()
  | e :: rest, numValues, base, i => do
      let expected ← addU8 base (i % 2 ^ 8)
      let expanded ←
        if rest.isEmpty && numValues < 3 then
          forGenExpand (N.multires ds e) expected (3 - i)
        else pure false
      if expanded then pure ()
      else
        let reg ← toReg (N.expr ds e none) none
        settleAt reg expected
        N.forValues ds rest numValues base (i + 1)

def lvalue (N : NameRules) (ds : Declarations) : Expr → List ℕ → CompileM Lvalue
  | Expr.ident name, _ => N.write ds name
  | Expr.index target index, targetLocalRegs => do
      let table ← indexedSubexpr (toReg (N.expr ds target none) none) targetLocalRegs
      let key ← indexedSubexpr (toReg (N.expr ds index none) none) targetLocalRegs
      return Lvalue.indexed table key
  | Expr.binaryOp BinaryOperator.property target field, targetLocalRegs => do
      let table ← indexedSubexpr (toReg (N.expr ds target none) none) targetLocalRegs
      match propertyFieldName field with
      | some name => do
          let (keyIdx, icIdx) ← allocFieldKey name
          return Lvalue.field table keyIdx icIdx
      | none => do
          let key ← toReg (N.expr ds field none) none
          return Lvalue.indexed table key
  | Expr.binaryOp _ _ _, _ => ice "non-property binop as assignment target"
  | _, _ => ice "invalid assignment target"

def lvalues (N : NameRules) (ds : Declarations) : List Expr → List ℕ → CompileM (List Lvalue)
  | [], _ => return []
  | target :: rest, targetLocalRegs => do
      let lv ← N.lvalue ds target targetLocalRegs
      let lvs ← N.lvalues ds rest targetLocalRegs
      return lv :: lvs

def sources (N : NameRules) (ds : Declarations) :
    List Expr → List (Option ℕ) → ℕ → ℕ → ℕ → CompileM (List (Option ℕ))
  | [], _, _, _, _ => return []
  | e :: rest, hints, numTargets, numValues, i => do
      match N.multires ds e, rest.isEmpty && numValues < numTargets with
      | Multires.funcCall setup, true => do
          let regs ← callResults setup (Want.exact ((numTargets - i) % 2 ^ 8))
          return regs.map some
      | _, _ => do
          let hint := hints.head?.join
          let reg ← toReg (N.expr ds e hint) hint
          let pending ← N.sources ds rest hints.tail numTargets numValues (i + 1)
          return pendingStore hint reg :: pending

/-- The declarations of a statement are in force for the statements behind it. -/
def block (N : NameRules) (ds : Declarations) : List Stmt → CompileM Unit
  | [] => pure ()
  | s :: rest => do
      N.stmt ds s
      N.block (ds.afterStmt s) rest

def stmt (N : NameRules) (ds : Declarations) : Stmt → CompileM Unit
  | Stmt.label name => compileLabel name
  | Stmt.goto name => compileGoto name
  -- a function can refer to itself
  | Stmt.localFunction name (FuncBody.mk params vararg block) =>
      localFunction name
        (funcReg params vararg
          (N.block (Declarations.body
            (Declaration.variable name LocalAttr.plain :: ds) params vararg)
            block))
  | Stmt.decl targets values =>
      declList targets fun base consts =>
        N.declValues ds values targets.length values.length base 0 consts
  | Stmt.globalFunction name (FuncBody.mk params vararg block) =>
      globalFunction name
        (funcReg params vararg
          (N.block
            (Declarations.body (Declaration.globals [(name, GlobalKind.reg)] :: ds) params vararg)
            block))
  | Stmt.globalStar defaultConst => globalStar defaultConst
  | Stmt.global defaultConst targets values =>
      globalList defaultConst targets values.length fun base =>
        N.globalValues ds values targets.length values.length base 0
  | Stmt.assign targets values =>
      assignStmt targets values (fun targetLocalRegs => N.lvalues ds targets targetLocalRegs)
        (fun hints => N.sources ds values hints targets.length values.length 0)
  | Stmt.func target (FuncBody.mk params vararg block) => do
      let value ← funcReg params vararg (N.block (ds.body params vararg) block) none
      assignLhs (N.lvalue ds target []) value
  | Stmt.expr e => stmtExpr (N.multires ds e) (toReg (N.expr ds e none) none)
  | Stmt.breakStmt => compileBreak
  | Stmt.returnStmt [] => emit (Instruction.return 0 1)
  | Stmt.returnStmt [e] => returnOne (N.multires ds e) (N.expr ds e none)
  | Stmt.returnStmt (e :: e' :: rest) =>
      returnGeneric (rest.length + 2) fun first => N.window ds (e :: e' :: rest) first 0 0
  | Stmt.doStmt stmts => scopeLexical (N.block ds stmts)
  | Stmt.whileStmt cond block => whileLoop (N.expr ds cond none) (N.block ds block)
  -- the condition sees the declarations of the body
  | Stmt.repeatStmt block cond =>
      repeatLoop (N.block ds block) (N.expr (ds.afterBlock block) cond none)
  | Stmt.ifStmt chain => ifStmt fun endLabel => N.ifChain ds chain endLabel
  | Stmt.forNum counter init limit (some step) block =>
      forNumLoop counter (fun hint => toReg (N.expr ds init hint) hint)
        (fun hint => toReg (N.expr ds limit hint) hint)
        (some fun hint => toReg (N.expr ds step hint) hint)
        (N.block (Declaration.variable counter LocalAttr.control :: ds) block)
  | Stmt.forNum counter init limit none block =>
      forNumLoop counter (fun hint => toReg (N.expr ds init hint) hint)
        (fun hint => toReg (N.expr ds limit hint) hint) none
        (N.block (Declaration.variable counter LocalAttr.control :: ds) block)
  | Stmt.forGen targets values block =>
      forGenLoop targets (fun base => N.forValues ds values values.length base 0)
        (N.block (ds.withVariables (loopAttrs targets)) block)

def ifChain (N : NameRules) (ds : Declarations) : IfChain → ℕ → CompileM Unit
  | IfChain.mk cond stmts elseChain, endLabel =>
      Tcvm.ifChain (N.expr ds cond none) (N.block ds stmts) (N.elseChain ds elseChain endLabel)
        endLabel

def elseChain (N : NameRules) (ds : Declarations) : ElseChain → ℕ → Option (CompileM Unit)
  | ElseChain.none, _ => none
  | ElseChain.elseIf chain, endLabel => some (N.ifChain ds chain endLabel)
  | ElseChain.elseBlock stmts, _ => some (scopeLexical (N.block ds stmts))

end

/-- The context of a chunk at the end. -/
def main (N : NameRules) (num : NumOps) (block : List Stmt) : Except Fault Ctx :=
  functionToChunk [] [] true none 0 [(envName, UpValueDescriptor.parentLocal 0)] GlobalEnv.new num
    (N.block Declarations.chunk block)

end NameRules

/-! ### The uses of names by the manual -/

/-- A variable as an expression: a register of this function, an upvalue, or the value of a
constant. A name that the scopes of the functions do not know, or know as global, is not a
variable. -/
def readVariable (name : Name) (dst : Option ℕ) : CompileM ExprDesc := do
  match ← resolveLocal name with
  | some d =>
      match d.kind with
      | VarKind.global => throw Fault.panic
      | _ => compileExprIdent name dst
  | none =>
      match ← resolveOrCapture name with
      | some (ResolvedName.const v) => return v.toExprDesc
      | some (ResolvedName.upvalue idx) => do
          let dst ← dstOrAlloc dst
          emit (Instruction.getupval dst idx)
          return ExprDesc.fromReg dst
      | none => throw Fault.panic

/-- A global as an expression: a field of `_ENV`. -/
def readEnvField (name : Name) (dst : Option ℕ) : CompileM ExprDesc := do
  let (key, icIdx) ← allocFieldKey name
  let dst ← dstOrAlloc dst
  let envIdx ← resolveEnvUpvalue
  emit (Instruction.gettabup dst envIdx icIdx key)
  return ExprDesc.fromReg dst

/-- A variable as a target. -/
def variableLvalue (name : Name) : CompileM Lvalue := do
  match ← resolveLocal name with
  | some d =>
      if d.kind = VarKind.global then throw Fault.panic
      else if d.kind.isConst then ice "assignment to const variable"
      else return Lvalue.local d.register
  | none =>
      match ← resolveOrCapture name with
      | some (ResolvedName.const _) => ice "assignment to const variable"
      | some (ResolvedName.upvalue idx) => return Lvalue.upvalue idx
      | none => throw Fault.panic

/-- A global as a target. -/
def envFieldLvalue (name : Name) : CompileM Lvalue := do
  let (key, icIdx) ← allocFieldKey name
  let envIdx ← resolveEnvUpvalue
  return Lvalue.global envIdx key icIdx

/-- The uses of names by the manual: a name is what the declaration that covers it says; a name that
is not covered is rejected, and so is an assignment to a read-only global. -/
def manualRules : NameRules where
  read ds name dst :=
    match ds.covering name with
    | some (Referent.variable _) => readVariable name dst
    | some (Referent.global _) => readEnvField name dst
    | none => err (CompileError.undeclaredGlobal name)
  write ds name :=
    match ds.covering name with
    | some (Referent.variable _) => variableLvalue name
    | some (Referent.global GlobalKind.reg) => envFieldLvalue name
    | some (Referent.global GlobalKind.const) => err (CompileError.constGlobalAssign name)
    | none => err (CompileError.undeclaredGlobal name)
  varargBase ds scope e :=
    match e with
    | Expr.ident name =>
        match ds.nearest name with
        | some (Referent.variable _) => resolveVarargBase scope e
        | _ => none
    | _ => none

end Tcvm
