/-
The compiler follows the declarations of the text.

Let an invariant between the declarations in force and the compiler's account of them be given, and
rules for the uses of names that do what the compiler does wherever the invariant holds.  Then the
compiler, and the compiler that is told the declarations in force and uses these rules, do the same
on every program.

* `Scoping.Follows` — rules that the compiler follows under an invariant;
* `Scoping.alike_expr`, `Scoping.alike_block`, … — by recursion on the syntax;
* `Scoping.compileMain_eq` — **the compiler does the same as the compiler with these rules**.
-/

import Tcvm.ScopeBlocks

namespace Tcvm

open CompileM StateExcept Discipline

namespace Scoping

variable {α : Type} {S : Scoping} {N : NameRules}

/-- Where the invariant holds, the compiler uses names by the rules. -/
structure Follows (S : Scoping) (N : NameRules) : Prop where
  read : ∀ ds name dst, S.Alike ds ds (compileExprIdent name dst) (N.read ds name dst)
  write : ∀ ds name, S.Alike ds ds (identLvalue name) (N.write ds name)
  varargBase : ∀ {ds} {c : Ctx}, S.Holds ds c.names →
    ∀ e, resolveVarargBase c.scope e = N.varargBase ds c.scope e

theorem Alike.get {ds ds' : Declarations} {f g : Ctx → CompileM α}
    (h : ∀ c, S.Holds ds c.names → S.Alike ds ds' (f c) (g c)) :
    S.Alike ds ds' (MonadState.get >>= f) (MonadState.get >>= g) :=
  fun c hc => h c hc c hc

mutual

theorem alike_expr (hN : S.Follows N) (ds : Declarations) :
    ∀ (e : Expr) (dst : Option ℕ), S.Alike ds ds (compileExpr e dst) (N.expr ds e dst)
  | Expr.prefixOp op rhs, dst => by
      rw [compileExpr, NameRules.expr]
      exact alike_prefixOpDesc op (alike_expr hN ds rhs none) dst
  | Expr.binaryOp op lhs rhs, dst => by
      rw [compileExpr, NameRules.expr]
      refine Alike.get fun c hc => ?_
      dsimp only
      rw [hN.varargBase hc]
      exact alike_binaryOpDesc op _ _ (fun hint => alike_expr hN ds lhs hint)
        (fun hint => alike_expr hN ds rhs hint) dst
  | Expr.method object method args, dst => by
      rw [compileExpr, NameRules.expr]
      refine Alike.after (alike_callResults ?_ _) fun _ =>
        Obeys.bind (obeys_unwrap _) fun _ => Obeys.pure _
      exact alike_methodCallSetup (alike_toReg (alike_expr hN ds object none) none) method
        fun func => alike_callArgs _ _ (alike_window hN ds args func 2 0)
  | Expr.ident name, dst => by
      rw [compileExpr, NameRules.expr]
      exact hN.read ds name dst
  | Expr.literal value, dst => by
      rw [compileExpr, NameRules.expr]
      exact Alike.internal (obeys_compileExprLiteral _ _)
  | Expr.func (FuncBody.mk params vararg block), dst => by
      rw [compileExpr, NameRules.expr]
      exact Alike.after
        (alike_funcReg params vararg (alike_block hN block (ds.body params vararg)) dst)
        fun _ => Obeys.pure _
  | Expr.table entries, dst => by
      rw [compileExpr, NameRules.expr]
      exact alike_tableDesc fun reg base => alike_entries hN ds entries reg base 0 0
  | Expr.funcCall target args, dst => by
      rw [compileExpr, NameRules.expr]
      refine Alike.after (alike_callResults ?_ _) fun _ =>
        Obeys.bind (obeys_unwrap _) fun _ => Obeys.pure _
      exact alike_funcCallSetup (alike_toReg (alike_expr hN ds target none) none)
        fun func => alike_callArgs _ _ (alike_window hN ds args func 1 0)
  | Expr.index target index, dst => by
      rw [compileExpr, NameRules.expr]
      refine Alike.get fun c hc => ?_
      dsimp only
      rw [hN.varargBase hc]
      exact Alike.after
        (alike_indexReg _ (alike_toReg (alike_expr hN ds target none) none)
          (alike_toReg (alike_expr hN ds index none) none) dst) fun _ => Obeys.pure _
  | Expr.varArg, dst => by
      rw [compileExpr, NameRules.expr]
      exact Alike.internal (Obeys.bind (obeys_dstOrAlloc _) fun _ =>
        Obeys.bind (internal_emit _) fun _ => Obeys.pure _)
  | Expr.paren inner, dst => by
      rw [compileExpr, NameRules.expr]
      exact alike_expr hN ds inner dst

theorem alike_multires (hN : S.Follows N) (ds : Declarations) :
    ∀ e : Expr, S.MultiresAlike ds (compileMultires e) (N.multires ds e)
  | Expr.funcCall target args => by
      rw [compileMultires, NameRules.multires]
      exact MultiresAlike.funcCall
        (alike_funcCallSetup (alike_toReg (alike_expr hN ds target none) none)
          fun func => alike_callArgs _ _ (alike_window hN ds args func 1 0))
  | Expr.method object method args => by
      rw [compileMultires, NameRules.multires]
      exact MultiresAlike.method
        (alike_methodCallSetup (alike_toReg (alike_expr hN ds object none) none) method
          fun func => alike_callArgs _ _ (alike_window hN ds args func 2 0))
  | Expr.varArg => by
      rw [compileMultires, NameRules.multires]
      exact MultiresAlike.varArg
  | Expr.prefixOp _ _ => MultiresAlike.single
  | Expr.binaryOp _ _ _ => MultiresAlike.single
  | Expr.ident _ => MultiresAlike.single
  | Expr.literal _ => MultiresAlike.single
  | Expr.func _ => MultiresAlike.single
  | Expr.table _ => MultiresAlike.single
  | Expr.index _ _ => MultiresAlike.single
  | Expr.paren _ => MultiresAlike.single

theorem alike_window (hN : S.Follows N) (ds : Declarations) :
    ∀ (es : List Expr) (base offset i : ℕ),
      S.Alike ds ds (compileWindow es base offset i) (N.window ds es base offset i)
  | [], base, offset, i => by
      rw [compileWindow, NameRules.window]
      exact Alike.pure _
  | e :: rest, base, offset, i => by
      rw [compileWindow, NameRules.window]
      refine Alike.before (obeys_addU8 _ _) fun first => ?_
      refine Alike.before (obeys_addU8 _ _) fun target => Alike.ite ?_ ?_
      · exact alike_trailingMultires (alike_multires hN ds e)
          (alike_toReg (alike_expr hN ds e (some target)) (some target)) target
      · refine Alike.bind (alike_toReg (alike_expr hN ds e (some target)) (some target)) fun _ => ?_
        exact Alike.before (obeys_moveInto _ _) fun _ => alike_window hN ds rest base offset (i + 1)

theorem alike_entries (hN : S.Follows N) (ds : Declarations) :
    ∀ (es : List TableEntry) (table base count pending : ℕ),
      S.Alike ds ds (compileEntries es table base count pending)
        (N.entries ds es table base count pending)
  | [], table, base, count, pending => by
      rw [compileEntries, NameRules.entries]
      exact Alike.internal (obeys_flushArray _ _ _ _)
  | TableEntry.array value :: rest, table, base, count, pending => by
      rw [compileEntries, NameRules.entries]
      refine Alike.bind (alike_arrayItem _ (alike_multires hN ds value)
        (fun hint => alike_toReg (alike_expr hN ds value hint) hint) _ _ _ _) fun next => ?_
      exact alike_entries hN ds rest table base next.1 next.2
  | TableEntry.map field value :: rest, table, base, count, pending => by
      rw [compileEntries, NameRules.entries]
      refine Alike.bind
        (alike_mapItem field (alike_toReg (alike_expr hN ds value none) none) _ _ _ _) fun _ => ?_
      exact alike_entries hN ds rest table base count 0
  | TableEntry.generic index value :: rest, table, base, count, pending => by
      rw [compileEntries, NameRules.entries]
      refine Alike.bind
        (alike_genericItem (alike_toReg (alike_expr hN ds index none) none)
          (alike_toReg (alike_expr hN ds value none) none) _ _ _ _) fun _ => ?_
      exact alike_entries hN ds rest table base count 0

theorem alike_declValues (hN : S.Follows N) (ds : Declarations) :
    ∀ (es : List Expr) (numTargets numValues base i : ℕ) (consts : List (Option ConstVal)),
      S.Alike ds ds (compileDeclValues es numTargets numValues base i consts)
        (N.declValues ds es numTargets numValues base i consts)
  | [], numTargets, numValues, base, i, consts => by
      rw [compileDeclValues, NameRules.declValues]
      exact Alike.pure _
  | e :: rest, numTargets, numValues, base, i, consts => by
      rw [compileDeclValues, NameRules.declValues]
      refine Alike.before (obeys_addU8 _ _) fun expected => ?_
      have hrest : ∀ expanded : Bool, S.Alike ds ds
          (do
            if expanded then return consts
            else
              let desc ← compileExpr e none
              let consts :=
                if desc.hasJumps then consts else consts.set i (ConstVal.fromExprKind desc.kind)
              let r ← dischargeToRegMut desc none
              settleAt r.2 expected
              compileDeclValues rest numTargets numValues base (i + 1) consts)
          (do
            if expanded then return consts
            else
              let desc ← N.expr ds e none
              let consts :=
                if desc.hasJumps then consts else consts.set i (ConstVal.fromExprKind desc.kind)
              let r ← dischargeToRegMut desc none
              settleAt r.2 expected
              N.declValues ds rest numTargets numValues base (i + 1) consts) := fun expanded => by
        refine Alike.ite (Alike.pure _) (Alike.bind (alike_expr hN ds e none) fun desc => ?_)
        refine Alike.before (obeys_dischargeToRegMut _ _) fun _ => ?_
        exact Alike.before (obeys_settleAt _ _) fun _ => alike_declValues hN ds rest _ _ _ _ _
      exact Alike.ite (Alike.bind (alike_declExpand (alike_multires hN ds e) _ _) hrest)
        (Alike.before (Obeys.pure _) hrest)

theorem alike_globalValues (hN : S.Follows N) (ds : Declarations) :
    ∀ (es : List Expr) (numTargets numValues base i : ℕ),
      S.Alike ds ds (compileGlobalValues es numTargets numValues base i)
        (N.globalValues ds es numTargets numValues base i)
  | [], numTargets, numValues, base, i => by
      rw [compileGlobalValues, NameRules.globalValues]
      exact Alike.pure _
  | e :: rest, numTargets, numValues, base, i => by
      rw [compileGlobalValues, NameRules.globalValues]
      refine Alike.before (obeys_addU8 _ _) fun want => ?_
      have hrest : ∀ expanded : Bool, S.Alike ds ds
          (do
            if expanded then pure ()
            else
              let got ← toReg (compileExpr e none) none
              settleAt got want
              compileGlobalValues rest numTargets numValues base (i + 1))
          (do
            if expanded then pure ()
            else
              let got ← toReg (N.expr ds e none) none
              settleAt got want
              N.globalValues ds rest numTargets numValues base (i + 1)) := fun expanded => by
        refine Alike.ite (Alike.pure _) ?_
        refine Alike.bind (alike_toReg (alike_expr hN ds e none) none) fun got => ?_
        exact Alike.before (obeys_settleAt _ _) fun _ => alike_globalValues hN ds rest _ _ _ _
      exact Alike.ite (Alike.bind (alike_globalExpand (alike_multires hN ds e) _ _) hrest)
        (Alike.before (Obeys.pure _) hrest)

theorem alike_forValues (hN : S.Follows N) (ds : Declarations) :
    ∀ (es : List Expr) (numValues base i : ℕ),
      S.Alike ds ds (compileForValues es numValues base i) (N.forValues ds es numValues base i)
  | [], numValues, base, i => by
      rw [compileForValues, NameRules.forValues]
      exact Alike.pure _
  | e :: rest, numValues, base, i => by
      rw [compileForValues, NameRules.forValues]
      refine Alike.before (obeys_addU8 _ _) fun expected => ?_
      have hrest : ∀ expanded : Bool, S.Alike ds ds
          (do
            if expanded then pure ()
            else
              let reg ← toReg (compileExpr e none) none
              settleAt reg expected
              compileForValues rest numValues base (i + 1))
          (do
            if expanded then pure ()
            else
              let reg ← toReg (N.expr ds e none) none
              settleAt reg expected
              N.forValues ds rest numValues base (i + 1)) := fun expanded => by
        refine Alike.ite (Alike.pure _) ?_
        refine Alike.bind (alike_toReg (alike_expr hN ds e none) none) fun reg => ?_
        exact Alike.before (obeys_settleAt _ _) fun _ => alike_forValues hN ds rest _ _ _
      exact Alike.ite (Alike.bind (alike_forGenExpand (alike_multires hN ds e) _ _) hrest)
        (Alike.before (Obeys.pure _) hrest)

theorem alike_lvalue (hN : S.Follows N) (ds : Declarations) :
    ∀ (e : Expr) (regs : List ℕ), S.Alike ds ds (compileLvalue e regs) (N.lvalue ds e regs)
  | Expr.ident name, regs => by
      rw [compileLvalue, NameRules.lvalue]
      exact hN.write ds name
  | Expr.index target index, regs => by
      rw [compileLvalue, NameRules.lvalue]
      refine Alike.bind
        (alike_indexedSubexpr (alike_toReg (alike_expr hN ds target none) none) regs)
          fun table => ?_
      exact Alike.after
        (alike_indexedSubexpr (alike_toReg (alike_expr hN ds index none) none) regs)
        fun key => Obeys.pure _
  | Expr.binaryOp op target field, regs => by
      cases op with
      | property =>
          rw [compileLvalue, NameRules.lvalue]
          refine Alike.bind
            (alike_indexedSubexpr (alike_toReg (alike_expr hN ds target none) none) regs)
            fun table => ?_
          cases propertyFieldName field with
          | some name =>
              exact Alike.internal
                (Obeys.bind (internal_allocFieldKey _) fun _ => Obeys.pure _)
          | none =>
              exact Alike.after (alike_toReg (alike_expr hN ds field none) none)
                fun _ => Obeys.pure _
      | _ => exact Alike.throw _
  | Expr.method _ _ _, _ => Alike.throw _
  | Expr.literal _, _ => Alike.throw _
  | Expr.func _, _ => Alike.throw _
  | Expr.table _, _ => Alike.throw _
  | Expr.prefixOp _ _, _ => Alike.throw _
  | Expr.funcCall _ _, _ => Alike.throw _
  | Expr.varArg, _ => Alike.throw _
  | Expr.paren _, _ => Alike.throw _

theorem alike_lvalues (hN : S.Follows N) (ds : Declarations) :
    ∀ (es : List Expr) (regs : List ℕ),
      S.Alike ds ds (compileLvalues es regs) (N.lvalues ds es regs)
  | [], regs => by
      rw [compileLvalues, NameRules.lvalues]
      exact Alike.pure _
  | e :: rest, regs => by
      rw [compileLvalues, NameRules.lvalues]
      refine Alike.bind (alike_lvalue hN ds e regs) fun lv => ?_
      exact Alike.after (alike_lvalues hN ds rest regs) fun _ => Obeys.pure _

theorem alike_sources (hN : S.Follows N) (ds : Declarations) :
    ∀ (es : List Expr) (hints : List (Option ℕ)) (numTargets numValues i : ℕ),
      S.Alike ds ds (compileSources es hints numTargets numValues i)
        (N.sources ds es hints numTargets numValues i)
  | [], hints, numTargets, numValues, i => by
      rw [compileSources, NameRules.sources]
      exact Alike.pure _
  | e :: rest, hints, numTargets, numValues, i => by
      rw [compileSources, NameRules.sources]
      have hsingle : S.Alike ds ds
          (do
            let hint := hints.head?.join
            let reg ← toReg (compileExpr e hint) hint
            let pending ← compileSources rest hints.tail numTargets numValues (i + 1)
            return pendingStore hint reg :: pending)
          (do
            let hint := hints.head?.join
            let reg ← toReg (N.expr ds e hint) hint
            let pending ← N.sources ds rest hints.tail numTargets numValues (i + 1)
            return pendingStore hint reg :: pending) := by
        refine Alike.bind (alike_toReg (alike_expr hN ds e _) _) fun reg => ?_
        exact Alike.after (alike_sources hN ds rest _ _ _ _) fun _ => Obeys.pure _
      have hmulti := alike_multires hN ds e
      generalize compileMultires e = multi at hmulti ⊢
      generalize N.multires ds e = multi' at hmulti ⊢
      cases hmulti with
      | funcCall h =>
          cases (rest.isEmpty && decide (numValues < numTargets)) with
          | true => exact Alike.after (alike_callResults h _) fun _ => Obeys.pure _
          | false => exact hsingle
      | method h => exact hsingle
      | varArg => exact hsingle
      | single => exact hsingle

theorem alike_block (hN : S.Follows N) : ∀ (stmts : List Stmt) (ds : Declarations),
    S.Alike ds (ds.afterBlock stmts) (compileBlock stmts) (N.block ds stmts)
  | [], ds => by
      rw [compileBlock, NameRules.block]
      exact Alike.pure _
  | s :: rest, ds => by
      rw [compileBlock, NameRules.block]
      exact Alike.bind (alike_stmt hN s ds) fun _ => alike_block hN rest (ds.afterStmt s)

theorem alike_stmt (hN : S.Follows N) : ∀ (s : Stmt) (ds : Declarations),
    S.Alike ds (ds.afterStmt s) (compileStmt s) (N.stmt ds s)
  | Stmt.label name, ds => by
      rw [compileStmt, NameRules.stmt]
      exact Alike.internal (obeys_compileLabel _)
  | Stmt.goto name, ds => by
      rw [compileStmt, NameRules.stmt]
      exact Alike.internal (obeys_compileGoto _)
  | Stmt.localFunction name (FuncBody.mk params vararg block), ds => by
      rw [compileStmt, NameRules.stmt]
      exact alike_localFunction name fun hint =>
        alike_funcReg params vararg (alike_block hN block _) hint
  | Stmt.decl targets values, ds => by
      rw [compileStmt, NameRules.stmt]
      exact alike_declList targets fun base consts =>
        alike_declValues hN ds values _ _ base 0 consts
  | Stmt.globalFunction name (FuncBody.mk params vararg block), ds => by
      rw [compileStmt, NameRules.stmt]
      exact alike_globalFunction name fun hint =>
        alike_funcReg params vararg (alike_block hN block _) hint
  | Stmt.globalStar defaultConst, ds => by
      rw [compileStmt, NameRules.stmt]
      exact alike_globalStar defaultConst
  | Stmt.global defaultConst targets values, ds => by
      rw [compileStmt, NameRules.stmt]
      exact alike_globalList defaultConst targets _ fun base =>
        alike_globalValues hN ds values _ _ base 0
  | Stmt.assign targets values, ds => by
      rw [compileStmt, NameRules.stmt]
      exact alike_assignStmt targets values (fun regs => alike_lvalues hN ds targets regs)
        fun hints => alike_sources hN ds values hints _ _ 0
  | Stmt.func target (FuncBody.mk params vararg block), ds => by
      rw [compileStmt, NameRules.stmt]
      exact Alike.bind (alike_funcReg params vararg (alike_block hN block _) none) fun value =>
        alike_assignLhs (alike_lvalue hN ds target []) value
  | Stmt.expr e, ds => by
      rw [compileStmt, NameRules.stmt]
      exact alike_stmtExpr (alike_multires hN ds e) (alike_toReg (alike_expr hN ds e none) none)
  | Stmt.breakStmt, ds => by
      rw [compileStmt, NameRules.stmt]
      exact Alike.internal obeys_compileBreak
  | Stmt.returnStmt [], ds => by
      rw [compileStmt, NameRules.stmt]
      exact Alike.internal (internal_emit _)
  | Stmt.returnStmt [e], ds => by
      rw [compileStmt, NameRules.stmt]
      exact alike_returnOne (alike_multires hN ds e) (alike_expr hN ds e none)
  | Stmt.returnStmt (e :: e' :: rest), ds => by
      rw [compileStmt, NameRules.stmt]
      exact alike_returnGeneric _ fun first => alike_window hN ds (e :: e' :: rest) first 0 0
  | Stmt.doStmt stmts, ds => by
      rw [compileStmt, NameRules.stmt]
      exact alike_scopeLexical (alike_block hN stmts ds)
  | Stmt.whileStmt cond block, ds => by
      rw [compileStmt, NameRules.stmt]
      exact alike_whileLoop (alike_expr hN ds cond none) (alike_block hN block ds)
  | Stmt.repeatStmt block cond, ds => by
      rw [compileStmt, NameRules.stmt]
      exact alike_repeatLoop (alike_block hN block ds) (alike_expr hN _ cond none)
  | Stmt.ifStmt chain, ds => by
      rw [compileStmt, NameRules.stmt]
      exact alike_ifStmt fun label => alike_chain hN chain ds label
  | Stmt.forNum counter init limit (some step) block, ds => by
      rw [compileStmt, NameRules.stmt]
      exact alike_forNumLoop counter (fun hint => alike_toReg (alike_expr hN ds init hint) hint)
        (fun hint => alike_toReg (alike_expr hN ds limit hint) hint)
        (Option.Rel.some fun hint => alike_toReg (alike_expr hN ds step hint) hint)
        (alike_block hN block _)
  | Stmt.forNum counter init limit none block, ds => by
      rw [compileStmt, NameRules.stmt]
      exact alike_forNumLoop counter (fun hint => alike_toReg (alike_expr hN ds init hint) hint)
        (fun hint => alike_toReg (alike_expr hN ds limit hint) hint) Option.Rel.none
        (alike_block hN block _)
  | Stmt.forGen targets values block, ds => by
      rw [compileStmt, NameRules.stmt]
      exact alike_forGenLoop targets (fun base => alike_forValues hN ds values _ base 0)
        (alike_block hN block _)

theorem alike_chain (hN : S.Follows N) : ∀ (chain : IfChain) (ds : Declarations) (label : ℕ),
    S.Alike ds ds (compileIfChain chain label) (N.ifChain ds chain label)
  | IfChain.mk cond stmts elseChain, ds, label => by
      rw [compileIfChain, NameRules.ifChain]
      exact alike_ifChain (alike_expr hN ds cond none) (alike_block hN stmts ds)
        (alike_else hN elseChain ds label) label

theorem alike_else (hN : S.Follows N) : ∀ (chain : ElseChain) (ds : Declarations) (label : ℕ),
    Option.Rel (S.Alike ds ds) (compileElse chain label) (N.elseChain ds chain label)
  | ElseChain.none, ds, label => by
      rw [compileElse, NameRules.elseChain]
      exact Option.Rel.none
  | ElseChain.elseIf chain, ds, label => by
      rw [compileElse, NameRules.elseChain]
      exact Option.Rel.some (alike_chain hN chain ds label)
  | ElseChain.elseBlock stmts, ds, label => by
      rw [compileElse, NameRules.elseChain]
      exact Option.Rel.some (alike_scopeLexical (alike_block hN stmts ds))

end

/-- **The compiler does the same as the compiler with the rules**, when the invariant holds for a
chunk to start with. -/
theorem compileMain_eq (hN : S.Follows N)
    (hstart : S.Holds Declarations.chunk
      { scope := [[]], globals := GlobalEnv.new,
        upvalues := [(envName, UpValueDescriptor.parentLocal 0)], capture := [] })
    (num : NumOps) (block : List Stmt) : compileMain num block = N.main num block := by
  have hbody : S.Alike
      (Declarations.chunk.withVariables (plainAttrs ([] ++ (none : Option Name).toList)))
      (Declarations.chunk.afterBlock block) (compileBlock block)
        (N.block Declarations.chunk block) :=
    alike_block hN block Declarations.chunk
  exact (functionToChunk_congr true 0 num hstart hbody).1

end Scoping

end Tcvm
