/-
Every form takes its access sites.

By recursion on the syntax the compiler that uses names by the rules of the manual gives a slot to
each access site of a form, in the order of the text, and to nothing else.  The compiler does the
same.

* `takes_read`, `owes_write`, `isSome_varargBase` — the uses of names;
* `takes_expr`, `owes_lvalue`, `takes_block`, … — by recursion on the syntax;
* `sources_hinted` — a value that is not left to be stored has a hint;
* `compile_allSound_iff` — **the slots of a program are sound iff no function has too many sites**.
-/

import Tcvm.SlotFunctions

namespace Tcvm

open CompileM StateExcept Discipline NameEnv NameRules

/-! ### The uses of names -/

section

variable {E : NameEnv} {name : Name}

/-- A name that is read is an access site where it is a global. -/
theorem takes_read (E : NameEnv) (name : Name) (dst : Option ℕ) :
    Takes E.vararg (E.nameSites name) E.vararg (manualRules.read E.ds name dst) := by
  dsimp only [manualRules]
  unfold NameEnv.nameSites
  cases E.ds.covering name with
  | none => exact Takes.throw _
  | some r =>
      cases r with
      | «variable» attr => exact Takes.of_obeys (slot_readVariable name dst)
      | global kind => exact takes_readEnvField name dst

/-- So is a name that is written. -/
theorem owes_write (E : NameEnv) (name : Name) :
    Owes E.vararg (E.nameSites name) E.vararg [] (manualRules.write E.ds name) Lvalue.debt := by
  dsimp only [manualRules]
  unfold NameEnv.nameSites
  cases E.ds.covering name with
  | none => exact Owes.throw _
  | some r =>
      cases r with
      | «variable» attr => exact owes_variableLvalue name
      | global kind =>
          cases kind with
          | reg => exact owes_envFieldLvalue name
          | const => exact Owes.throw _

/-- The register of the named vararg is used where its name is in force. -/
theorem isSome_varargBase {scope : List Scope} (h : NamesVararg scope E.vararg) (e : Expr) :
    (manualRules.varargBase E.ds scope e).isSome = E.namesVararg e := by
  cases e with
  | ident name =>
      dsimp only [manualRules, NameEnv.namesVararg]
      rw [Bool.eq_iff_iff, decide_eq_true_iff, ← h name]
      constructor
      · intro hsome
        split at hsome
        · unfold resolveVarargBase at hsome
          dsimp only at hsome
          cases hd : resolveLocalIn scope name with
          | none =>
              rw [hd] at hsome
              cases hsome
          | some d =>
              rw [hd] at hsome
              dsimp only at hsome
              split at hsome
              · exact ⟨d, rfl, ‹_›⟩
              · cases hsome
        · cases hsome
      · rintro ⟨d, hd, hk⟩
        obtain ⟨attr, hattr⟩ := E.isVariable name ((h name).1 ⟨d, hd, hk⟩)
        rw [hattr]
        unfold resolveVarargBase
        dsimp only
        rw [hd]
        dsimp only
        rw [if_pos hk]
        rfl
  | _ => rfl

end

/-- What is returned at once is no call. -/
theorem isEmpty_of_and {α : Type} {rest : List α} {b : Bool} (h : (rest.isEmpty && b) = true) :
    rest = [] := List.isEmpty_iff.1 (Bool.and_eq_true_iff.1 h).1

/-- A value that is not left to be stored was evaluated into its hint. -/
theorem sources_hinted {N : NameRules} {ds : Declarations} {values : List Expr}
    {hints pending : List (Option ℕ)} {numTargets numValues i : ℕ} {c c' : Ctx}
    (h : N.sources ds values hints numTargets numValues i c = Except.ok (pending, c')) (j : ℕ)
    (hj : pending[j]? = some none) : ∃ r : ℕ, hints[j]? = some (some r) := by
  induction values generalizing hints pending i c c' j with
  | nil =>
      rw [NameRules.sources] at h
      obtain ⟨rfl, -⟩ := pure_eq_ok.1 h
      cases hj
  | cons e rest ih =>
      rw [NameRules.sources] at h
      -- the values are evaluated one after another
      have hsingle : ∀ c, (do
          let hint := hints.head?.join
          let reg ← toReg (N.expr ds e hint) hint
          let pending ← N.sources ds rest hints.tail numTargets numValues (i + 1)
          return pendingStore hint reg :: pending : CompileM (List (Option ℕ))) c =
            Except.ok (pending, c') → ∃ r : ℕ, hints[j]? = some (some r) := by
        intro c h
        obtain ⟨reg, c₁, -, h⟩ := bind_eq_ok.1 h
        obtain ⟨pending', c₂, h₂, h⟩ := bind_eq_ok.1 h
        obtain ⟨rfl, rfl⟩ := pure_eq_ok.1 h
        cases j with
        | zero =>
            have hhint := pendingStore_none (Option.some.inj hj)
            refine ⟨reg, ?_⟩
            rw [← List.head?_eq_getElem?]
            exact Option.join_eq_some_iff.1 hhint
        | succ j =>
            obtain ⟨r, hr⟩ := ih h₂ j hj
            rw [List.getElem?_tail] at hr
            exact ⟨r, hr⟩
      generalize N.multires ds e = multi at h
      cases multi with
      | funcCall setup =>
          cases hlast : (rest.isEmpty && decide (numValues < numTargets)) with
          | true =>
              -- all values of a call are left to be stored
              rw [hlast] at h
              obtain ⟨regs, c₁, -, h⟩ := bind_eq_ok.1 h
              obtain ⟨rfl, rfl⟩ := pure_eq_ok.1 h
              rw [List.getElem?_map] at hj
              obtain ⟨r, -, hr⟩ := Option.map_eq_some_iff.1 hj
              cases hr
          | false =>
              rw [hlast] at h
              exact hsingle c h
      | method setup => exact hsingle c h
      | varArg => exact hsingle c h
      | single => exact hsingle c h

/-- The last initializer may be expanded, and takes its own sites only. -/
theorem takes_lastOr {E : NameEnv} {e : Expr} {rest : List Expr} {b : Bool} {m : CompileM Bool}
    {β : Type} {f : Bool → CompileM β} (hm : Expands E.vararg (E.exprSites e) m)
    (hdone : slotSteps.Obeys (f true))
    (hnext : Takes E.vararg (E.exprSites e + E.exprsSites rest) E.vararg (f false)) :
    Takes E.vararg (E.exprSites e + E.exprsSites rest) E.vararg
      (if rest.isEmpty && b then m >>= f else pure false >>= f) := by
  refine Takes.ite_of (fun hlast => ?_) fun _ => Expands.bind (Or.inr rfl) hdone hnext
  obtain rfl := isEmpty_of_and hlast
  rw [exprsSites, add_zero] at hnext ⊢
  exact hm.bind hdone hnext

/-! ### The recursion -/

mutual

theorem takes_expr (E : NameEnv) : ∀ (e : Expr) (dst : Option ℕ),
    Takes E.vararg (E.exprSites e) E.vararg (manualRules.expr E.ds e dst)
  | Expr.prefixOp op rhs, dst => by
      rw [exprSites, expr]
      exact takes_prefixOpDesc op (takes_expr E rhs none) dst
  | Expr.binaryOp op lhs rhs, dst => by
      rw [exprSites, expr]
      refine Owes.get fun c hc => ?_
      rw [← isSome_varargBase hc]
      exact takes_binaryOpDesc op _ _ (fun hint => takes_expr E lhs hint)
        (fun hint => takes_expr E rhs hint) dst
  | Expr.method object method args, dst => by
      rw [exprSites, expr]
      refine Takes.after (takes_callResults ?_ _) fun _ => Obeys.map (obeys_unwrap _)
      exact takes_methodCallSetup (takes_toReg (takes_expr E object none) none) method
        fun func => takes_callArgs _ _ (takes_window E args func 2 0)
  | Expr.ident name, dst => by
      rw [exprSites, expr]
      exact takes_read E name dst
  | Expr.literal value, dst => by
      rw [exprSites, expr]
      exact Takes.of_obeys (obeys_compileExprLiteral _ _)
  | Expr.func (FuncBody.mk params vararg block), dst => by
      rw [exprSites, expr]
      exact Takes.after (takes_funcReg (takes_block block (E.body params vararg)) dst)
        fun _ => Obeys.pure _
  | Expr.table entries, dst => by
      rw [exprSites, expr]
      exact takes_tableDesc fun reg base => takes_entries E entries reg base 0 0
  | Expr.funcCall target args, dst => by
      rw [exprSites, expr]
      refine Takes.after (takes_callResults ?_ _) fun _ => Obeys.map (obeys_unwrap _)
      exact takes_funcCallSetup (takes_toReg (takes_expr E target none) none)
        fun func => takes_callArgs _ _ (takes_window E args func 1 0)
  | Expr.index target index, dst => by
      rw [exprSites, expr]
      refine Owes.get fun c hc => ?_
      rw [← isSome_varargBase hc]
      exact Takes.after
        (takes_indexReg _ (takes_toReg (takes_expr E target none) none)
          (takes_toReg (takes_expr E index none) none) dst) fun _ => Obeys.pure _
  | Expr.varArg, dst => by
      rw [exprSites, expr]
      exact Takes.of_obeys (Obeys.bind (obeys_dstOrAlloc _) fun _ => Obeys.map (obeys_emit rfl rfl))
  | Expr.paren inner, dst => by
      rw [exprSites, expr]
      exact takes_expr E inner dst

theorem takes_multires (E : NameEnv) :
    ∀ e : Expr, MultiTakes E.vararg (E.exprSites e) (manualRules.multires E.ds e)
  | Expr.funcCall target args => by
      rw [exprSites, multires]
      exact MultiTakes.funcCall
        (takes_funcCallSetup (takes_toReg (takes_expr E target none) none)
          fun func => takes_callArgs _ _ (takes_window E args func 1 0))
  | Expr.method object method args => by
      rw [exprSites, multires]
      exact MultiTakes.method
        (takes_methodCallSetup (takes_toReg (takes_expr E object none) none) method
          fun func => takes_callArgs _ _ (takes_window E args func 2 0))
  | Expr.varArg => by
      rw [exprSites, multires]
      exact MultiTakes.varArg rfl
  | Expr.prefixOp _ _ => MultiTakes.single
  | Expr.binaryOp _ _ _ => MultiTakes.single
  | Expr.ident _ => MultiTakes.single
  | Expr.literal _ => MultiTakes.single
  | Expr.func _ => MultiTakes.single
  | Expr.table _ => MultiTakes.single
  | Expr.index _ _ => MultiTakes.single
  | Expr.paren _ => MultiTakes.single

theorem takes_window (E : NameEnv) : ∀ (es : List Expr) (base offset i : ℕ),
    Takes E.vararg (E.exprsSites es) E.vararg (manualRules.window E.ds es base offset i)
  | [], base, offset, i => by
      rw [exprsSites, window]
      exact Takes.pure _
  | e :: rest, base, offset, i => by
      rw [exprsSites, window]
      refine Takes.before (obeys_addU8 _ _) fun first => ?_
      refine Takes.before (obeys_addU8 _ _) fun target => Takes.ite_of (fun hlast => ?_) fun _ => ?_
      · rw [List.isEmpty_iff.1 hlast, exprsSites, add_zero]
        exact takes_trailingMultires (takes_multires E e)
          (takes_toReg (takes_expr E e (some target)) (some target)) target
      · refine Takes.bind (takes_toReg (takes_expr E e (some target)) (some target)) fun _ => ?_
        exact Takes.before (obeys_moveInto _ _) fun _ => takes_window E rest base offset (i + 1)

theorem takes_entries (E : NameEnv) : ∀ (es : List TableEntry) (table base count pending : ℕ),
    Takes E.vararg (E.entriesSites es) E.vararg
      (manualRules.entries E.ds es table base count pending)
  | [], table, base, count, pending => by
      rw [entriesSites, entries]
      exact Takes.of_obeys (obeys_flushArray _ _ _ _)
  | TableEntry.array value :: rest, table, base, count, pending => by
      rw [entriesSites, entries]
      refine Takes.bind (takes_arrayItem _ (takes_multires E value)
        (fun hint => takes_toReg (takes_expr E value hint) hint) _ _ _ _) fun next => ?_
      exact takes_entries E rest table base next.1 next.2
  | TableEntry.map field value :: rest, table, base, count, pending => by
      rw [entriesSites, entries]
      refine Takes.bind
        (takes_mapItem field (takes_toReg (takes_expr E value none) none) _ _ _ _) fun _ => ?_
      exact takes_entries E rest table base count 0
  | TableEntry.generic index value :: rest, table, base, count, pending => by
      rw [entriesSites, entries]
      refine Takes.bind
        (takes_genericItem (takes_toReg (takes_expr E index none) none)
          (takes_toReg (takes_expr E value none) none) _ _ _ _) fun _ => ?_
      exact takes_entries E rest table base count 0

theorem takes_declValues (E : NameEnv) :
    ∀ (es : List Expr) (numTargets numValues base i : ℕ) (consts : List (Option ConstVal)),
      Takes E.vararg (E.exprsSites es) E.vararg
        (manualRules.declValues E.ds es numTargets numValues base i consts)
  | [], numTargets, numValues, base, i, consts => by
      rw [exprsSites, declValues]
      exact Takes.pure _
  | e :: rest, numTargets, numValues, base, i, consts => by
      rw [exprsSites, declValues]
      refine Takes.before (obeys_addU8 _ _) fun expected => ?_
      have hnext : Takes E.vararg (E.exprSites e + E.exprsSites rest) E.vararg (do
          let desc ← manualRules.expr E.ds e none
          let consts :=
            if desc.hasJumps then consts else consts.set i (ConstVal.fromExprKind desc.kind)
          let r ← dischargeToRegMut desc none
          settleAt r.2 expected
          manualRules.declValues E.ds rest numTargets numValues base (i + 1) consts) := by
        refine Takes.bind (takes_expr E e none) fun desc => ?_
        refine Takes.before (obeys_dischargeToRegMut _ _) fun _ => ?_
        exact Takes.before (obeys_settleAt _ _) fun _ => takes_declValues E rest _ _ _ _ _
      exact takes_lastOr (expands_declExpand (takes_multires E e) _ _) (Obeys.pure _) hnext

theorem takes_globalValues (E : NameEnv) : ∀ (es : List Expr) (numTargets numValues base i : ℕ),
    Takes E.vararg (E.exprsSites es) E.vararg
      (manualRules.globalValues E.ds es numTargets numValues base i)
  | [], numTargets, numValues, base, i => by
      rw [exprsSites, globalValues]
      exact Takes.pure _
  | e :: rest, numTargets, numValues, base, i => by
      rw [exprsSites, globalValues]
      refine Takes.before (obeys_addU8 _ _) fun want => ?_
      have hnext : Takes E.vararg (E.exprSites e + E.exprsSites rest) E.vararg (do
          let got ← toReg (manualRules.expr E.ds e none) none
          settleAt got want
          manualRules.globalValues E.ds rest numTargets numValues base (i + 1)) := by
        refine Takes.bind (takes_toReg (takes_expr E e none) none) fun got => ?_
        exact Takes.before (obeys_settleAt _ _) fun _ => takes_globalValues E rest _ _ _ _
      exact takes_lastOr (expands_globalExpand (takes_multires E e) _ _) (Obeys.pure _) hnext

theorem takes_forValues (E : NameEnv) : ∀ (es : List Expr) (numValues base i : ℕ),
    Takes E.vararg (E.exprsSites es) E.vararg (manualRules.forValues E.ds es numValues base i)
  | [], numValues, base, i => by
      rw [exprsSites, forValues]
      exact Takes.pure _
  | e :: rest, numValues, base, i => by
      rw [exprsSites, forValues]
      refine Takes.before (obeys_addU8 _ _) fun expected => ?_
      have hnext : Takes E.vararg (E.exprSites e + E.exprsSites rest) E.vararg (do
          let reg ← toReg (manualRules.expr E.ds e none) none
          settleAt reg expected
          manualRules.forValues E.ds rest numValues base (i + 1)) := by
        refine Takes.bind (takes_toReg (takes_expr E e none) none) fun reg => ?_
        exact Takes.before (obeys_settleAt _ _) fun _ => takes_forValues E rest _ _ _
      exact takes_lastOr (expands_forGenExpand (takes_multires E e) _ _) (Obeys.pure _) hnext

theorem owes_lvalue (E : NameEnv) : ∀ (e : Expr) (regs : List ℕ),
    Owes E.vararg (E.targetSites e) E.vararg [] (manualRules.lvalue E.ds e regs) Lvalue.debt
  | Expr.ident name, regs => by
      rw [targetSites, lvalue]
      exact owes_write E name
  | Expr.index target index, regs => by
      rw [targetSites, lvalue]
      refine Owes.bind
        (takes_indexedSubexpr (takes_toReg (takes_expr E target none) none) regs) fun table => ?_
      exact Owes.first
        (takes_indexedSubexpr (takes_toReg (takes_expr E index none) none) regs)
        fun key => Owes.pure rfl
  | Expr.binaryOp op target field, regs => by
      cases op with
      | property =>
          rw [targetSites, lvalue]
          refine Owes.bind
            (takes_indexedSubexpr (takes_toReg (takes_expr E target none) none) regs)
            fun table => ?_
          cases propertyFieldName field with
          | some name => exact Owes.first (owes_allocFieldKey name) fun key => Owes.pure rfl
          | none =>
              exact Owes.first (takes_toReg (takes_expr E field none) none)
                fun key => Owes.pure rfl
      | _ => exact Owes.throw _
  | Expr.method _ _ _, _ => Owes.throw _
  | Expr.literal _, _ => Owes.throw _
  | Expr.func _, _ => Owes.throw _
  | Expr.table _, _ => Owes.throw _
  | Expr.prefixOp _ _, _ => Owes.throw _
  | Expr.funcCall _ _, _ => Owes.throw _
  | Expr.varArg, _ => Owes.throw _
  | Expr.paren _, _ => Owes.throw _

theorem owes_lvalues (E : NameEnv) : ∀ (es : List Expr) (regs : List ℕ),
    Owes E.vararg (E.targetsSites es) E.vararg [] (manualRules.lvalues E.ds es regs)
      fun lvs => lvs.flatMap Lvalue.debt
  | [], regs => by
      rw [targetsSites, lvalues]
      exact Owes.pure rfl
  | e :: rest, regs => by
      rw [targetsSites, lvalues]
      refine Owes.bind (owes_lvalue E e regs) fun lv => ?_
      refine Owes.first ((owes_lvalues E rest regs).owing _) fun lvs => Owes.pure_of_mem fun p => ?_
      rw [List.flatMap_cons, List.mem_append, List.mem_append]
      exact or_comm

theorem takes_sources (E : NameEnv) :
    ∀ (es : List Expr) (hints : List (Option ℕ)) (numTargets numValues i : ℕ),
      Takes E.vararg (E.exprsSites es) E.vararg
        (manualRules.sources E.ds es hints numTargets numValues i)
  | [], hints, numTargets, numValues, i => by
      rw [exprsSites, sources]
      exact Takes.pure _
  | e :: rest, hints, numTargets, numValues, i => by
      rw [exprsSites, sources]
      have hsingle : Takes E.vararg (E.exprSites e + E.exprsSites rest) E.vararg (do
          let hint := hints.head?.join
          let reg ← toReg (manualRules.expr E.ds e hint) hint
          let pending ← manualRules.sources E.ds rest hints.tail numTargets numValues (i + 1)
          return pendingStore hint reg :: pending) := by
        refine Takes.bind (takes_toReg (takes_expr E e _) _) fun reg => ?_
        exact Takes.after (takes_sources E rest _ _ _ _) fun _ => Obeys.pure _
      have hmulti := takes_multires E e
      generalize manualRules.multires E.ds e = multi at hmulti ⊢
      cases hmulti with
      | funcCall h =>
          cases hlast : (rest.isEmpty && decide (numValues < numTargets)) with
          | true =>
              obtain rfl := isEmpty_of_and hlast
              rw [exprsSites, add_zero]
              exact Takes.after (takes_callResults h _) fun _ => Obeys.pure _
          | false => exact hsingle
      | method h => exact hsingle
      | varArg h => exact hsingle
      | single => exact hsingle

theorem takes_block : ∀ (stmts : List Stmt) (E : NameEnv),
    Takes E.vararg (E.blockSites stmts) (E.afterBlock stmts).vararg (manualRules.block E.ds stmts)
  | [], E => by
      rw [blockSites, block]
      exact Takes.pure _
  | s :: rest, E => by
      rw [blockSites, block, ← E.ds_afterStmt s]
      exact Owes.bind (takes_stmt s E) fun _ => takes_block rest (E.afterStmt s)

theorem takes_stmt : ∀ (s : Stmt) (E : NameEnv),
    Takes E.vararg (E.stmtSites s) (E.afterStmt s).vararg (manualRules.stmt E.ds s)
  | Stmt.label name, E => by
      rw [stmtSites, stmt]
      exact Takes.of_obeys (obeys_compileLabel _)
  | Stmt.goto name, E => by
      rw [stmtSites, stmt]
      exact Takes.of_obeys (obeys_compileGoto _)
  | Stmt.localFunction name (FuncBody.mk params vararg block), E => by
      rw [stmtSites, stmt]
      exact takes_localFunction name fun hint =>
        takes_funcReg (takes_block block ((E.declare name LocalAttr.plain).body params vararg)) hint
  | Stmt.decl targets values, E => by
      rw [stmtSites, stmt, afterStmt, vararg_declareAll, map_declAttrs]
      exact takes_declList targets fun base consts => takes_declValues E values _ _ base 0 consts
  | Stmt.globalFunction name (FuncBody.mk params vararg block), E => by
      rw [stmtSites, stmt]
      exact takes_globalFunction name fun hint =>
        takes_funcReg (takes_block block
          ((E.declareGlobals [(name, GlobalKind.reg)]).body params vararg)) hint
  | Stmt.globalStar defaultConst, E => by
      rw [stmtSites, stmt]
      exact Takes.of_obeys (slot_globalStar defaultConst)
  | Stmt.global defaultConst targets values, E => by
      rw [stmtSites, stmt]
      have hlist := takes_globalList defaultConst targets values.length
        (fun base => takes_globalValues E values targets.length values.length base 0)
        fun hn => by rw [List.length_eq_zero_iff.1 hn, exprsSites]
      refine Owes.cast hlist rfl ?_
      dsimp only [afterStmt, declareGlobals]
      rw [List.map_map]
      rfl
  | Stmt.assign targets values, E => by
      rw [stmtSites, stmt]
      exact takes_assignStmt targets values (fun regs => owes_lvalues E targets regs)
        (fun hints => takes_sources E values hints _ _ 0)
        fun hints c pending c' h i hi => sources_hinted h i hi
  | Stmt.func target (FuncBody.mk params vararg block), E => by
      rw [stmtSites, stmt]
      exact Takes.bind (takes_funcReg (takes_block block (E.body params vararg)) none) fun value =>
        takes_assignLhs (owes_lvalue E target []) value
  | Stmt.expr e, E => by
      rw [stmtSites, stmt]
      exact takes_stmtExpr (takes_multires E e) (takes_toReg (takes_expr E e none) none)
  | Stmt.breakStmt, E => by
      rw [stmtSites, stmt]
      exact Takes.of_obeys obeys_compileBreak
  | Stmt.returnStmt [], E => by
      rw [stmtSites, stmt, exprsSites]
      exact Takes.of_obeys (obeys_emit rfl rfl)
  | Stmt.returnStmt [e], E => by
      rw [stmtSites, stmt, exprsSites, exprsSites, add_zero]
      exact takes_returnOne (takes_multires E e) (takes_expr E e none)
  | Stmt.returnStmt (e :: e' :: rest), E => by
      rw [stmtSites, stmt]
      exact takes_returnGeneric _ fun first => takes_window E (e :: e' :: rest) first 0 0
  | Stmt.doStmt stmts, E => by
      rw [stmtSites, stmt]
      exact takes_scopeLexical (takes_block stmts E)
  | Stmt.whileStmt cond block, E => by
      rw [stmtSites, stmt]
      exact takes_whileLoop (takes_expr E cond none) (takes_block block E)
  | Stmt.repeatStmt block cond, E => by
      rw [stmtSites, stmt, ← E.ds_afterBlock block]
      exact takes_repeatLoop (takes_block block E) (takes_expr (E.afterBlock block) cond none)
  | Stmt.ifStmt chain, E => by
      rw [stmtSites, stmt]
      exact takes_ifStmt fun label => takes_chain chain E label
  | Stmt.forNum counter init limit (some step) block, E => by
      rw [stmtSites, stmt]
      exact takes_forNumLoop counter (fun hint => takes_toReg (takes_expr E init hint) hint)
        (fun hint => takes_toReg (takes_expr E limit hint) hint)
        (StepTakes.some fun hint => takes_toReg (takes_expr E step hint) hint)
        (takes_block block (E.declare counter LocalAttr.control))
  | Stmt.forNum counter init limit none block, E => by
      rw [stmtSites, stmt]
      have hloop := takes_forNumLoop counter
        (fun hint => takes_toReg (takes_expr E init hint) hint)
        (fun hint => takes_toReg (takes_expr E limit hint) hint) (StepTakes.none rfl)
        (takes_block block (E.declare counter LocalAttr.control))
      rwa [add_zero] at hloop
  | Stmt.forGen targets values block, E => by
      rw [stmtSites, stmt, ← E.ds_declareAll (loopAttrs targets)]
      have hbody := takes_block block (E.declareAll (loopAttrs targets))
      rw [E.vararg_declareAll (loopAttrs targets), map_loopAttrs] at hbody
      exact takes_forGenLoop targets (fun base => takes_forValues E values _ base 0) hbody

theorem takes_chain : ∀ (chain : IfChain) (E : NameEnv) (label : ℕ),
    Takes E.vararg (E.chainSites chain) E.vararg (manualRules.ifChain E.ds chain label)
  | IfChain.mk cond stmts elseChain, E, label => by
      rw [chainSites, NameRules.ifChain]
      exact takes_ifChain (takes_expr E cond none) (takes_block stmts E)
        (takes_else elseChain E label) label

theorem takes_else : ∀ (chain : ElseChain) (E : NameEnv) (label : ℕ),
    ElseTakes E.vararg (E.elseSites chain) (manualRules.elseChain E.ds chain label)
  | ElseChain.none, E, label => by
      rw [elseSites, elseChain]
      exact ElseTakes.none rfl
  | ElseChain.elseIf chain, E, label => by
      rw [elseSites, elseChain]
      exact ElseTakes.some (takes_chain chain E label)
  | ElseChain.elseBlock stmts, E, label => by
      rw [elseSites, elseChain]
      exact ElseTakes.some (takes_scopeLexical (takes_block stmts E))

end

theorem counted_compile {num : NumOps} {block : List Stmt} {p : Prototype}
    (h : compile num block = Except.ok p) : p.Counted (accessCounts block) := by
  obtain ⟨c, hmain, hp⟩ := except_bind_eq_ok.1 h
  rw [Scoping.compileMain_eq follows_manualRules accounts_chunk num block] at hmain
  exact counted_functionToChunk (takes_block block NameEnv.chunk) hmain hp

/-- **The slots of a program** are sound iff none of its functions has too many access sites. -/
theorem compile_allSound_iff {num : NumOps} {block : List Stmt} {p : Prototype}
    (h : compile num block = Except.ok p) : p.AllSound ↔ ∀ n ∈ accessCounts block, n ≤ icLimit :=
  (counted_compile h).1

/-- Arithmetic that never folds. -/
def noFolding : NumOps where
  tryFoldBinop _ _ _ := none
  exactFloatToInt _ := none

/-- `return a.b`. -/
def fieldRead : List Stmt :=
  [Stmt.returnStmt [Expr.binaryOp BinaryOperator.property (Expr.ident (bytes "a"))
    (Expr.ident (bytes "b"))]]

theorem accessCounts_fieldRead : ∀ n ∈ accessCounts fieldRead, n ≤ icLimit := by
  have hcounts : accessCounts fieldRead = [2] := rfl
  rw [hcounts]
  decide

/-- A read of a field of a global has two access sites. -/
theorem compile_allSound_fieldRead :
    ∃ p, compile noFolding fieldRead = Except.ok p ∧ p.AllSound := by
  obtain ⟨p, hp⟩ : ∃ p, compile noFolding fieldRead = Except.ok p := ⟨_, rfl⟩
  exact ⟨p, hp, (compile_allSound_iff hp).2 accessCounts_fieldRead⟩

end Tcvm
