/-
Access sites of statements.

An assignment gives its targets their slots first and stores to them last; in between they are owed.
A declaration may hide the named vararg for the rest of its block, and behind the block the named
vararg is in force again.

* `Stored`, `owes_emitStores`, `takes_assignStmt` — **assignments pay what their targets owe**;
* `takes_define`, `takes_declareGlobals`, `takes_bindTargets` — declarations;
* `takes_scopeLexical` — **what a block hides is in force behind it**;
* `takes_globalList`, `takes_ifChain`, `takes_forNumLoop`, … — the statements.
-/

import Tcvm.SlotForms

namespace Tcvm

open CompileM StateExcept Discipline

variable {α β : Type} {v v' : Option Name} {s t : Sites} {pre : List (ℕ × ℕ)}

/-! ### Assignments -/

/-- What the targets owe will be stored to. -/
def Stored (lvalues : List Lvalue) (pending : List (Option ℕ)) : Prop :=
  ∀ (i : ℕ) (lv : Lvalue), lvalues[i]? = some lv →
    ∃ src, pending[i]? = some src ∧ (src = none → lv.debt = [])

theorem owes_emitStore (lv : Lvalue) (src : ℕ) {l : List (ℕ × ℕ)} :
    Owes v 0 v (lv.debt ++ l) (emitStore lv src) fun _ => l := by
  cases lv with
  | «local» dst => exact Owes.of_obeys (Obeys.ite (obeys_emit rfl rfl) (Obeys.pure _))
  | upvalue idx => exact Owes.of_obeys (obeys_emit rfl rfl)
  | global envIdx key icIdx => exact owes_settle rfl
  | indexed table key => exact Owes.of_obeys (obeys_emit rfl rfl)
  | field table keyIdx icIdx => exact owes_settle rfl

/-- **The stores pay what the targets owe.** -/
theorem owes_emitStores {lvalues : List Lvalue} {pending : List (Option ℕ)}
    (h : Stored lvalues pending) :
    Owes v 0 v (lvalues.flatMap Lvalue.debt) (emitStores lvalues pending) fun _ => [] := by
  induction lvalues generalizing pending with
  | nil => exact Owes.of_obeys (Obeys.pure _)
  | cons lv lvalues ih =>
      obtain ⟨src, hsrc, hdebt⟩ := h 0 lv rfl
      cases pending with
      | nil => cases hsrc
      | cons src' pending =>
          obtain rfl := Option.some.inj hsrc
          have hrest := @ih pending fun i lv' hi => h (i + 1) lv' hi
          rw [List.flatMap_cons]
          cases src' with
          | none =>
              rw [hdebt rfl, List.nil_append]
              have hnext : emitStores (lv :: lvalues) (none :: pending) =
                  emitStores lvalues pending := rfl
              rw [hnext]
              exact hrest
          | some val =>
              have hnext : emitStores (lv :: lvalues) (some val :: pending) =
                  emitStore lv val >>= fun _ => emitStores lvalues pending := rfl
              rw [hnext]
              exact Owes.last (owes_emitStore lv val) fun _ => hrest

section

variable {c c' : Ctx} {lvalues : List Lvalue}

theorem debt_of_localDst {lv : Lvalue} {dst : ℕ} (h : localDst lv = some dst) : lv.debt = [] := by
  cases lv with
  | «local» dst => rfl
  | _ => cases h

/-- A value is evaluated into its target only where the target owes nothing. -/
theorem assignHints_debt {scope : List Scope} {values : List Expr} {hints : List (Option ℕ)}
    (h : assignHints scope lvalues values c = Except.ok (hints, c')) {i r : ℕ}
    (hi : hints[i]? = some (some r)) : ∃ lv, lvalues[i]? = some lv ∧ lv.debt = [] := by
  induction values generalizing lvalues hints i c with
  | nil =>
      obtain ⟨rfl, -⟩ := pure_eq_ok.1 h
      cases hi
  | cons e rest ih =>
      obtain ⟨lv, c₁, h₁, h⟩ := bind_eq_ok.1 h
      obtain ⟨hlv, rfl⟩ := unwrap_eq_ok.1 h₁
      obtain ⟨hints', c₂, h₂, h⟩ := bind_eq_ok.1 h
      obtain ⟨rfl, rfl⟩ := pure_eq_ok.1 h
      cases i with
      | zero =>
          refine ⟨lv, ?_, ?_⟩
          · rw [← List.head?_eq_getElem?]
            exact hlv
          · cases hdst : localDst lv with
            | some dst => exact debt_of_localDst hdst
            | none =>
                rw [hdst] at hi
                cases hi
      | succ i =>
          obtain ⟨lv', hlv', hdebt⟩ := ih h₂ hi
          rw [List.getElem?_tail] at hlv'
          exact ⟨lv', hlv', hdebt⟩

theorem pendingStore_none {hint : Option ℕ} {r : ℕ} (h : pendingStore hint r = none) :
    hint = some r := by
  unfold pendingStore at h
  split at h
  · assumption
  · cases h

theorem assignPad_debt {pad : List (Option ℕ)} (h : assignPad lvalues c = Except.ok (pad, c')) :
    Stored lvalues pad := by
  induction lvalues generalizing pad c with
  | nil => exact fun i lv hi => by cases hi
  | cons lv rest ih =>
      obtain ⟨nil, c₁, -, h⟩ := bind_eq_ok.1 h
      obtain ⟨reg, c₂, -, h⟩ := bind_eq_ok.1 h
      obtain ⟨u, c₃, -, h⟩ := bind_eq_ok.1 h
      obtain ⟨pad', c₄, h₄, h⟩ := bind_eq_ok.1 h
      obtain ⟨rfl, rfl⟩ := pure_eq_ok.1 h
      intro i lv' hi
      cases i with
      | zero =>
          obtain rfl := Option.some.inj hi
          exact ⟨_, rfl, fun hnone => debt_of_localDst (pendingStore_none hnone)⟩
      | succ i => exact ih h₄ i lv' hi

/-- Saving a source does not lose it. -/
theorem saveSources_stored {earlier : List ℕ} {pending saved : List (Option ℕ)}
    (h : saveSources earlier lvalues pending c = Except.ok (saved, c'))
    (hstored : Stored lvalues pending) : Stored lvalues saved := by
  induction lvalues generalizing earlier pending saved c with
  | nil => exact fun i lv hi => by cases hi
  | cons lv lvalues ih =>
      cases pending with
      | nil =>
          obtain ⟨src, hsrc, -⟩ := hstored 0 lv rfl
          cases hsrc
      | cons src pending =>
          -- behind the source, saved or not
          have hrest : ∀ (src' : Option ℕ) (c : Ctx), (src' = none → src = none) →
              (do
                let rest ← saveSources (earlier ++ (localDst lv).toList) lvalues pending
                return src' :: rest : CompileM (List (Option ℕ))) c = Except.ok (saved, c') →
              Stored (lv :: lvalues) saved := by
            intro src' c hsame h
            obtain ⟨saved', c₁, h₁, h⟩ := bind_eq_ok.1 h
            obtain ⟨rfl, rfl⟩ := pure_eq_ok.1 h
            intro i lv' hi
            cases i with
            | zero =>
                obtain rfl := Option.some.inj hi
                obtain ⟨src'', hsrc, hdebt⟩ := hstored 0 lv rfl
                obtain rfl := Option.some.inj hsrc
                exact ⟨src', rfl, fun hnone => hdebt (hsame hnone)⟩
            | succ i => exact ih h₁ (fun i lv' hi => hstored (i + 1) lv' hi) i lv' hi
          cases src with
          | none => exact hrest none c (fun _ => rfl) h
          | some r =>
              have h : (if r ∈ earlier then do
                  let temp ← allocRegister
                  emit (Instruction.move temp r)
                  let rest ← saveSources (earlier ++ (localDst lv).toList) lvalues pending
                  return some temp :: rest
                else do
                  let rest ← saveSources (earlier ++ (localDst lv).toList) lvalues pending
                  return some r :: rest : CompileM (List (Option ℕ))) c =
                    Except.ok (saved, c') := h
              split at h
              · obtain ⟨temp, c₁, -, h⟩ := bind_eq_ok.1 h
                obtain ⟨u, c₂, -, h⟩ := bind_eq_ok.1 h
                exact hrest (some temp) c₂ (fun hnone => by cases hnone) h
              · exact hrest (some r) c (fun hnone => by cases hnone) h

/-- Values without a hint are stored, and so is what has no value. -/
theorem stored_append {pending pad : List (Option ℕ)}
    (hpending : ∀ i : ℕ, pending[i]? = some none →
      ∃ lv : Lvalue, lvalues[i]? = some lv ∧ lv.debt = [])
    (hpad : Stored (lvalues.drop pending.length) pad) : Stored lvalues (pending ++ pad) := by
  intro i lv hi
  rcases Nat.lt_or_ge i pending.length with hlt | hge
  · refine ⟨pending[i], ?_, fun hnone => ?_⟩
    · rw [List.getElem?_append_left hlt, List.getElem?_eq_getElem hlt]
    · obtain ⟨lv', hi', hdebt⟩ := hpending i (by rw [List.getElem?_eq_getElem hlt, hnone])
      obtain rfl := Option.some.inj (hi.symm.trans hi')
      exact hdebt
  · obtain ⟨src, hsrc, hdebt⟩ := hpad (i - pending.length) lv (by
      rw [List.getElem?_drop, Nat.add_sub_cancel' hge]
      exact hi)
    exact ⟨src, (List.getElem?_append_right hge).trans hsrc, hdebt⟩

end

/-- **Assignments**: a value that has no hint is left to be stored. -/
theorem takes_assignStmt (targets values : List Expr) {lvalues : List ℕ → CompileM (List Lvalue)}
    {sources : List (Option ℕ) → CompileM (List (Option ℕ))}
    (hl : ∀ regs, Owes v s v [] (lvalues regs) fun lvs => lvs.flatMap Lvalue.debt)
    (hs : ∀ hints, Takes v t v (sources hints))
    (hsources : ∀ hints c pending c', sources hints c = Except.ok (pending, c') →
      ∀ i : ℕ, pending[i]? = some none → ∃ r : ℕ, hints[i]? = some (some r)) :
    Takes v (s + t) v (assignStmt targets values lvalues sources) := by
  refine Owes.before obeys_get fun c => Owes.bind (hl _) fun lvs => ?_
  refine Owes.before_run (obeys_assignHints _ _ _) fun c₁ hints c₂ hhints => ?_
  refine Owes.first_run ((hs hints).owing _) fun c₃ pending c₄ hpending => ?_
  refine Owes.before_run (obeys_assignPad _) fun c₅ pad c₆ hpad => ?_
  refine Owes.before_run (obeys_saveSources _ _ _) fun c₇ saved c₈ hsaved => ?_
  have hstored : Stored lvs saved := by
    refine saveSources_stored hsaved (stored_append (fun i hi => ?_) (assignPad_debt hpad))
    obtain ⟨r, hr⟩ := hsources hints c₃ pending c₄ hpending i hi
    exact assignHints_debt hhints hr
  refine Owes.after (owes_emitStores hstored) fun _ => ?_
  exact Obeys.bind obeys_getChunk fun _ => Obeys.bind (obeys_ensure _) fun _ => obeys_setFreereg _

theorem takes_indexedSubexpr {operand : CompileM ℕ} (h : Takes v s v operand)
    (targetLocalRegs : List ℕ) : Takes v s v (indexedSubexpr operand targetLocalRegs) := by
  refine Takes.after h fun reg => Obeys.ite ?_ (Obeys.pure _)
  exact Obeys.bind obeys_reserveReg fun _ => Obeys.map (obeys_emit rfl rfl)

theorem takes_assignLhs {lvalue : CompileM Lvalue} (h : Owes v s v [] lvalue Lvalue.debt)
    (value : ℕ) : Takes v s v (assignLhs lvalue value) := by
  refine Owes.before obeys_getChunk fun _ => Owes.first h fun lv => ?_
  have hstore := owes_emitStore (v := v) lv value (l := [])
  rw [List.append_nil] at hstore
  exact Owes.after hstore fun _ => obeys_setFreereg _

/-! ### Returns and calls -/

theorem takes_returnSingle {m : CompileM ExprDesc} (h : Takes v s v m) :
    Takes v s v (returnSingle m) :=
  Takes.after h fun desc => obeys_returnSingle (Obeys.pure desc)

theorem takes_returnGeneric (n : ℕ) {window : ℕ → CompileM Bool}
    (h : ∀ first, Takes v s v (window first)) : Takes v s v (returnGeneric n window) := by
  refine Takes.before obeys_reserveReg fun _ => Takes.after (h _) fun multi => Obeys.ite ?_ ?_
  · exact Obeys.bind (Obeys.pure _) fun _ => obeys_emit rfl rfl
  · exact Obeys.bind (obeys_addU8 _ _) fun _ => obeys_emit rfl rfl

theorem takes_returnOne {multi : Multires} {m : CompileM ExprDesc} (hm : MultiTakes v s multi)
    (h : Takes v s v m) : Takes v s v (returnOne multi m) := by
  cases hm with
  | funcCall hs => exact takes_tailCall hs
  | method hs => exact takes_tailCall hs
  | varArg hs =>
      subst hs
      exact Takes.of_obeys (Obeys.bind obeys_reserveReg fun _ =>
        Obeys.bind (obeys_emit rfl rfl) fun _ => obeys_emit rfl rfl)
  | single => exact takes_returnSingle h

theorem takes_stmtExpr {multi : Multires} {r : CompileM ℕ} (hm : MultiTakes v s multi)
    (h : Takes v s v r) : Takes v s v (stmtExpr multi r) := by
  have hsingle := Takes.after h fun _ : ℕ =>
    Obeys.bind obeys_getChunk fun c => obeys_setFreereg c.nactvar
  cases hm with
  | funcCall hs => exact takes_callStmt hs
  | method hs => exact takes_callStmt hs
  | varArg _ => exact hsingle
  | single => exact hsingle

/-! ### Declarations -/

theorem hide_none (names : List Name) : hide none names = none := rfl

/-- A step that changes the names in the innermost scope. -/
theorem Takes.of_scope {m : CompileM α}
    (h : ∀ c a c', m c = Except.ok (a, c') → c'.chunk = c.chunk ∧ c'.scope.tail = c.scope.tail ∧
      (NamesVararg c.scope v → NamesVararg c'.scope v')) : Takes v 0 v' m := by
  intro c a c' hv hm
  obtain ⟨hchunk, htail, hnames⟩ := h c a c' hm
  refine ⟨hnames hv, htail, fun n owed nested hs => ?_⟩
  rw [Sites.nested_zero, List.append_nil]
  exact hs.of_same (by rw [hchunk]) (by rw [hchunk]) (by rw [hchunk]) (by rw [hchunk])

theorem takes_define (name : Name) {data : VariableData} (hk : data.kind ≠ VarKind.varargParam) :
    Takes v 0 (hide v [name]) (define name data) := by
  refine Takes.of_scope fun c _ c' hm => ?_
  obtain ⟨frame, rest, hscope, rfl⟩ := define_eq_ok hm
  rw [hscope]
  refine ⟨rfl, rfl, fun hv other => ?_⟩
  dsimp only
  rw [resolveLocalIn_cons, hide_eq_some, List.mem_singleton, ← hv other]
  by_cases hne : other = name
  · rw [if_pos hne]
    constructor
    · rintro ⟨d, hd, hkind⟩
      obtain rfl := Option.some.inj hd
      exact absurd hkind hk
    · exact fun h => absurd hne h.2
  · rw [if_neg hne]
    exact ⟨fun h => ⟨h, hne⟩, fun h => h.1⟩

/-- The named vararg of a function is bound. -/
theorem takes_defineVararg (name : Name) (reg : ℕ) :
    Takes none 0 (some name) (define name { register := reg, kind := VarKind.varargParam }) := by
  refine Takes.of_scope fun c _ c' hm => ?_
  obtain ⟨frame, rest, hscope, rfl⟩ := define_eq_ok hm
  rw [hscope]
  refine ⟨rfl, rfl, fun hv other => ?_⟩
  dsimp only
  rw [resolveLocalIn_cons]
  by_cases hne : other = name
  · subst hne
    rw [if_pos rfl]
    exact ⟨fun _ => rfl, fun _ => ⟨_, rfl, rfl⟩⟩
  · rw [if_neg hne, hv other]
    constructor
    · intro h
      cases h
    · exact fun h => absurd (Option.some.inj h).symm hne

theorem slot_voidPreamble : slotSteps.Obeys voidPreamble := by
  intro c u c' h
  obtain rfl := modify_eq_ok.1 h
  exact Ctx.SameSlots.of_same rfl rfl rfl rfl rfl

theorem slot_globalStar (defaultConst : Bool) : slotSteps.Obeys (globalStar defaultConst) := by
  intro c u c' h
  obtain rfl := modify_eq_ok.1 h
  exact Ctx.SameSlots.of_same rfl rfl rfl rfl rfl

theorem takes_declareGlobal (name : Name) (kind : GlobalKind) :
    Takes v 0 (hide v [name]) (declareGlobal name kind) := by
  refine Takes.before ?_ fun _ => takes_define name (by simp)
  intro c u c' h
  obtain rfl := modify_eq_ok.1 h
  exact Ctx.SameSlots.of_same rfl rfl rfl rfl rfl

theorem takes_declareGlobals (kind : GlobalTarget → GlobalKind) (targets : List GlobalTarget) :
    Takes v 0 (hide v (targets.map GlobalTarget.name))
      (targets.forM fun t => declareGlobal t.name (kind t)) := by
  induction targets generalizing v with
  | nil =>
      rw [List.map_nil, hide_nil]
      exact Takes.pure _
  | cons t targets ih =>
      rw [List.map_cons, hide_cons]
      exact Owes.last (takes_declareGlobal _ _) fun _ => ih

theorem takes_bindTargets (base : ℕ) (consts : List (Option ConstVal)) (targets : List DeclTarget)
    (i : ℕ) :
    Takes v 0 (hide v (targets.map DeclTarget.name)) (bindTargets base consts targets i) := by
  induction targets generalizing v i with
  | nil =>
      rw [List.map_nil, hide_nil]
      exact Takes.pure _
  | cons target rest ih =>
      rw [List.map_cons, hide_cons]
      -- a variable is not the named vararg, whatever its attribute
      have hdefine : ∀ (kind : VarKind) (reg : ℕ), kind ≠ VarKind.varargParam →
          Takes v 0 (hide (hide v [target.name]) (rest.map DeclTarget.name)) (do
            define target.name { register := reg, kind := kind }
            bindTargets base consts rest (i + 1)) := fun kind reg hk =>
        Owes.last (takes_define _ hk) fun _ => ih _
      refine Takes.before (obeys_addU8 _ _) fun reg => Takes.ite ?_ ?_
      · refine Takes.before (obeys_emit rfl rfl) fun _ => ?_
        refine Takes.before (obeys_markClose _) fun _ => hdefine _ _ ?_
        cases target.modifier with
        | none => simp
        | some m => cases m <;> simp
      · refine hdefine _ _ ?_
        cases target.modifier with
        | none => simp
        | some m => cases m <;> simp

theorem takes_bindParams (params : List Name) (numParams : ℕ) :
    Takes v 0 (hide v params) (bindParams params numParams) := by
  induction params generalizing v numParams with
  | nil =>
      rw [hide_nil]
      exact Takes.pure _
  | cons name rest ih =>
      rw [hide_cons]
      have hk : VarKind.reg ≠ VarKind.varargParam := by simp
      refine Takes.before obeys_reserveReg fun reg => Owes.last (takes_define _ hk) fun _ => ?_
      exact Takes.before (obeys_addU8 _ _) fun _ => ih _

theorem takes_bindLoopVars (base : ℕ) (names : List Name) (i : ℕ) :
    Takes v 0 (hide v names) (bindLoopVars base names i) := by
  induction names generalizing v i with
  | nil =>
      rw [hide_nil]
      exact Takes.pure _
  | cons name rest ih =>
      rw [hide_cons]
      refine Takes.before obeys_reserveReg fun reg => Takes.before (obeys_addU8 _ _) fun _ => ?_
      refine Takes.before (obeys_addU8 _ _) fun _ => Takes.before (obeys_ensure _) fun _ => ?_
      have hk : VarKind.const none ≠ VarKind.varargParam := by simp
      exact Owes.last (takes_define _ hk) fun _ => ih _

/-! ### Blocks -/

/-- **What a block hides is in force again behind it.** -/
theorem takes_scopeLexical {m : CompileM Unit} (h : Takes v s v' m) :
    Takes v s v (scopeLexical m) := by
  intro c u c' hv hm
  obtain ⟨u₁, c₁, hpush, hm⟩ := bind_eq_ok.1 hm
  have hstart : NamesVararg c₁.scope v ∧ c₁.scope.tail = c.scope ∧
      ∀ n owed nested, Slots c n owed nested → Slots c₁ n owed nested := by
    obtain rfl := modify_eq_ok.1 hpush
    exact ⟨hv, rfl, fun n owed nested hs => hs.of_same rfl rfl rfl rfl⟩
  obtain ⟨hv₁, htail₁, hslots₁⟩ := hstart
  obtain ⟨u₂, c₂, h₂, hm⟩ := bind_eq_ok.1 hm
  obtain ⟨close, c₃, h₃, hm⟩ := bind_eq_ok.1 hm
  obtain ⟨-, htail, hslots⟩ := h c₁ u₂ c₂ hv₁ h₂
  obtain ⟨hpop, -, -, -, ht, hn, hp, hk⟩ := popScope_eq_ok h₃
  -- behind the block the scopes are those in front of it
  have hscope : c₃.scope = c.scope := (hpop.trans htail).trans htail₁
  have hsame : c₃.SameSlots c' := by
    cases close with
    | nil => exact Obeys.pure (D := slotSteps) _ c₃ u c' hm
    | cons first rest => exact obeys_emit (D := slotSteps) rfl rfl c₃ u c' hm
  refine ⟨?_, ?_, fun n owed nested hs => Slots.same ?_ hsame⟩
  · rw [hsame.scope, hscope]
    exact hv
  · rw [hsame.scope, hscope]
  · exact (hslots n owed nested (hslots₁ n _ nested hs)).of_same ht hn hp hk

theorem takes_scopeBreak {m : CompileM Unit} (h : Takes v s v' m) :
    Takes v s v' (scopeBreak m) := by
  have hlabels : ∀ f : List ℕ → List ℕ, slotSteps.Obeys
      (modify fun c : Ctx => { c with controlEndLabel := f c.controlEndLabel } : CompileM Unit) :=
    fun f => obeys_modify
      (fun c => Ctx.Aside.same c rfl rfl rfl rfl rfl (Ctx.Uncut.of_same rfl) rfl)
      fun _ => rfl
  refine Takes.before obeys_newLabel fun label => Takes.before (hlabels _) fun _ => ?_
  refine Takes.after h fun _ => Obeys.bind obeys_nextOffset fun _ => ?_
  exact Obeys.bind (obeys_setLabel _ _) fun _ => hlabels _

theorem takes_scopeLexicalBreak {m : CompileM Unit} (h : Takes v s v' m) :
    Takes v s v (scopeLexicalBreak m) := takes_scopeLexical (takes_scopeBreak h)

/-! ### Declarations with initializers -/

theorem takes_localFunction (name : Name) {closure : Option ℕ → CompileM ℕ}
    (h : ∀ hint, Takes (hide v [name]) s (hide v [name]) (closure hint)) :
    Takes v s (hide v [name]) (localFunction name closure) := by
  refine Takes.before obeys_reserveReg fun reg => ?_
  refine Owes.last (takes_define _ (by simp)) fun _ => ?_
  refine Takes.before (obeys_adjustLocals _) fun _ => Takes.after (h _) fun func => ?_
  exact Obeys.ite (obeys_emit rfl rfl) (Obeys.pure _)

theorem takes_declList (targets : List DeclTarget)
    {values : ℕ → List (Option ConstVal) → CompileM (List (Option ConstVal))}
    (h : ∀ base consts, Takes v s v (values base consts)) :
    Takes v s (hide v (targets.map DeclTarget.name)) (declList targets values) := by
  refine Takes.before obeys_getChunk fun c => Owes.first (h _ _) fun consts => ?_
  refine Takes.before (obeys_addU8 _ _) fun top => Takes.before obeys_getChunk fun c' => ?_
  refine Takes.before (obeys_padNil _) fun _ => ?_
  exact Takes.after (takes_bindTargets _ _ _ _) fun _ => obeys_adjustLocals _

/-- The initialisation of a global is one access site with two accesses. -/
theorem takes_initGlobal (name : Name) (envIdx src : ℕ) :
    Takes v (Sites.many 1) v (initGlobal name envIdx src) := by
  refine Owes.first (owes_allocFieldKey name) fun key => ?_
  refine Owes.before obeys_reserveReg fun guardReg => ?_
  refine Owes.last (owes_emit rfl List.mem_cons_self) fun _ => ?_
  refine Owes.before (obeys_emit rfl rfl) fun _ => ?_
  exact Owes.after (owes_settle rfl) fun _ => obeys_freeReg _

theorem takes_initGlobals (envIdx valueBase : ℕ) (targets : List GlobalTarget) (i : ℕ) :
    Takes v (Sites.many targets.length) v (initGlobals envIdx valueBase targets i) := by
  induction targets generalizing i with
  | nil => exact Takes.pure _
  | cons target rest ih =>
      refine Takes.before (obeys_addU8 _ _) fun src => ?_
      have hboth := Takes.bind (takes_initGlobal target.name envIdx src) fun _ => ih (i + 1)
      refine Owes.cast hboth ?_ rfl
      exact Sites.ext (Nat.add_comm _ _) rfl

theorem takes_globalFunction (name : Name) {closure : Option ℕ → CompileM ℕ}
    (h : ∀ hint, Takes (hide v [name]) s (hide v [name]) (closure hint)) :
    Takes v (s + Sites.many 1) (hide v [name]) (globalFunction name closure) := by
  refine Owes.before slot_voidPreamble fun _ => Owes.last (takes_declareGlobal _ _) fun _ => ?_
  refine Owes.before obeys_reserveReg fun reg => Owes.bind (h _) fun func => ?_
  refine Owes.before (obeys_ensure _) fun _ => Owes.first (owes_allocFieldKey name) fun key => ?_
  refine Owes.before slot_resolveEnvUpvalue fun envIdx => ?_
  refine Owes.before obeys_reserveReg fun guardReg => ?_
  refine Owes.last (owes_emit rfl List.mem_cons_self) fun _ => ?_
  refine Owes.before (obeys_emit rfl rfl) fun _ => Owes.after (owes_settle rfl) fun _ => ?_
  exact Obeys.bind (obeys_freeReg _) fun _ => obeys_freeReg _

/-- A list of globals without initializers is no access site. -/
theorem takes_globalList (defaultConst : Bool) (targets : List GlobalTarget) (numValues : ℕ)
    {values : ℕ → CompileM Unit} (h : ∀ base, Takes v s v (values base))
    (h₀ : numValues = 0 → s = 0) :
    Takes v (s + Sites.many (if numValues = 0 then 0 else targets.length))
      (hide v (targets.map GlobalTarget.name))
      (globalList defaultConst targets numValues values) := by
  have hdeclare : ∀ (t : Sites) (m : CompileM Unit),
      Takes (hide v (targets.map GlobalTarget.name)) t (hide v (targets.map GlobalTarget.name)) m →
      Takes v t (hide v (targets.map GlobalTarget.name)) (do
        voidPreamble
        targets.forM fun target => declareGlobal target.name (globalKind defaultConst target)
        m) := fun t m hm =>
    Takes.before slot_voidPreamble fun _ => Owes.last (takes_declareGlobals _ _) fun _ => hm
  have hinit : ∀ valueBase : ℕ,
      Takes v (Sites.many (if numValues = 0 then 0 else targets.length))
        (hide v (targets.map GlobalTarget.name)) (do
          voidPreamble
          targets.forM fun target => declareGlobal target.name (globalKind defaultConst target)
          if numValues ≠ 0 then
            let envIdx ← resolveEnvUpvalue
            initGlobals envIdx valueBase targets 0
            setFreereg valueBase) := by
    intro valueBase
    refine Takes.before slot_voidPreamble fun _ => Owes.last (takes_declareGlobals _ _) fun _ => ?_
    by_cases hn : numValues = 0
    · rw [if_pos hn, if_neg (not_not.2 hn)]
      exact Takes.pure _
    · rw [if_neg hn, if_pos hn]
      refine Takes.before slot_resolveEnvUpvalue fun envIdx => ?_
      exact Takes.after (takes_initGlobals _ _ _ _) fun _ => obeys_setFreereg _
  refine Takes.before obeys_getChunk fun c => ?_
  by_cases hn : numValues = 0
  · have hnext := hinit c.freereg
    rw [h₀ hn, zero_add]
    rwa [if_neg (not_not.2 hn)]
  · rw [if_pos hn]
    refine Takes.bind (h _) fun _ => Takes.before (obeys_addU8 _ _) fun top => ?_
    refine Takes.before (obeys_padNil _) fun _ => Takes.ite ?_ (hinit _)
    exact Takes.before (obeys_setFreereg _) fun _ => hinit _

/-! ### Control flow -/

section

variable {cond : CompileM ExprDesc} {body : CompileM Unit} {w : Option Name} {u : Sites}

theorem takes_branchCondFalse (h : Takes v s v cond) : Takes v s v (branchCondFalse cond) :=
  Takes.after h fun _ => Obeys.bind (obeys_goiftrue _) fun _ =>
    Obeys.map (obeys_patchToHere trivial _)

theorem takes_whileLoop (hc : Takes v s v cond) (hb : Takes v t w body) :
    Takes v (s + t) v (whileLoop cond body) := by
  refine takes_scopeLexicalBreak (?_ : Takes v (s + t) w _)
  refine Takes.before obeys_newLabel fun loopStart => Takes.before obeys_nextOffset fun pos => ?_
  refine Takes.before (obeys_setLabel _ _) fun _ => ?_
  refine Takes.bind (takes_branchCondFalse hc) fun breakList => Takes.after hb fun _ => ?_
  refine Obeys.bind (obeys_emitJump _) fun _ => Obeys.bind obeys_get fun c => ?_
  cases c.controlEndLabel with
  | nil => exact obeys_err _
  | cons label rest =>
      exact Obeys.bind (obeys_downgradeTestsets _) fun _ =>
        obeys_modifyChunk fun _ => ⟨rfl, rfl, rfl, rfl⟩

/-- The condition sees what the body declares. -/
theorem takes_repeatLoop (hb : Takes v s w body) (hc : Takes w t w cond) :
    Takes v (s + t) v (repeatLoop body cond) := by
  refine takes_scopeBreak (takes_scopeLexical (?_ : Takes v (s + t) w _))
  refine Takes.before obeys_nextOffset fun loopStart => Takes.bind hb fun _ => ?_
  exact Takes.after (takes_branchCondFalse hc) fun _ => obeys_patchTo _ _

theorem takes_ifStmt {chain : ℕ → CompileM Unit} (h : ∀ label, Takes v s v (chain label)) :
    Takes v s v (ifStmt chain) :=
  Takes.before obeys_newLabel fun _ => Takes.after (h _) fun _ =>
    Obeys.bind obeys_nextOffset fun _ => obeys_setLabel _ _

/-- What follows the block of a condition, if anything. -/
inductive ElseTakes (v : Option Name) (s : Sites) : Option (CompileM Unit) → Prop
  | none (h : s = 0) : ElseTakes v s none
  | some {m : CompileM Unit} (h : Takes v s v m) : ElseTakes v s (some m)

theorem takes_ifChain {rest : Option (CompileM Unit)} (hc : Takes v s v cond)
    (hb : Takes v t w body) (hr : ElseTakes v u rest) (label : ℕ) :
    Takes v (s + t + u) v (ifChain cond body rest label) := by
  rw [add_assoc]
  refine Takes.bind (takes_branchCondFalse hc) fun elseList => ?_
  refine Takes.bind (takes_scopeLexical hb) fun _ => ?_
  cases hr with
  | none h =>
      subst h
      exact Takes.of_obeys (Obeys.map (obeys_patchToHere trivial _))
  | some h =>
      exact Takes.before (obeys_emitJump _) fun _ =>
        Takes.before (obeys_patchToHere trivial _) fun _ => h

theorem takes_controlOperand {operand : CompileM ℕ} (h : Takes v s v operand) (target : ℕ) :
    Takes v s v (controlOperand operand target) :=
  Takes.after h fun _ => Obeys.ite
    (Obeys.bind (obeys_emit rfl rfl) fun _ => obeys_freeReg _) (Obeys.pure _)

/-- The step of a numeric `for`, if there is one. -/
inductive StepTakes (v : Option Name) (s : Sites) : Option (Option ℕ → CompileM ℕ) → Prop
  | none (h : s = 0) : StepTakes v s none
  | some {step : Option ℕ → CompileM ℕ} (h : ∀ hint, Takes v s v (step hint)) :
      StepTakes v s (some step)

theorem takes_forNumEntry (counter : Name) (base stepReg : ℕ) :
    Takes v 0 (hide v [counter]) (forNumEntry counter base stepReg) := by
  have hk : VarKind.const none ≠ VarKind.varargParam := by simp
  refine Takes.before (obeys_addU8 _ _) fun _ => Takes.before obeys_getChunk fun _ => ?_
  refine Takes.before (obeys_ensure _) fun _ => Takes.before (obeys_adjustLocals _) fun _ => ?_
  refine Takes.before obeys_reserveReg fun _ => Takes.before (obeys_addU8 _ _) fun _ => ?_
  refine Takes.before (obeys_ensure _) fun _ => Takes.after (takes_define _ hk) fun _ => ?_
  refine Obeys.bind (obeys_adjustLocals _) fun _ => Obeys.bind obeys_newLabel fun _ => ?_
  refine Obeys.bind obeys_newLabel fun _ => Obeys.bind (obeys_emitJumpInstr _ rfl rfl) fun _ => ?_
  refine Obeys.bind obeys_nextOffset fun _ => Obeys.bind (obeys_setLabel _ _) fun _ => ?_
  exact Obeys.pure _

/-- The body sees the loop variable, the operands do not. -/
theorem takes_forNumLoop (counter : Name) {init limit : Option ℕ → CompileM ℕ}
    {step : Option (Option ℕ → CompileM ℕ)} {b : Sites} (hi : ∀ hint, Takes v s v (init hint))
    (hl : ∀ hint, Takes v t v (limit hint)) (hs : StepTakes v u step)
    (hb : Takes (hide v [counter]) b w body) :
    Takes v (s + t + u + b) v (forNumLoop counter init limit step body) := by
  refine takes_scopeLexicalBreak (?_ : Takes v (s + t + u + b) w _)
  rw [add_assoc, add_assoc]
  refine Takes.before obeys_reserveReg fun base => Takes.before obeys_reserveReg fun limitReg => ?_
  refine Takes.before obeys_reserveReg fun stepReg => ?_
  refine Takes.bind (takes_controlOperand (hi _) _) fun _ => ?_
  refine Takes.bind (takes_controlOperand (hl _) _) fun _ => ?_
  -- what comes behind the operands
  have hrest : Takes v b w
      (forNumEntry counter base stepReg >>= fun labels => body >>= fun _ => do
        emitJumpInstr labels.1 (Instruction.forloop base 0)
        setLabel labels.2 (← nextOffset)) := by
    refine Owes.last (takes_forNumEntry _ _ _) fun labels => Takes.after hb fun _ => ?_
    refine Obeys.bind (obeys_emitJumpInstr _ rfl rfl) fun _ => ?_
    exact Obeys.bind obeys_nextOffset fun _ => obeys_setLabel _ _
  cases hs with
  | some h => exact Takes.bind (takes_controlOperand (h _) _) fun _ => hrest
  | none h =>
      subst h
      rw [zero_add]
      exact Takes.before (obeys_allocConstant _) fun _ =>
        Takes.before (obeys_emit rfl rfl) fun _ => hrest

theorem takes_forGenEntry (targets : List Name) (base : ℕ) :
    Takes v 0 (hide v targets) (forGenEntry targets base) := by
  refine Takes.before (obeys_addU8 _ _) fun top => Takes.before (obeys_padNil _) fun _ => ?_
  refine Takes.before (obeys_setFreereg _) fun _ => Takes.before (obeys_adjustLocals _) fun _ => ?_
  refine Takes.after (takes_bindLoopVars _ _ _) fun _ =>
    Obeys.bind (obeys_adjustLocals _) fun _ => ?_
  refine Obeys.bind obeys_newLabel fun loopBody => Obeys.bind obeys_newLabel fun loopTest => ?_
  refine Obeys.bind (obeys_emitJumpInstr _ rfl rfl) fun _ => Obeys.bind obeys_nextOffset fun _ => ?_
  exact Obeys.bind (obeys_setLabel _ _) fun _ => Obeys.pure _

/-- The body sees the loop variables, the initializers do not. -/
theorem takes_forGenLoop (targets : List Name) {values : ℕ → CompileM Unit}
    (hv : ∀ base, Takes v s v (values base)) (hb : Takes (hide v targets) t w body) :
    Takes v (s + t) v (forGenLoop targets values body) := by
  refine takes_scopeLexicalBreak (?_ : Takes v (s + t) w _)
  refine Takes.before obeys_getChunk fun c => Takes.bind (hv _) fun _ => ?_
  refine Owes.last (takes_forGenEntry _ _) fun labels => ?_
  refine Takes.after hb fun _ => Obeys.bind obeys_nextOffset fun _ => ?_
  refine Obeys.bind (obeys_setLabel _ _) fun _ => Obeys.bind (obeys_emit rfl rfl) fun _ => ?_
  exact obeys_emitJumpInstr _ rfl rfl

end

end Tcvm
