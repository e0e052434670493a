/-
Blocks, declarations and function bodies under the declarations in force.

* `Scoping.alike_define`, `Scoping.alike_declareAll` — declarations take effect;
* `Scoping.alike_scopeLexical` — **what a block declares has ended behind it**;
* `Scoping.alike_compileNested` — so has what a function body declares;
* `Scoping.alike_declList`, `Scoping.alike_globalList`, `Scoping.alike_forNumLoop`, … — the
  statements.
-/

import Mathlib.Data.Option.Defs
import Tcvm.ScopeAgreement

namespace Tcvm

open CompileM StateExcept Discipline

variable {α β : Type}

/-! ### Inversion -/

section

variable {c c' : Ctx}

theorem define_eq_ok {name : Name} {data : VariableData} {u : Unit}
    (h : define name data c = Except.ok (u, c')) :
    ∃ frame rest, c.scope = frame :: rest ∧
      { c with scope := ((name, data) :: frame) :: rest } = c' := by
  obtain ⟨x, c₁, h₁, h⟩ := bind_eq_ok.1 h
  obtain ⟨rfl, rfl⟩ := get_eq_ok.1 h₁
  cases hs : c.scope with
  | nil =>
      simp only [hs] at h
      exact absurd h (by simp [ice, err_eq_ok])
  | cons frame rest =>
      simp only [hs] at h
      exact ⟨frame, rest, rfl, set_eq_ok.1 h⟩

theorem popScope_eq_ok {close : List ℕ} (h : popScope c = Except.ok (close, c')) :
    c'.scope = c.scope.tail ∧ c.scopeGlobals = c'.globals :: c'.scopeGlobals ∧
      c'.upvalues = c.upvalues ∧ c'.capture = c.capture ∧
      -- of the code, only the register cursor moves
      c'.chunk.tape = c.chunk.tape ∧ c'.chunk.nextIcIdx = c.chunk.nextIcIdx ∧
      c'.chunk.prototypes = c.chunk.prototypes ∧ c'.chunk.constants = c.chunk.constants := by
  obtain ⟨x, c₁, h₁, h⟩ := bind_eq_ok.1 h
  obtain ⟨rfl, rfl⟩ := get_eq_ok.1 h₁
  cases hs : c.scope with
  | nil => exact absurd h (by simp [hs, ice, err_eq_ok])
  | cons frame rest =>
      cases hm : c.scopeMarks with
      | nil => exact absurd h (by simp [hs, hm, ice, err_eq_ok])
      | cons mark marks =>
          cases hg : c.scopeGlobals with
          | nil => exact absurd h (by simp [hs, hm, hg, ice, err_eq_ok])
          | cons globals saved =>
              cases hc : c.scopeClose with
              | nil => exact absurd h (by simp [hs, hm, hg, hc, ice, err_eq_ok])
              | cons list lists =>
                  simp only [hs, hm, hg, hc] at h
                  obtain ⟨u, c₂, h₂, h⟩ := bind_eq_ok.1 h
                  obtain ⟨rfl, rfl⟩ := pure_eq_ok.1 h
                  rw [← set_eq_ok.1 h₂]
                  exact ⟨rfl, rfl, rfl, rfl, rfl, rfl, rfl, rfl⟩

/-- Capturing a name only adds upvalues to the functions. -/
theorem captures_resolveForChild (name : Name) (fs : List Enclosing) :
    CapturesMore fs (resolveForChild name fs).2 := by
  induction fs with
  | nil => exact CapturesMore.refl _
  | cons f fs ih =>
      unfold resolveForChild
      cases resolveLocalIn f.scope name with
      | some data =>
          obtain ⟨reg, kind⟩ := data
          have hmark : CapturesMore (f :: fs)
              ({ f with varargInfo := f.varargInfo.map fun i =>
                { i with captured := true } } :: fs) :=
            List.Forall₂.cons ⟨rfl, List.prefix_refl _⟩ (CapturesMore.refl _)
          cases kind with
          | const v => cases v <;> exact CapturesMore.refl _
          | varargParam => exact hmark
          | _ => exact CapturesMore.refl _
      | none =>
          dsimp only
          cases upvalueIndex f.upvalues name with
          | some i => exact CapturesMore.refl _
          | none =>
              dsimp only
              generalize resolveForChild name fs = r at ih ⊢
              rcases r with ⟨_ | v | desc, fs'⟩
              · exact List.Forall₂.cons (Enclosing.Grows.refl f) ih
              · exact List.Forall₂.cons (Enclosing.Grows.refl f) ih
              · exact List.Forall₂.cons ⟨rfl, List.prefix_append _ _⟩ ih

/-- A name that is captured already is found; the others are looked for in the enclosing
functions. -/
theorem resolveOrCapture_eq_ok {name : Name} {r : Option ResolvedName}
    (h : resolveOrCapture name c = Except.ok (r, c')) :
    (∃ i, upvalueIndex c.upvalues name = some i ∧ r = some (ResolvedName.upvalue i) ∧ c' = c) ∨
      (upvalueIndex c.upvalues name = none ∧
        ((resolveForChild name c.capture).1 = none ∧ r = none ∧
            c' = { c with capture := (resolveForChild name c.capture).2 } ∨
          (∃ v, (resolveForChild name c.capture).1 = some (ChildResolution.const v) ∧
            r = some (ResolvedName.const v) ∧
            c' = { c with capture := (resolveForChild name c.capture).2 }) ∨
          ∃ desc, (resolveForChild name c.capture).1 = some (ChildResolution.upvalue desc) ∧
            r = some (ResolvedName.upvalue (c.upvalues.length % 2 ^ 8)) ∧
            c' = { c with
              capture := (resolveForChild name c.capture).2
              upvalues := c.upvalues ++ [(name, desc)] })) := by
  obtain ⟨x, c₁, h₁, h⟩ := bind_eq_ok.1 h
  obtain ⟨rfl, rfl⟩ := get_eq_ok.1 h₁
  cases hup : upvalueIndex c.upvalues name with
  | some i =>
      simp only [hup] at h
      obtain ⟨rfl, rfl⟩ := pure_eq_ok.1 h
      exact Or.inl ⟨i, rfl, rfl, rfl⟩
  | none =>
      simp only [hup] at h
      refine Or.inr ⟨rfl, ?_⟩
      generalize resolveForChild name c.capture = res at h ⊢
      rcases res with ⟨_ | v | desc, capture⟩
      all_goals
        obtain ⟨u, c₂, h₂, h⟩ := bind_eq_ok.1 h
        obtain ⟨rfl, rfl⟩ := pure_eq_ok.1 h
        obtain rfl := set_eq_ok.1 h₂
      · exact Or.inl ⟨rfl, rfl, rfl⟩
      · exact Or.inr (Or.inl ⟨v, rfl, rfl, rfl⟩)
      · exact Or.inr (Or.inr ⟨desc, rfl, rfl, rfl⟩)

theorem within_resolveOrCapture {name : Name} {r : Option ResolvedName}
    (h : resolveOrCapture name c = Except.ok (r, c')) : c.Within c' := by
  have hcap := captures_resolveForChild name c.capture
  rcases resolveOrCapture_eq_ok h with ⟨i, -, -, rfl⟩ |
    ⟨-, ⟨-, -, rfl⟩ | ⟨v, -, -, rfl⟩ | ⟨desc, -, -, rfl⟩⟩
  · exact Ctx.Within.refl _
  · exact ⟨rfl, rfl, List.prefix_refl _, hcap⟩
  · exact ⟨rfl, rfl, List.prefix_refl _, hcap⟩
  · exact ⟨rfl, rfl, List.prefix_append _ _, hcap⟩

end

namespace Scoping

variable {S : Scoping} {ds ds' ds'' : Declarations} {m m' : CompileM Unit}

/-! ### Names and declarations -/

theorem alike_resolveOrCapture (name : Name) :
    S.Alike ds ds (resolveOrCapture name) (resolveOrCapture name) :=
  Agrees.of_moves fun _ _ _ hm hc => ⟨S.resolve hc hm, within_resolveOrCapture hm⟩

theorem alike_resolveEnvUpvalue : S.Alike ds ds resolveEnvUpvalue resolveEnvUpvalue := by
  refine Alike.after (alike_resolveOrCapture _) fun r => ?_
  rcases r with _ | v | idx
  · exact Obeys.throw _
  · exact Obeys.throw _
  · exact Obeys.pure _

theorem alike_define (name : Name) (attr : LocalAttr) {data : VariableData}
    (hk : attr.Binds data.kind) :
    S.Alike ds (Declaration.variable name attr :: ds) (define name data) (define name data) := by
  refine Agrees.of_moves fun c _ c' hm hc => ?_
  obtain ⟨frame, rest, hs, rfl⟩ := define_eq_ok hm
  refine ⟨S.declare hc hk hs, ?_, rfl, List.prefix_refl _, CapturesMore.refl _⟩
  rw [hs]
  rfl

/-- The effect of some declarations of globals. -/
theorem declareAll_eq_ok (kind : GlobalTarget → GlobalKind)
    (targets : List GlobalTarget) {c c' : Ctx}
    {u : Unit} {frame : Scope} {rest : List Scope} (hs : c.scope = frame :: rest)
    (h : (targets.forM fun t => declareGlobal t.name (kind t)) c = Except.ok (u, c')) :
    c' = { c with
      scope :=
        ((targets.map fun t => (t.name, { register := 0, kind := VarKind.global })).reverse ++
          frame) :: rest
      globals := { c.globals with
        decls := (targets.map fun t => (t.name, kind t)).reverse ++ c.globals.decls } } := by
  induction targets generalizing c frame with
  | nil =>
      obtain ⟨-, rfl⟩ := pure_eq_ok.1 h
      show c = { c with scope := frame :: rest }
      rw [← hs]
  | cons t targets ih =>
      obtain ⟨u₁, c₁, h₁, h⟩ := bind_eq_ok.1 h
      obtain ⟨u₂, c₂, h₂, h₁⟩ := bind_eq_ok.1 h₁
      rw [← modify_eq_ok.1 h₂] at h₁
      obtain ⟨frame', rest', hs', rfl⟩ := define_eq_ok h₁
      obtain ⟨rfl, rfl⟩ := List.cons.inj (hs'.symm.trans hs)
      rw [ih rfl h]
      simp

/-- The declarations of a `global` list take effect together. -/
theorem alike_declareAll (kind : GlobalTarget → GlobalKind) (targets : List GlobalTarget) :
    S.Alike ds (Declaration.globals (targets.map fun t => (t.name, kind t)) :: ds)
      (voidPreamble >>= fun _ => targets.forM fun t => declareGlobal t.name (kind t))
      (voidPreamble >>= fun _ => targets.forM fun t => declareGlobal t.name (kind t)) := by
  refine Agrees.of_moves fun c _ c' hm hc => ?_
  obtain ⟨u, c₁, h₁, hm⟩ := bind_eq_ok.1 hm
  obtain rfl := modify_eq_ok.1 h₁
  obtain ⟨frame, rest, hs⟩ := List.exists_cons_of_ne_nil (S.nonempty hc)
  have hs : c.scope = frame :: rest := hs
  rw [declareAll_eq_ok kind targets (c := { c with globals := c.globals.voidPreamble }) hs hm]
  constructor
  · have hdecls : c.globals.voidPreamble.decls = c.globals.decls := by
      unfold GlobalEnv.voidPreamble
      split <;> rfl
    have h := S.declareGlobals (targets.map fun t => (t.name, kind t)) hc hs
    simp only [Ctx.names, List.map_map, Function.comp_def, hdecls] at h ⊢
    exact h
  · exact ⟨by rw [hs]; rfl, rfl, List.prefix_refl _, CapturesMore.refl _⟩

theorem alike_globalStar (defaultConst : Bool) :
    S.Alike ds
      (Declaration.collective (if defaultConst then GlobalKind.const else GlobalKind.reg) :: ds)
      (globalStar defaultConst) (globalStar defaultConst) := by
  refine Agrees.of_moves fun c _ c' hm hc => ?_
  rw [← modify_eq_ok.1 hm]
  exact ⟨S.declareCollective hc, rfl, rfl, List.prefix_refl _, CapturesMore.refl _⟩

theorem alike_bindTargets (base : ℕ) (consts : List (Option ConstVal)) (targets : List DeclTarget)
    (i : ℕ) :
    S.Alike ds (ds.withVariables (declAttrs targets)) (bindTargets base consts targets i)
      (bindTargets base consts targets i) := by
  induction targets generalizing ds i with
  | nil => exact Alike.pure _
  | cons target rest ih =>
      have hdefine : ∀ (kind : VarKind) (reg : ℕ), target.attr.Binds kind →
          S.Alike ds (ds.withVariables (declAttrs (target :: rest)))
            (do
              define target.name { register := reg, kind := kind }
              bindTargets base consts rest (i + 1))
            (do
              define target.name { register := reg, kind := kind }
              bindTargets base consts rest (i + 1)) := fun kind reg hk =>
        Alike.bind (alike_define _ _ hk) fun _ => ih _
      refine Alike.before (obeys_addU8 _ _) fun reg =>
        Alike.ite (Alike.before (internal_emit _) fun _ =>
          Alike.before (obeys_markClose _) fun _ => hdefine _ _ ?_) (hdefine _ _ ?_)
      -- the kind is the one of the attribute
      all_goals
        unfold DeclTarget.attr
        rcases target.modifier with _ | _ | _
        exacts [Or.inl rfl, ⟨_, rfl⟩, rfl]

theorem alike_bindParams (params : List Name) (numParams : ℕ) :
    S.Alike ds (ds.withVariables (plainAttrs params)) (bindParams params numParams)
      (bindParams params numParams) := by
  induction params generalizing ds numParams with
  | nil => exact Alike.pure _
  | cons name rest ih =>
      refine Alike.before obeys_reserveReg fun reg => ?_
      refine Alike.bind (alike_define _ LocalAttr.plain (Or.inl rfl)) fun _ => ?_
      exact Alike.before (obeys_addU8 _ _) fun _ => ih _

theorem binds_loopAttrs (names : List Name) :
    ∀ v ∈ loopAttrs names, v.2.Binds (VarKind.const none) := by
  cases names with
  | nil => simp [loopAttrs]
  | cons first rest =>
      refine List.forall_mem_cons.2 ⟨rfl, fun v hv => ?_⟩
      obtain ⟨name, -, rfl⟩ := List.mem_map.1 hv
      rfl

theorem alike_bindLoopVars (base : ℕ) {names : List Name} {vars : List (Name × LocalAttr)}
    (hnames : vars.map Prod.fst = names)
    (hvars : ∀ v ∈ vars, v.2.Binds (VarKind.const none)) (i : ℕ) :
    S.Alike ds (ds.withVariables vars) (bindLoopVars base names i) (bindLoopVars base names i) := by
  subst hnames
  induction vars generalizing ds i with
  | nil => exact Alike.pure _
  | cons v rest ih =>
      obtain ⟨hv, hrest⟩ := List.forall_mem_cons.1 hvars
      refine Alike.before obeys_reserveReg fun reg => Alike.before (obeys_addU8 _ _) fun _ => ?_
      refine Alike.before (obeys_addU8 _ _) fun _ => Alike.before (obeys_ensure _) fun _ => ?_
      exact Alike.bind (alike_define _ _ hv) fun _ => ih hrest _

/-! ### Blocks -/

/-- Leaving a scope brings back what was declared around it. -/
theorem holds_popScope {c c₂ c₃ : Ctx} {close : List ℕ} (hc : S.Holds ds c.names)
    (hholds : S.Holds ds' c₂.names)
    (hwithin : Ctx.Within
      { c with scope := [] :: c.scope, scopeGlobals := c.globals :: c.scopeGlobals } c₂)
    (h : popScope c₂ = Except.ok (close, c₃)) : S.Holds ds c₃.names ∧ c.Within c₃ := by
  obtain ⟨hs, hg, hu, hca, -⟩ := popScope_eq_ok h
  have hscope : c₃.scope = c.scope := hs.trans hwithin.outer
  obtain ⟨hglobals, hsaved⟩ := List.cons.inj (hg.symm.trans hwithin.saved)
  constructor
  · have hleave := S.leave hc hholds hwithin.upvalues hwithin.capture
    simp only [Ctx.names, hscope, hglobals, hu, hca] at hleave ⊢
    exact hleave
  · refine ⟨by rw [hscope], hsaved, ?_, ?_⟩
    · rw [hu]
      exact hwithin.upvalues
    · rw [hca]
      exact hwithin.capture

/-- **What a block declares has ended behind it.** -/
theorem alike_scopeLexical (h : S.Alike ds ds' m m') :
    S.Alike ds ds (scopeLexical m) (scopeLexical m') := by
  intro c hc
  -- the context in which the block starts
  obtain ⟨c₁, hpush, hholds₁, hwithin₁⟩ : ∃ c₁, pushScope c = Except.ok ((), c₁) ∧
      S.Holds ds c₁.names ∧ ∀ c₂, c₁.Within c₂ → Ctx.Within
        { c with scope := [] :: c.scope, scopeGlobals := c.globals :: c.scopeGlobals } c₂ :=
    ⟨_, rfl, S.enter hc, fun c₂ h => ⟨h.outer, h.saved, h.upvalues, h.capture⟩⟩
  obtain ⟨heq, hpost⟩ := h c₁ hholds₁
  constructor
  · unfold scopeLexical
    rw [bind_of_eq hpush, bind_of_eq hpush, Agrees.bind_apply, Agrees.bind_apply, heq]
  · intro a c' hm
    obtain ⟨u₁, c₁', hp, hm⟩ := bind_eq_ok.1 hm
    obtain ⟨rfl, rfl⟩ := Prod.mk.inj (Except.ok.inj (hpush.symm.trans hp))
    obtain ⟨u₂, c₂, h₂, hm⟩ := bind_eq_ok.1 hm
    obtain ⟨close, c₃, h₃, hm⟩ := bind_eq_ok.1 hm
    obtain ⟨hholds, hwithin⟩ := hpost u₂ c₂ h₂
    obtain ⟨hholds₃, hwithin₃⟩ := holds_popScope hc hholds (hwithin₁ _ hwithin) h₃
    have hsame : c₃.SameNames c' := by
      cases close with
      | nil => exact (Obeys.pure ()).names hm
      | cons first rest => exact (internal_emit _).names hm
    refine ⟨?_, hwithin₃.trans (Ctx.Within.of_sameNames hsame)⟩
    show S.Holds ds c'.names
    rw [hsame.names]
    exact hholds₃

theorem alike_scopeBreak (h : S.Alike ds ds' m m') :
    S.Alike ds ds' (scopeBreak m) (scopeBreak m') := by
  have hlabels : ∀ f : List ℕ → List ℕ,
      Internal (modify fun c : Ctx => { c with controlEndLabel := f c.controlEndLabel }) :=
    fun f => internal_modify fun c => ⟨⟨rfl, rfl, rfl, rfl, rfl⟩, List.prefix_refl _⟩
  refine Alike.before obeys_newLabel fun label => Alike.before (hlabels _) fun _ => ?_
  refine Alike.after h fun _ => Obeys.bind obeys_nextOffset fun _ => ?_
  exact Obeys.bind (obeys_setLabel _ _) fun _ => hlabels _

theorem alike_scopeLexicalBreak (h : S.Alike ds ds' m m') :
    S.Alike ds ds (scopeLexicalBreak m) (scopeLexicalBreak m') :=
  alike_scopeLexical (alike_scopeBreak h)

/-! ### Function bodies -/

/-- The parameters are in force in the body. -/
theorem functionPrologue_spec {params : List Name} {isVararg : Bool} {varargName : Option Name}
    {arity : ℕ} {c c₂ : Ctx} {u : Unit}
    (h : functionPrologue params isVararg varargName arity c = Except.ok (u, c₂))
    (hc : S.Holds ds { c.names with scope := [] :: c.scope }) :
    S.Holds (ds.withVariables (plainAttrs (params ++ varargName.toList))) c₂.names ∧
      c₂.scope.tail = c.scope ∧ CapturesMore c.capture c₂.capture := by
  obtain ⟨u₁, c₁, hpush, h⟩ := bind_eq_ok.1 h
  have hs₁ : c₁.scope = [] :: c.scope := by rw [← modify_eq_ok.1 hpush]
  have hcap₁ : c₁.capture = c.capture := by rw [← modify_eq_ok.1 hpush]
  have hholds₁ : S.Holds ds c₁.names := by
    rw [← modify_eq_ok.1 hpush]
    exact hc
  have hbind : S.Alike ds (ds.withVariables (plainAttrs (params ++ varargName.toList)))
      (prologueLocals params varargName) (prologueLocals params varargName) := by
    refine Alike.bind (alike_bindParams _ _) fun n =>
      Alike.before (obeys_adjustLocals _) fun _ => ?_
    cases varargName with
    | none =>
        rw [Option.toList_none, List.append_nil]
        exact Alike.pure _
    | some name =>
        have hds : ds.withVariables (plainAttrs (params ++ [name])) =
            Declaration.variable name LocalAttr.plain :: ds.withVariables (plainAttrs params) := by
          rw [plainAttrs, List.map_append]
          exact List.foldl_append
        rw [Option.toList_some, hds]
        refine Alike.before obeys_reserveReg fun reg => ?_
        refine Alike.bind (alike_define _ LocalAttr.plain (Or.inr rfl)) fun _ => Alike.internal ?_
        exact Obeys.bind (obeys_addU8 _ _) fun _ =>
          Obeys.bind (obeys_adjustLocals _) fun _ => internal_modifyChunk _
  have hrest := Alike.ite (p := isVararg = true)
    (Alike.before (internal_emit (Instruction.varargprep arity)) fun _ => hbind) hbind
  obtain ⟨hholds, hwithin⟩ := (hrest c₁ hholds₁).2 u c₂ h
  rw [← hcap₁]
  exact ⟨hholds, by rw [hwithin.outer, hs₁, List.tail_cons], hwithin.capture⟩

theorem functionEpilogue_capture {c c' : Ctx} {u : Unit}
    (h : functionEpilogue c = Except.ok (u, c')) : c'.capture = c.capture := by
  let R : Ctx → Ctx → Prop := fun c c' => c'.capture = c.capture
  have htrans : ∀ c₁ c₂ c₃, R c₁ c₂ → R c₂ c₃ → R c₁ c₃ := fun _ _ _ h h' => h'.trans h
  have hinternal : ∀ {γ : Type} {m : CompileM γ}, Internal m → Moves R m :=
    fun hm c a c' h => (hm.names h).capture
  have hall : Moves R functionEpilogue := by
    refine Moves.bind htrans (hinternal obeys_getChunk) fun x => ?_
    refine Moves.guarded htrans (hinternal (internal_modifyChunk _)) () fun _ => ?_
    refine Moves.bind htrans (hinternal obeys_getChunk) fun y => ?_
    refine Moves.guarded htrans (hinternal (internal_emit _)) () fun _ => ?_
    refine Moves.bind htrans (fun c close c' h => (popScope_eq_ok h).2.2.2.1) fun close => ?_
    have hdesc : Moves R (modify fun c : Ctx =>
        { c with chunk := { c.chunk with upvalueDesc := c.upvalues.map Prod.snd } } :
          CompileM Unit) := fun c u c' h => by rw [← modify_eq_ok.1 h]
    cases close with
    | nil => exact hdesc
    | cons first rest =>
        refine Moves.bind htrans (hinternal obeys_getChunk) fun z => ?_
        refine Moves.bind htrans (hinternal (obeys_unwrap _)) fun ret => ?_
        exact Moves.bind htrans (hinternal (internal_modifyChunk _)) fun _ => hdesc
  exact hall c u c' h

/-- Two bodies that do the same under the parameters give the same function. -/
theorem functionToChunk_congr {capture : List Enclosing} {params : List Name}
    {varargName : Option Name} {upvalues : List (Name × UpValueDescriptor)} {globals : GlobalEnv}
    (isVararg : Bool) (arity : ℕ) (num : NumOps)
    (hc : S.Holds ds
      { scope := [[]], globals := globals, upvalues := upvalues, capture := capture })
    (h : S.Alike (ds.withVariables (plainAttrs (params ++ varargName.toList))) ds' m m') :
    functionToChunk capture params isVararg varargName arity upvalues globals num m =
        functionToChunk capture params isVararg varargName arity upvalues globals num m' ∧
      ∀ child, functionToChunk capture params isVararg varargName arity upvalues globals num m =
          Except.ok child →
        ∃ n, S.Holds ds' n ∧ n.capture = child.capture ∧ CapturesMore capture child.capture := by
  have hstart : ∀ u c₂, functionPrologue params isVararg varargName arity
      (initialCtx capture isVararg arity upvalues globals num) = Except.ok (u, c₂) →
      S.Holds (ds.withVariables (plainAttrs (params ++ varargName.toList))) c₂.names ∧
        CapturesMore capture c₂.capture := fun u c₂ hp =>
    let ⟨hholds, _, hmore⟩ := functionPrologue_spec hp hc
    ⟨hholds, hmore⟩
  constructor
  · have hrun : (do
        functionPrologue params isVararg varargName arity
        m
        functionEpilogue : CompileM Unit) (initialCtx capture isVararg arity upvalues globals num) =
        (do
          functionPrologue params isVararg varargName arity
          m'
          functionEpilogue : CompileM Unit)
          (initialCtx capture isVararg arity upvalues globals num) := by
      cases hp : functionPrologue params isVararg varargName arity
          (initialCtx capture isVararg arity upvalues globals num) with
      | error e => rw [Agrees.bind_apply, Agrees.bind_apply, hp]; rfl
      | ok p =>
          rw [bind_of_eq hp, bind_of_eq hp, Agrees.bind_apply, Agrees.bind_apply,
            (h p.2 (hstart p.1 p.2 hp).1).1]
    unfold functionToChunk StateT.run
    rw [hrun]
  · intro child hchild
    obtain ⟨⟨u, c₄⟩, hr, hchild⟩ := except_bind_eq_ok.1 hchild
    obtain rfl := Except.ok.inj hchild
    obtain ⟨u₂, c₂, hp, hr⟩ := bind_eq_ok.1 hr
    obtain ⟨u₃, c₃, hbody, hr⟩ := bind_eq_ok.1 hr
    obtain ⟨hholds, hcap⟩ := hstart u₂ c₂ hp
    obtain ⟨hholds₃, hwithin⟩ := (h c₂ hholds).2 u₃ c₃ hbody
    have hepi := functionEpilogue_capture hr
    refine ⟨c₃.names, hholds₃, hepi.symm, ?_⟩
    rw [hepi]
    exact hcap.trans hwithin.capture

/-- **What a function body declares has ended behind it.** -/
theorem alike_compileNested (params : List Name) (vararg : Option (Option Name))
    (h : S.Alike (ds.body params vararg) ds' m m') :
    S.Alike ds ds (compileNested params vararg m) (compileNested params vararg m') := by
  intro c hc
  obtain ⟨heq, hpost⟩ := functionToChunk_congr vararg.isSome (params.length % 2 ^ 8) c.num
    (S.call c.chunk.varargInfo hc) h
  have hget : (get : CompileM Ctx) c = Except.ok (c, c) := rfl
  constructor
  · unfold compileNested
    rw [bind_of_eq hget, bind_of_eq hget]
    dsimp only [Ctx.names] at heq ⊢
    rw [heq]
  · intro proto c' hm
    obtain ⟨x, c₁, h₁, hm⟩ := bind_eq_ok.1 hm
    obtain ⟨rfl, rfl⟩ := get_eq_ok.1 h₁
    obtain ⟨child, c₂, hchild, hm⟩ := bind_eq_ok.1 hm
    obtain ⟨child', hchild', hpair⟩ := except_bind_eq_ok.1 hchild
    obtain ⟨rfl, rfl⟩ := Prod.mk.inj (Except.ok.inj hpair)
    obtain ⟨n, hholds, hcap, hmore⟩ := hpost _ hchild'
    cases hca : child'.capture with
    | nil =>
        simp only [hca] at hm
        exact absurd hm (by simp [throw_eq_ok])
    | cons f capture =>
        simp only [hca] at hm
        obtain ⟨u, c₃, h₃, hm⟩ := bind_eq_ok.1 hm
        obtain ⟨proto', -, hpair⟩ := except_bind_eq_ok.1 hm
        obtain ⟨-, rfl⟩ := Prod.mk.inj (Except.ok.inj hpair)
        rw [← set_eq_ok.1 h₃]
        rw [hca] at hmore hcap
        obtain ⟨hgrow, hrest⟩ := List.forall₂_cons.1 hmore
        exact ⟨S.ret hc hholds hcap hgrow.scope hgrow.upvalues hrest, rfl, rfl, hgrow.upvalues,
          hrest⟩

theorem alike_funcReg (params : List Name) (vararg : Option (Option Name))
    (h : S.Alike (ds.body params vararg) ds' m m') (dst : Option ℕ) :
    S.Alike ds ds (funcReg params vararg m dst) (funcReg params vararg m' dst) := by
  refine Alike.after (alike_compileNested params vararg h) fun _ => ?_
  refine Obeys.bind obeys_getChunk fun _ => Obeys.bind (internal_modifyChunk _) fun _ => ?_
  exact Obeys.bind (obeys_dstOrAlloc _) fun _ =>
    Obeys.bind (internal_emit _) fun _ => Obeys.pure _

/-! ### Declarations with initializers -/

/-- The function is in scope in its own body. -/
theorem alike_localFunction (name : Name) {closure closure' : Option ℕ → CompileM ℕ}
    (h : ∀ hint, S.Alike (Declaration.variable name LocalAttr.plain :: ds)
      (Declaration.variable name LocalAttr.plain :: ds) (closure hint) (closure' hint)) :
    S.Alike ds (Declaration.variable name LocalAttr.plain :: ds) (localFunction name closure)
      (localFunction name closure') := by
  refine Alike.before obeys_reserveReg fun reg => ?_
  refine Alike.bind (alike_define _ LocalAttr.plain (Or.inl rfl)) fun _ => ?_
  refine Alike.before (obeys_adjustLocals _) fun _ => Alike.after (h _) fun func => ?_
  exact Obeys.ite (internal_emit _) (Obeys.pure _)

/-- The initializers do not see the variables. -/
theorem alike_declList (targets : List DeclTarget)
    {values values' : ℕ → List (Option ConstVal) → CompileM (List (Option ConstVal))}
    (h : ∀ base consts, S.Alike ds ds (values base consts) (values' base consts)) :
    S.Alike ds (ds.withVariables (declAttrs targets)) (declList targets values)
      (declList targets values') := by
  refine Alike.before obeys_getChunk fun c => Alike.bind (h _ _) fun consts => ?_
  refine Alike.before (obeys_addU8 _ _) fun top => Alike.before obeys_getChunk fun c' => ?_
  refine Alike.before (obeys_padNil _) fun _ => ?_
  exact Alike.after (alike_bindTargets _ _ _ _) fun _ => obeys_adjustLocals _

/-- The function is declared in its own body. -/
theorem alike_globalFunction (name : Name) {closure closure' : Option ℕ → CompileM ℕ}
    (h : ∀ hint, S.Alike (Declaration.globals [(name, GlobalKind.reg)] :: ds)
      (Declaration.globals [(name, GlobalKind.reg)] :: ds) (closure hint) (closure' hint)) :
    S.Alike ds (Declaration.globals [(name, GlobalKind.reg)] :: ds) (globalFunction name closure)
      (globalFunction name closure') := by
  have hdeclare : S.Alike ds (Declaration.globals [(name, GlobalKind.reg)] :: ds)
      (voidPreamble >>= fun _ => declareGlobal name GlobalKind.reg)
      (voidPreamble >>= fun _ => declareGlobal name GlobalKind.reg) := by
    have h : S.Alike ds _ _ _ :=
      alike_declareAll (fun _ => GlobalKind.reg) [{ name := name, isConst := false }]
    simpa using h
  have hassoc : ∀ K : Unit → CompileM Unit,
      (voidPreamble >>= fun _ => declareGlobal name GlobalKind.reg >>= K) =
        (voidPreamble >>= fun _ => declareGlobal name GlobalKind.reg) >>= K :=
    fun K => (bind_assoc _ _ _).symm
  unfold globalFunction
  rw [hassoc, hassoc]
  refine Alike.bind hdeclare fun _ => Alike.before obeys_reserveReg fun reg => ?_
  refine Alike.bind (h _) fun func => Alike.before (obeys_ensure _) fun _ => ?_
  refine Alike.before (internal_allocFieldKey _) fun key => ?_
  refine Alike.bind alike_resolveEnvUpvalue fun envIdx => Alike.internal ?_
  refine Obeys.bind obeys_reserveReg fun _ => Obeys.bind (internal_emit _) fun _ => ?_
  refine Obeys.bind (internal_emit _) fun _ => Obeys.bind (internal_emit _) fun _ => ?_
  exact Obeys.bind (obeys_freeReg _) fun _ => obeys_freeReg _

theorem globalKind_eq (defaultConst : Bool) :
    globalKind defaultConst = Declarations.targetKind defaultConst := by
  funext t
  unfold globalKind Declarations.targetKind
  rw [Bool.or_comm]

/-- The initializers do not see the declarations. -/
theorem alike_globalList (defaultConst : Bool) (targets : List GlobalTarget) (numValues : ℕ)
    {values values' : ℕ → CompileM Unit}
    (h : ∀ base, S.Alike ds ds (values base) (values' base)) :
    S.Alike ds
      (Declaration.globals (targets.map fun t =>
        (t.name, Declarations.targetKind defaultConst t)) ::
        ds)
      (globalList defaultConst targets numValues values)
      (globalList defaultConst targets numValues values') := by
  have hinit : ∀ valueBase : ℕ, S.Alike ds
      (Declaration.globals (targets.map fun t =>
        (t.name, Declarations.targetKind defaultConst t)) ::
        ds)
      (do
        voidPreamble
        targets.forM fun target => declareGlobal target.name (globalKind defaultConst target)
        if numValues ≠ 0 then
          let envIdx ← resolveEnvUpvalue
          initGlobals envIdx valueBase targets 0
          setFreereg valueBase)
      (do
        voidPreamble
        targets.forM fun target => declareGlobal target.name (globalKind defaultConst target)
        if numValues ≠ 0 then
          let envIdx ← resolveEnvUpvalue
          initGlobals envIdx valueBase targets 0
          setFreereg valueBase) := by
    intro valueBase
    rw [globalKind_eq, ← bind_assoc]
    refine Alike.bind (alike_declareAll _ _) fun _ => Alike.ite ?_ (Alike.pure _)
    refine Alike.bind alike_resolveEnvUpvalue fun envIdx => Alike.internal ?_
    exact Obeys.bind (internal_initGlobals _ _ _ _) fun _ => obeys_setFreereg _
  refine Alike.before obeys_getChunk fun c => Alike.ite ?_ (hinit _)
  refine Alike.bind (h _) fun _ => Alike.before (obeys_addU8 _ _) fun top => ?_
  refine Alike.before (obeys_padNil _) fun _ => Alike.ite ?_ (hinit _)
  exact Alike.before (obeys_setFreereg _) fun _ => hinit _

/-! ### Control flow -/

section

variable {cond cond' : CompileM ExprDesc} {body body' : CompileM Unit}

theorem alike_branchCondFalse (h : S.Alike ds ds cond cond') :
    S.Alike ds ds (branchCondFalse cond) (branchCondFalse cond') :=
  Alike.after h fun _ => Obeys.bind (obeys_goiftrue _) fun _ =>
    Obeys.bind (obeys_patchToHere trivial _) fun _ => Obeys.pure _

theorem alike_whileLoop (hc : S.Alike ds ds cond cond') (hb : S.Alike ds ds' body body') :
    S.Alike ds ds (whileLoop cond body) (whileLoop cond' body') := by
  refine alike_scopeLexicalBreak (?_ : S.Alike ds ds' _ _)
  refine Alike.before obeys_newLabel fun loopStart => Alike.before obeys_nextOffset fun pos => ?_
  refine Alike.before (obeys_setLabel _ _) fun _ => ?_
  refine Alike.bind (alike_branchCondFalse hc) fun breakList => Alike.after hb fun _ => ?_
  refine Obeys.bind (obeys_emitJump _) fun _ => Obeys.bind obeys_get fun c => ?_
  cases c.controlEndLabel with
  | nil => exact obeys_err _
  | cons label rest =>
      exact Obeys.bind (obeys_downgradeTestsets _) fun _ => internal_modifyChunk _

/-- The condition sees what the body declares. -/
theorem alike_repeatLoop (hb : S.Alike ds ds' body body') (hc : S.Alike ds' ds' cond cond') :
    S.Alike ds ds (repeatLoop body cond) (repeatLoop body' cond') := by
  refine alike_scopeBreak (alike_scopeLexical (?_ : S.Alike ds ds' _ _))
  refine Alike.before obeys_nextOffset fun loopStart => Alike.bind hb fun _ => ?_
  exact Alike.after (alike_branchCondFalse hc) fun _ => obeys_patchTo _ _

theorem alike_ifStmt {chain chain' : ℕ → CompileM Unit}
    (h : ∀ label, S.Alike ds ds (chain label) (chain' label)) :
    S.Alike ds ds (ifStmt chain) (ifStmt chain') :=
  Alike.before obeys_newLabel fun _ => Alike.after (h _) fun _ =>
    Obeys.bind obeys_nextOffset fun _ => obeys_setLabel _ _

theorem alike_ifChain {rest rest' : Option (CompileM Unit)} (hc : S.Alike ds ds cond cond')
    (hb : S.Alike ds ds' body body') (hr : Option.Rel (S.Alike ds ds) rest rest') (label : ℕ) :
    S.Alike ds ds (ifChain cond body rest label) (ifChain cond' body' rest' label) := by
  refine Alike.bind (alike_branchCondFalse hc) fun elseList => ?_
  refine Alike.bind (alike_scopeLexical hb) fun _ => ?_
  cases hr with
  | none => exact Alike.internal (Obeys.bind (obeys_patchToHere trivial _) fun _ => Obeys.pure _)
  | some h =>
      exact Alike.before (obeys_emitJump _) fun _ =>
        Alike.before (obeys_patchToHere trivial _) fun _ => h

theorem alike_controlOperand {operand operand' : CompileM ℕ} (h : S.Alike ds ds operand operand')
    (target : ℕ) :
    S.Alike ds ds (controlOperand operand target) (controlOperand operand' target) :=
  Alike.after h fun _ => Obeys.ite
    (Obeys.bind (internal_emit _) fun _ => obeys_freeReg _) (Obeys.pure _)

theorem alike_forNumEntry (counter : Name) (base stepReg : ℕ) :
    S.Alike ds (Declaration.variable counter LocalAttr.control :: ds)
      (forNumEntry counter base stepReg) (forNumEntry counter base stepReg) := by
  refine Alike.before (obeys_addU8 _ _) fun _ => Alike.before obeys_getChunk fun _ => ?_
  refine Alike.before (obeys_ensure _) fun _ => Alike.before (obeys_adjustLocals _) fun _ => ?_
  refine Alike.before obeys_reserveReg fun _ => Alike.before (obeys_addU8 _ _) fun _ => ?_
  refine Alike.before (obeys_ensure _) fun _ => ?_
  refine Alike.bind (alike_define _ LocalAttr.control rfl) fun _ => Alike.internal ?_
  refine Obeys.bind (obeys_adjustLocals _) fun _ => Obeys.bind obeys_newLabel fun _ => ?_
  refine Obeys.bind obeys_newLabel fun _ => Obeys.bind (internal_emitJumpInstr _ _) fun _ => ?_
  refine Obeys.bind obeys_nextOffset fun _ => Obeys.bind (obeys_setLabel _ _) fun _ => ?_
  exact Obeys.pure _

/-- The body sees the loop variable, the operands do not. -/
theorem alike_forNumLoop (counter : Name) {init init' limit limit' : Option ℕ → CompileM ℕ}
    {step step' : Option (Option ℕ → CompileM ℕ)}
    (hi : ∀ hint, S.Alike ds ds (init hint) (init' hint))
    (hl : ∀ hint, S.Alike ds ds (limit hint) (limit' hint))
    (hs : Option.Rel (fun f f' => ∀ hint, S.Alike ds ds (f hint) (f' hint)) step step')
    (hb : S.Alike (Declaration.variable counter LocalAttr.control :: ds) ds' body body') :
    S.Alike ds ds (forNumLoop counter init limit step body)
      (forNumLoop counter init' limit' step' body') := by
  refine alike_scopeLexicalBreak (?_ : S.Alike ds ds' _ _)
  refine Alike.before obeys_reserveReg fun base => ?_
  refine Alike.before obeys_reserveReg fun limitReg => ?_
  refine Alike.before obeys_reserveReg fun stepReg => ?_
  refine Alike.bind (alike_controlOperand (hi _) _) fun _ => ?_
  refine Alike.bind (alike_controlOperand (hl _) _) fun _ => ?_
  -- what comes behind the operands
  have hrest : S.Alike ds ds'
      (forNumEntry counter base stepReg >>= fun labels => body >>= fun _ => do
        emitJumpInstr labels.1 (Instruction.forloop base 0)
        setLabel labels.2 (← nextOffset))
      (forNumEntry counter base stepReg >>= fun labels => body' >>= fun _ => do
        emitJumpInstr labels.1 (Instruction.forloop base 0)
        setLabel labels.2 (← nextOffset)) := by
    refine Alike.bind (alike_forNumEntry _ _ _) fun labels => Alike.after hb fun _ => ?_
    refine Obeys.bind (internal_emitJumpInstr _ _) fun _ => ?_
    exact Obeys.bind obeys_nextOffset fun _ => obeys_setLabel _ _
  cases hs with
  | some h => exact Alike.bind (alike_controlOperand (h _) _) fun _ => hrest
  | none =>
      exact Alike.before (obeys_allocConstant _) fun _ =>
        Alike.before (internal_emit _) fun _ => hrest

theorem alike_forGenEntry (targets : List Name) (base : ℕ) :
    S.Alike ds (ds.withVariables (loopAttrs targets)) (forGenEntry targets base)
      (forGenEntry targets base) := by
  refine Alike.before (obeys_addU8 _ _) fun top => Alike.before (obeys_padNil _) fun _ => ?_
  refine Alike.before (obeys_setFreereg _) fun _ => Alike.before (obeys_adjustLocals _) fun _ => ?_
  refine Alike.bind (alike_bindLoopVars _ (map_loopAttrs _) (binds_loopAttrs _) _) fun _ => ?_
  refine Alike.internal (Obeys.bind (obeys_adjustLocals _) fun _ => ?_)
  refine Obeys.bind obeys_newLabel fun _ => Obeys.bind obeys_newLabel fun _ => ?_
  refine Obeys.bind (internal_emitJumpInstr _ _) fun _ => ?_
  refine Obeys.bind obeys_nextOffset fun _ => Obeys.bind (obeys_setLabel _ _) fun _ => ?_
  exact Obeys.pure _

/-- The body sees the loop variables, the initializers do not. -/
theorem alike_forGenLoop (targets : List Name) {values values' : ℕ → CompileM Unit}
    (hv : ∀ base, S.Alike ds ds (values base) (values' base))
    (hb : S.Alike (ds.withVariables (loopAttrs targets)) ds' body body') :
    S.Alike ds ds (forGenLoop targets values body) (forGenLoop targets values' body') := by
  refine alike_scopeLexicalBreak (?_ : S.Alike ds ds' _ _)
  refine Alike.before obeys_getChunk fun c => Alike.bind (hv _) fun _ => ?_
  refine Alike.bind (alike_forGenEntry _ _) fun labels => ?_
  refine Alike.after hb fun _ => Obeys.bind obeys_nextOffset fun _ => ?_
  refine Obeys.bind (obeys_setLabel _ _) fun _ => Obeys.bind (internal_emit _) fun _ => ?_
  exact internal_emitJumpInstr _ _

end

end Scoping

end Tcvm
