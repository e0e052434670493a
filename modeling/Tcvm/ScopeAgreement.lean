/-
Steps of a compilation under the declarations in force.

The compiler keeps its own account of the declarations: frames of variables, a table of globals that
is saved and restored with the scopes, and the frames of the enclosing functions.  `Scoping` is what
an invariant between this account and the declarations in force has to survive: blocks, declarations
and function bodies.  For every such invariant, the definitions that compile a form out of the
compilations of its parts do the same whenever the parts do.

* `NameState`, `Ctx.names` — the compiler's account;
* `Ctx.Within` — what a step leaves alone around the innermost scope;
* `Scoping` — the invariants;
* `Scoping.Alike` — two compilations do the same, and the invariant holds behind them;
* `Scoping.alike_scopeLexical`, `Scoping.alike_declList`, `Scoping.alike_globalList`, … — the forms.
-/

import Mathlib.Data.List.Forall2
import Tcvm.CompilerLog
import Tcvm.ScopedCompiler

namespace Tcvm

open CompileM StateExcept Discipline

variable {α β : Type}

/-! ### The compiler's account of the declarations -/

/-- What names resolve to. -/
structure NameState where
  scope : List Scope
  globals : GlobalEnv
  upvalues : List (Name × UpValueDescriptor)
  capture : List Enclosing

def Ctx.names (c : Ctx) : NameState :=
  { scope := c.scope, globals := c.globals, upvalues := c.upvalues, capture := c.capture }

theorem Ctx.SameNames.names {c c' : Ctx} (h : c.SameNames c') : c'.names = c.names := by
  simp only [Ctx.names, h.scope, h.globals, h.upvalues, h.capture]

/-- A function has captured some more upvalues. -/
structure Enclosing.Grows (f f' : Enclosing) : Prop where
  scope : f'.scope = f.scope
  upvalues : f.upvalues <+: f'.upvalues

theorem Enclosing.Grows.refl (f : Enclosing) : f.Grows f := ⟨rfl, List.prefix_refl _⟩

theorem Enclosing.Grows.trans {f f' f'' : Enclosing} (h : f.Grows f') (h' : f'.Grows f'') :
    f.Grows f'' := ⟨h'.scope.trans h.scope, List.IsPrefix.trans h.upvalues h'.upvalues⟩

/-- The enclosing functions have captured some more upvalues. -/
def CapturesMore (fs fs' : List Enclosing) : Prop := List.Forall₂ Enclosing.Grows fs fs'

theorem CapturesMore.refl (fs : List Enclosing) : CapturesMore fs fs :=
  List.forall₂_same.2 fun f _ => Enclosing.Grows.refl f

theorem CapturesMore.trans {fs fs' fs'' : List Enclosing} (h : CapturesMore fs fs')
    (h' : CapturesMore fs' fs'') : CapturesMore fs fs'' := by
  induction h generalizing fs'' with
  | nil => exact h'
  | cons hf _ ih =>
      cases h' with
      | cons hf' hrest => exact List.Forall₂.cons (hf.trans hf') (ih hrest)

/-- Around the innermost scope nothing has changed, and what the functions have captured has only
grown. -/
structure Ctx.Within (c c' : Ctx) : Prop where
  outer : c'.scope.tail = c.scope.tail
  saved : c'.scopeGlobals = c.scopeGlobals
  upvalues : c.upvalues <+: c'.upvalues
  capture : CapturesMore c.capture c'.capture

namespace Ctx.Within

variable {c c' c'' : Ctx}

theorem of_sameNames (h : c.SameNames c') : c.Within c' where
  outer := by rw [h.scope]
  saved := h.scopeGlobals
  upvalues := h.upvalues ▸ List.prefix_refl _
  capture := by
    rw [h.capture]
    exact CapturesMore.refl _

theorem refl (c : Ctx) : c.Within c := of_sameNames (Ctx.SameNames.refl c)

theorem trans (h : c.Within c') (h' : c'.Within c'') : c.Within c'' where
  outer := h'.outer.trans h.outer
  saved := h'.saved.trans h.saved
  upvalues := List.IsPrefix.trans h.upvalues h'.upvalues
  capture := h.capture.trans h'.capture

end Ctx.Within

/-! ### Invariants -/

/-- The kinds the compiler gives to the variables with this attribute. -/
def LocalAttr.Binds : LocalAttr → VarKind → Prop
  | plain, kind => kind = VarKind.reg ∨ kind = VarKind.varargParam
  | const, kind => ∃ v, kind = VarKind.const v
  | close, kind => kind = VarKind.toClose
  | control, kind => kind = VarKind.const none
  | loopVar, kind => kind = VarKind.const none

theorem LocalAttr.Binds.ne_global {attr : LocalAttr} {kind : VarKind} (h : attr.Binds kind) :
    kind ≠ VarKind.global := by
  rintro rfl
  cases attr <;> simp [LocalAttr.Binds] at h

/-- An invariant between the declarations in force and the compiler's account of them, with what it
has to survive. -/
structure Scoping where
  Holds : Declarations → NameState → Prop
  nonempty : ∀ {ds n}, Holds ds n → n.scope ≠ []
  /-- A name is captured from the enclosing functions. -/
  resolve : ∀ {ds name r} {c c' : Ctx}, Holds ds c.names →
    resolveOrCapture name c = Except.ok (r, c') → Holds ds c'.names
  /-- A block starts. -/
  enter : ∀ {ds n}, Holds ds n → Holds ds { n with scope := [] :: n.scope }
  /-- A block has ended: its variables and its global declarations are dropped. -/
  leave : ∀ {ds ds' n n'}, Holds ds n → Holds ds' n' → n.upvalues <+: n'.upvalues →
    CapturesMore n.capture n'.capture → Holds ds { n' with scope := n.scope, globals := n.globals }
  /-- A variable is bound in the innermost frame. -/
  declare : ∀ {ds n name attr} {data : VariableData} {frame rest}, Holds ds n →
    LocalAttr.Binds attr data.kind → n.scope = frame :: rest →
    Holds (Declaration.variable name attr :: ds)
      { n with scope := ((name, data) :: frame) :: rest }
  /-- Globals are declared in the innermost frame, the first one first. -/
  declareGlobals : ∀ {ds n frame rest} (targets : List (Name × GlobalKind)), Holds ds n →
    n.scope = frame :: rest →
    Holds (Declaration.globals targets :: ds)
      { n with
        scope :=
          ((targets.map fun t => (t.1, { register := 0, kind := VarKind.global })).reverse ++
            frame) :: rest
        globals := { n.globals.voidPreamble with
          decls := targets.reverse ++ n.globals.decls } }
  /-- The names without a declaration are declared. -/
  declareCollective : ∀ {ds n kind}, Holds ds n →
    Holds (Declaration.collective kind :: ds)
      { n with globals := { n.globals with default := DefaultPolicy.star kind } }
  /-- A function body starts. -/
  call : ∀ {ds n} (info : Option VarargInfo), Holds ds n →
    Holds (Declaration.function :: ds)
      { scope := [[]], globals := n.globals, upvalues := [],
        capture := { scope := n.scope, upvalues := n.upvalues, varargInfo := info } :: n.capture }
  /-- A function body has ended. -/
  ret : ∀ {ds ds' n n' f capture}, Holds ds n → Holds ds' n' → n'.capture = f :: capture →
    f.scope = n.scope → n.upvalues <+: f.upvalues → CapturesMore n.capture capture →
    Holds ds { n with upvalues := f.upvalues, capture := capture }

namespace Scoping

variable {S : Scoping} {ds ds' ds'' : Declarations}

/-- Two compilations do the same under the declarations `ds`; behind them `ds'` are in force. -/
def Alike (S : Scoping) (ds ds' : Declarations) (m n : CompileM α) : Prop :=
  Agrees (fun c => S.Holds ds c.names) Ctx.Within (fun c => S.Holds ds' c.names) m n

variable {m m' : CompileM α} {f f' : α → CompileM β}

theorem Alike.bind (hm : S.Alike ds ds' m m') (hf : ∀ a, S.Alike ds' ds'' (f a) (f' a)) :
    S.Alike ds ds'' (m >>= f) (m' >>= f') :=
  Agrees.bind (fun _ _ _ => Ctx.Within.trans) hm hf

theorem Alike.throw (e : Fault) :
    S.Alike ds ds' (MonadExcept.throw e : CompileM α) (MonadExcept.throw e) :=
  Agrees.throw e

theorem Alike.ite {p : Prop} [Decidable p] {n n' : CompileM α} (hm : S.Alike ds ds' m m')
    (hn : S.Alike ds ds' n n') :
    S.Alike ds ds' (if p then m else n) (if p then m' else n') :=
  Agrees.ite hm hn

/-- A step that leaves the names alone. -/
theorem Alike.internal (h : Internal m) : S.Alike ds ds m m :=
  Agrees.of_moves fun c a c' hm hc => by
    have hs := h.names hm
    exact ⟨by rw [hs.names]; exact hc, Ctx.Within.of_sameNames hs⟩

/-- A step that leaves the names alone, in front of the rest. -/
theorem Alike.before (h : Internal m) (hf : ∀ a, S.Alike ds ds' (f a) (f' a)) :
    S.Alike ds ds' (m >>= f) (m >>= f') := Alike.bind (Alike.internal h) hf

/-- A step that leaves the names alone, behind the rest. -/
theorem Alike.after (hm : S.Alike ds ds' m m') (h : ∀ a, Internal (f a)) :
    S.Alike ds ds' (m >>= f) (m' >>= f) := Alike.bind hm fun a => Alike.internal (h a)

theorem Alike.pure (a : α) : S.Alike ds ds (Pure.pure a : CompileM α) (Pure.pure a) :=
  Alike.internal (Obeys.pure a)

/-! ### Operands and calls -/

section

variable {m m' n n' : CompileM ExprDesc} {r r' t t' : CompileM ℕ} {setup setup' : CompileM (ℕ × ℕ)}
  {args args' : ℕ → CompileM ℕ}

theorem alike_toReg (hm : S.Alike ds ds m m') (dst : Option ℕ) :
    S.Alike ds ds (toReg m dst) (toReg m' dst) :=
  Alike.after hm fun _ => Obeys.bind (obeys_dischargeToRegMut _ _) fun _ => Obeys.pure _

theorem alike_funcCallSetup (hr : S.Alike ds ds r r')
    (hargs : ∀ func, S.Alike ds ds (args func) (args' func)) :
    S.Alike ds ds (funcCallSetup r args) (funcCallSetup r' args') := by
  have hrest : ∀ func : ℕ, S.Alike ds ds
      (do
        let argsWire ← args func
        return (func, argsWire))
      (do
        let argsWire ← args' func
        return (func, argsWire)) := fun func => Alike.after (hargs func) fun _ => Obeys.pure _
  refine Alike.bind hr fun func => Alike.before obeys_getChunk fun c => ?_
  refine Alike.before (obeys_addU8 _ _) fun next => Alike.ite ?_ (hrest _)
  exact Alike.before obeys_reserveReg fun _ => Alike.before (internal_emit _) fun _ => hrest _

theorem alike_methodCallSetup (hr : S.Alike ds ds r r') (method : Name)
    (hargs : ∀ func, S.Alike ds ds (args func) (args' func)) :
    S.Alike ds ds (methodCallSetup r method args) (methodCallSetup r' method args') := by
  refine Alike.bind hr fun object => Alike.before (obeys_allocConstant _) fun keyIdx => ?_
  refine Alike.before obeys_reserveReg fun func => Alike.before (internal_emit _) fun _ => ?_
  refine Alike.before (obeys_addU8 _ _) fun _ => Alike.before (obeys_allocUpTo _) fun _ => ?_
  exact Alike.after (hargs func) fun _ => Obeys.pure _

theorem alike_callResults (hs : S.Alike ds ds setup setup') (want : Want) :
    S.Alike ds ds (callResults setup want) (callResults setup' want) := by
  refine Alike.after hs fun p => ?_
  cases want with
  | exact n =>
      refine Obeys.bind (obeys_addU8 _ _) fun _ => Obeys.bind (internal_emit _) fun _ => ?_
      exact Obeys.bind (obeys_addU8 _ _) fun _ =>
        Obeys.bind (obeys_setFreereg _) fun _ => Obeys.pure _
  | multRet => exact Obeys.bind (internal_emit _) fun _ => Obeys.pure _

theorem alike_tailCall (hs : S.Alike ds ds setup setup') :
    S.Alike ds ds (tailCall setup) (tailCall setup') :=
  Alike.after hs fun _ => Obeys.bind (internal_emit _) fun _ => obeys_setFreereg _

theorem alike_callStmt (hs : S.Alike ds ds setup setup') :
    S.Alike ds ds (callStmt setup) (callStmt setup') :=
  Alike.after hs fun _ => Obeys.bind (internal_emit _) fun _ => obeys_setFreereg _

/-- Two forms that can produce several values do the same. -/
inductive MultiresAlike (S : Scoping) (ds : Declarations) : Multires → Multires → Prop
  | funcCall {setup setup' : CompileM (ℕ × ℕ)} (h : S.Alike ds ds setup setup') :
      MultiresAlike S ds (Multires.funcCall setup) (Multires.funcCall setup')
  | method {setup setup' : CompileM (ℕ × ℕ)} (h : S.Alike ds ds setup setup') :
      MultiresAlike S ds (Multires.method setup) (Multires.method setup')
  | varArg : MultiresAlike S ds Multires.varArg Multires.varArg
  | single : MultiresAlike S ds Multires.single Multires.single

variable {multi multi' : Multires}

theorem alike_trailingMultires (hm : S.MultiresAlike ds multi multi') (hr : S.Alike ds ds r r')
    (target : ℕ) :
    S.Alike ds ds (trailingMultires multi r target) (trailingMultires multi' r' target) := by
  cases hm with
  | funcCall h =>
      exact Alike.before (obeys_allocUpTo _) fun _ =>
        Alike.after (alike_callResults h _) fun _ => Obeys.pure _
  | method h =>
      exact Alike.before (obeys_allocUpTo _) fun _ =>
        Alike.after (alike_callResults h _) fun _ => Obeys.pure _
  | varArg =>
      exact Alike.internal (Obeys.bind (obeys_allocUpTo _) fun _ =>
        Obeys.bind (internal_emit _) fun _ => Obeys.pure _)
  | single =>
      exact Alike.after hr fun _ => Obeys.bind (obeys_moveInto _ _) fun _ => Obeys.pure _

theorem alike_callArgs {window window' : CompileM Bool} (n offset : ℕ)
    (hw : S.Alike ds ds window window') :
    S.Alike ds ds (callArgs n offset window) (callArgs n offset window') :=
  Alike.before (obeys_addU8 _ _) fun _ =>
    Alike.after hw fun _ => Obeys.ite (Obeys.pure _) (obeys_addU8 _ _)

theorem alike_expandMethodCall (hs : S.Alike ds ds setup setup') (base n : ℕ) :
    S.Alike ds ds (expandMethodCall setup base n) (expandMethodCall setup' base n) := by
  refine Alike.after (alike_callResults hs _) fun regs => Obeys.bind (obeys_unwrap _) fun _ => ?_
  refine Obeys.ite (Obeys.bind (Obeys.forM fun _ _ => ?_) fun _ => ?_) (Obeys.pure _)
  · exact Obeys.bind (obeys_addU8 _ _) fun _ =>
      Obeys.bind (obeys_addU8 _ _) fun _ => internal_emit _
  · exact Obeys.bind (obeys_addU8 _ _) fun _ => obeys_setFreereg _

theorem alike_declExpand (hm : S.MultiresAlike ds multi multi') (expected want : ℕ) :
    S.Alike ds ds (declExpand multi expected want) (declExpand multi' expected want) := by
  cases hm with
  | funcCall h =>
      refine Alike.after (alike_callResults h _) fun _ => Obeys.bind (obeys_unwrap _) fun _ => ?_
      exact Obeys.bind (obeys_ensure _) fun _ => Obeys.pure _
  | method h => exact Alike.after (alike_expandMethodCall h _ _) fun _ => Obeys.pure _
  | varArg =>
      refine Alike.internal (Obeys.bind (obeys_reserveRegs _) fun _ => ?_)
      refine Obeys.bind (obeys_ensure _) fun _ => Obeys.bind (obeys_addU8 _ _) fun _ => ?_
      exact Obeys.bind (internal_emit _) fun _ => Obeys.pure _
  | single => exact Alike.pure _

theorem alike_globalExpand (hm : S.MultiresAlike ds multi multi') (expected n : ℕ) :
    S.Alike ds ds (globalExpand multi expected n) (globalExpand multi' expected n) := by
  cases hm with
  | funcCall h =>
      exact Alike.before (obeys_expandCount _) fun _ =>
        Alike.after (alike_callResults h _) fun _ => Obeys.pure _
  | method h =>
      exact Alike.before (obeys_expandCount _) fun _ =>
        Alike.after (alike_expandMethodCall h _ _) fun _ => Obeys.pure _
  | varArg =>
      refine Alike.internal (Obeys.bind (obeys_expandCount _) fun _ => ?_)
      exact Obeys.bind (obeys_reserveRegs _) fun _ =>
        Obeys.bind (internal_emit _) fun _ => Obeys.pure _
  | single => exact Alike.pure _

theorem alike_forGenExpand (hm : S.MultiresAlike ds multi multi') (expected want : ℕ) :
    S.Alike ds ds (forGenExpand multi expected want) (forGenExpand multi' expected want) := by
  have hcall : ∀ regs : List ℕ, Internal (do
      let first ← unwrap regs[0]?
      ensure (first = expected)
      return true) := fun regs =>
    Obeys.bind (obeys_unwrap _) fun _ => Obeys.bind (obeys_ensure _) fun _ => Obeys.pure _
  cases hm with
  | funcCall h => exact Alike.after (alike_callResults h _) hcall
  | method h => exact Alike.after (alike_callResults h _) hcall
  | varArg =>
      refine Alike.internal (Obeys.bind (obeys_reserveRegs _) fun _ => ?_)
      exact Obeys.bind (obeys_ensure _) fun _ =>
        Obeys.bind (internal_emit _) fun _ => Obeys.pure _
  | single => exact Alike.pure _

/-! ### Expressions -/

theorem alike_prefixOpDesc (op : PrefixOperator) (hm : S.Alike ds ds m m') (dst : Option ℕ) :
    S.Alike ds ds (prefixOpDesc op m dst) (prefixOpDesc op m' dst) :=
  Alike.after hm fun inner => obeys_prefixOpDesc op (Obeys.pure inner) dst

theorem alike_comparisonDesc (op : BinaryOperator) (hr : S.Alike ds ds r r')
    (ht : S.Alike ds ds t t') :
    S.Alike ds ds (comparisonDesc op r t) (comparisonDesc op r' t') := by
  refine Alike.bind hr fun lhs => Alike.after ht fun rhs => ?_
  cases comparisonInstr op lhs rhs with
  | some instr =>
      refine Obeys.bind (internal_emit _) fun _ => Obeys.bind obeys_emitUnfilledJmp fun _ => ?_
      exact Obeys.bind (obeys_freeRegs _ _) fun _ => Obeys.pure _
  | none => exact obeys_err _

theorem alike_logicalAnd (hm : S.Alike ds ds m m') (hn : S.Alike ds ds n n') :
    S.Alike ds ds (logicalAnd m n) (logicalAnd m' n') := by
  refine Alike.bind hm fun _ => Alike.before (obeys_goiftrue _) fun _ => ?_
  exact Alike.before (obeys_patchToHere trivial _) fun _ => Alike.after hn fun _ => Obeys.pure _

theorem alike_logicalOr (hm : S.Alike ds ds m m') (hn : S.Alike ds ds n n') :
    S.Alike ds ds (logicalOr m n) (logicalOr m' n') := by
  refine Alike.bind hm fun _ => Alike.before (obeys_goiffalse _) fun _ => ?_
  exact Alike.before (obeys_patchToHere trivial _) fun _ => Alike.after hn fun _ => Obeys.pure _

theorem alike_propertyDesc (varargBase : Option ℕ) (field : Option Name) (hr : S.Alike ds ds r r')
    (ht : S.Alike ds ds t t') (dst : Option ℕ) :
    S.Alike ds ds (propertyDesc varargBase field r t dst)
      (propertyDesc varargBase field r' t' dst) := by
  cases varargBase with
  | some argsReg =>
      cases field with
      | some name =>
          refine Alike.internal (Obeys.bind (obeys_allocConstant _) fun _ => ?_)
          refine Obeys.bind obeys_reserveReg fun _ => Obeys.bind (internal_emit _) fun _ => ?_
          refine Obeys.bind (obeys_freeReg _) fun _ => ?_
          exact Obeys.bind (obeys_dstOrAlloc _) fun _ =>
            Obeys.bind (internal_emit _) fun _ => Obeys.pure _
      | none => exact Alike.throw _
  | none =>
      refine Alike.bind hr fun table => ?_
      cases field with
      | some name =>
          refine Alike.internal (Obeys.bind (internal_allocFieldKey _) fun _ => ?_)
          refine Obeys.bind (obeys_freeReg _) fun _ => ?_
          exact Obeys.bind (obeys_dstOrAlloc _) fun _ =>
            Obeys.bind (internal_emit _) fun _ => Obeys.pure _
      | none =>
          refine Alike.after ht fun key => Obeys.bind (obeys_freeRegs _ _) fun _ => ?_
          exact Obeys.bind (obeys_dstOrAlloc _) fun _ =>
            Obeys.bind (internal_emit _) fun _ => Obeys.pure _

theorem alike_indexReg (varargBase : Option ℕ) (hr : S.Alike ds ds r r') (ht : S.Alike ds ds t t')
    (dst : Option ℕ) :
    S.Alike ds ds (indexReg varargBase r t dst) (indexReg varargBase r' t' dst) := by
  cases varargBase with
  | some argsReg =>
      refine Alike.after ht fun key => Obeys.bind (obeys_freeReg _) fun _ => ?_
      exact Obeys.bind (obeys_dstOrAlloc _) fun _ =>
        Obeys.bind (internal_emit _) fun _ => Obeys.pure _
  | none =>
      refine Alike.bind hr fun table => Alike.after ht fun key => ?_
      refine Obeys.bind (obeys_freeRegs _ _) fun _ => ?_
      exact Obeys.bind (obeys_dstOrAlloc _) fun _ =>
        Obeys.bind (internal_emit _) fun _ => Obeys.pure _

theorem alike_arithDesc (op : BinaryOperator) (hm : S.Alike ds ds m m') (hn : S.Alike ds ds n n')
    (dst : Option ℕ) : S.Alike ds ds (arithDesc op m n dst) (arithDesc op m' n' dst) := by
  refine Alike.bind hm fun lhsDesc => Alike.ite ?_ ?_
  · exact Alike.before (obeys_dischargeToRegMut _ _) fun _ =>
      Alike.before (Obeys.pure _) fun lhsDesc => Alike.after hn fun rhsDesc =>
        obeys_arithOperands op _ lhsDesc rhsDesc dst
  · exact Alike.before (Obeys.pure _) fun lhsDesc => Alike.after hn fun rhsDesc =>
      obeys_arithOperands op _ lhsDesc rhsDesc dst

end

theorem alike_binaryOpDesc (op : BinaryOperator) (varargBase : Option ℕ) (field : Option Name)
    {lhs lhs' rhs rhs' : Option ℕ → CompileM ExprDesc}
    (hl : ∀ hint, S.Alike ds ds (lhs hint) (lhs' hint))
    (hr : ∀ hint, S.Alike ds ds (rhs hint) (rhs' hint)) (dst : Option ℕ) :
    S.Alike ds ds (binaryOpDesc op varargBase field lhs rhs dst)
      (binaryOpDesc op varargBase field lhs' rhs' dst) := by
  have hcmp := fun op =>
    alike_comparisonDesc op (alike_toReg (hl none) none) (alike_toReg (hr none) none)
  have harith := fun op => alike_arithDesc op (hl none) (hr none) dst
  cases op with
  | and => exact alike_logicalAnd (hl dst) (hr dst)
  | or => exact alike_logicalOr (hl dst) (hr dst)
  | property =>
      exact alike_propertyDesc _ _ (alike_toReg (hl none) none) (alike_toReg (hr none) none) dst
  | method => exact Alike.throw _
  | eq => exact hcmp BinaryOperator.eq
  | nEq => exact hcmp BinaryOperator.nEq
  | lt => exact hcmp BinaryOperator.lt
  | gt => exact hcmp BinaryOperator.gt
  | lEq => exact hcmp BinaryOperator.lEq
  | gEq => exact hcmp BinaryOperator.gEq
  | _ => exact harith _

/-! ### Table constructors -/

theorem alike_arrayItem (isLast : Bool) {multi multi' : Multires}
    {value value' : Option ℕ → CompileM ℕ}
    (hm : S.MultiresAlike ds multi multi')
    (hv : ∀ hint, S.Alike ds ds (value hint) (value' hint)) (table base count pending : ℕ) :
    S.Alike ds ds (arrayItem isLast multi value table base count pending)
      (arrayItem isLast multi' value' table base count pending) := by
  have hmulti : multi.isMulti = multi'.isMulti := by cases hm <;> rfl
  have hflush : Internal (do
      ensure (count + 1 < 2 ^ 16)
      if 50 ≤ pending + 1 then
        flushArray table base (count + 1) (pending + 1)
        return (count + 1, 0)
      else return (count + 1, pending + 1)) := by
    refine Obeys.bind (obeys_ensure _) fun _ => Obeys.ite ?_ (Obeys.pure _)
    exact Obeys.bind (obeys_flushArray _ _ _ _) fun _ => Obeys.pure _
  refine Alike.before (obeys_addU8 _ _) fun slot => ?_
  rw [hmulti]
  refine Alike.ite ?_ ?_
  · refine Alike.after (alike_trailingMultires hm (Alike.throw _) _) fun _ => ?_
    exact Obeys.bind (internal_emit _) fun _ =>
      Obeys.bind (obeys_setFreereg _) fun _ => Obeys.pure _
  · refine Alike.after (hv _) fun val => Obeys.ite ?_ hflush
    refine Obeys.bind (obeys_allocUpTo _) fun _ => Obeys.bind (internal_emit _) fun _ => ?_
    exact Obeys.bind (obeys_freeReg _) fun _ => hflush

theorem alike_mapItem (field : Name) {value value' : CompileM ℕ} (hv : S.Alike ds ds value value')
    (table base count pending : ℕ) :
    S.Alike ds ds (mapItem field value table base count pending)
      (mapItem field value' table base count pending) := by
  refine Alike.before (obeys_flushArray _ _ _ _) fun _ => ?_
  refine Alike.before (internal_allocFieldKey _) fun _ => Alike.after hv fun _ => ?_
  exact Obeys.bind (internal_emit _) fun _ => obeys_freeReg _

theorem alike_genericItem {key key' value value' : CompileM ℕ} (hk : S.Alike ds ds key key')
    (hv : S.Alike ds ds value value') (table base count pending : ℕ) :
    S.Alike ds ds (genericItem key value table base count pending)
      (genericItem key' value' table base count pending) := by
  refine Alike.before (obeys_flushArray _ _ _ _) fun _ => Alike.bind hk fun _ => ?_
  exact Alike.after hv fun _ => Obeys.bind (internal_emit _) fun _ => obeys_freeRegs _ _

theorem alike_tableDesc {entries entries' : ℕ → ℕ → CompileM Unit}
    (h : ∀ dst base, S.Alike ds ds (entries dst base) (entries' dst base)) :
    S.Alike ds ds (tableDesc entries) (tableDesc entries') := by
  refine Alike.before obeys_reserveReg fun _ => Alike.before (internal_emit _) fun _ => ?_
  exact Alike.before obeys_getChunk fun _ => Alike.after (h _ _) fun _ => Obeys.pure _

/-! ### Assignments and returns -/

theorem alike_indexedSubexpr {operand operand' : CompileM ℕ} (h : S.Alike ds ds operand operand')
    (targetLocalRegs : List ℕ) :
    S.Alike ds ds (indexedSubexpr operand targetLocalRegs)
      (indexedSubexpr operand' targetLocalRegs) := by
  refine Alike.after h fun reg => Obeys.ite ?_ (Obeys.pure _)
  exact Obeys.bind obeys_reserveReg fun _ =>
    Obeys.bind (internal_emit _) fun _ => Obeys.pure _

theorem alike_assignStmt (targets values : List Expr)
    {lvalues lvalues' : List ℕ → CompileM (List Lvalue)}
    {sources sources' : List (Option ℕ) → CompileM (List (Option ℕ))}
    (hl : ∀ regs, S.Alike ds ds (lvalues regs) (lvalues' regs))
    (hs : ∀ hints, S.Alike ds ds (sources hints) (sources' hints)) :
    S.Alike ds ds (assignStmt targets values lvalues sources)
      (assignStmt targets values lvalues' sources') := by
  refine Alike.before obeys_get fun c => Alike.bind (hl _) fun lvs => ?_
  refine Alike.before (obeys_assignHints _ _ _) fun hints => Alike.after (hs _) fun pending => ?_
  refine Obeys.bind (obeys_assignPad _) fun _ => ?_
  refine Obeys.bind (obeys_saveSources _ _ _) fun _ => ?_
  refine Obeys.bind (internal_emitStores _ _) fun _ => Obeys.bind obeys_getChunk fun _ => ?_
  exact Obeys.bind (obeys_ensure _) fun _ => obeys_setFreereg _

theorem alike_assignLhs {lvalue lvalue' : CompileM Lvalue} (h : S.Alike ds ds lvalue lvalue')
    (value : ℕ) : S.Alike ds ds (assignLhs lvalue value) (assignLhs lvalue' value) := by
  refine Alike.before obeys_getChunk fun _ => Alike.after h fun _ => ?_
  exact Obeys.bind (internal_emitStore _ _) fun _ => obeys_setFreereg _

theorem alike_returnSingle {m m' : CompileM ExprDesc} (h : S.Alike ds ds m m') :
    S.Alike ds ds (returnSingle m) (returnSingle m') :=
  Alike.after h fun desc => obeys_returnSingle (Obeys.pure desc)

theorem alike_returnGeneric (n : ℕ) {window window' : ℕ → CompileM Bool}
    (h : ∀ first, S.Alike ds ds (window first) (window' first)) :
    S.Alike ds ds (returnGeneric n window) (returnGeneric n window') := by
  refine Alike.before obeys_reserveReg fun _ => Alike.after (h _) fun multi => Obeys.ite ?_ ?_
  · exact Obeys.bind (Obeys.pure _) fun _ => internal_emit _
  · exact Obeys.bind (obeys_addU8 _ _) fun _ => internal_emit _

theorem internal_returnVararg : Internal returnVararg :=
  Obeys.bind obeys_reserveReg fun _ =>
    Obeys.bind (internal_emit _) fun _ => internal_emit _

theorem alike_returnOne {multi multi' : Multires} {m m' : CompileM ExprDesc}
    (hm : S.MultiresAlike ds multi multi') (h : S.Alike ds ds m m') :
    S.Alike ds ds (returnOne multi m) (returnOne multi' m') := by
  cases hm with
  | funcCall hs => exact alike_tailCall hs
  | method hs => exact alike_tailCall hs
  | varArg => exact Alike.internal internal_returnVararg
  | single => exact alike_returnSingle h

theorem alike_stmtExpr {multi multi' : Multires} {r r' : CompileM ℕ}
    (hm : S.MultiresAlike ds multi multi') (h : S.Alike ds ds r r') :
    S.Alike ds ds (stmtExpr multi r) (stmtExpr multi' r') := by
  have hsingle := Alike.after h fun _ : ℕ =>
    Obeys.bind obeys_getChunk fun c => obeys_setFreereg c.nactvar
  cases hm with
  | funcCall hs => exact alike_callStmt hs
  | method hs => exact alike_callStmt hs
  | varArg => exact hsingle
  | single => exact hsingle

end Scoping

end Tcvm
