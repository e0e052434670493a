/-
Access sites of the forms.

What the compiler does around the parts of a form takes a slot where the form is an access site
itself, and none otherwise; the rest is what the parts take.

* `takes_readEnvField`, `owes_envFieldLvalue` — the uses of globals;
* `MultiTakes` — forms that can produce several values;
* `takes_propertyDesc`, `takes_binaryOpDesc`, `takes_mapItem`, … — the forms of expressions.
-/

import Tcvm.ManualScoping
import Tcvm.SlotSteps

namespace Tcvm

open CompileM StateExcept Discipline

variable {α β : Type} {v v' : Option Name} {s t : Sites} {pre : List (ℕ × ℕ)}

/-! ### Names -/

/-- Capturing a name touches no slot. -/
theorem slot_resolveOrCapture (name : Name) : slotSteps.Obeys (resolveOrCapture name) := by
  intro c r c' h
  rcases resolveOrCapture_eq_ok h with
    ⟨i, -, -, rfl⟩ | ⟨-, ⟨-, -, rfl⟩ | ⟨w, -, -, rfl⟩ | ⟨desc, -, -, rfl⟩⟩
  all_goals exact Ctx.SameSlots.of_same rfl rfl rfl rfl rfl

theorem slot_resolveEnvUpvalue : slotSteps.Obeys resolveEnvUpvalue := by
  refine Obeys.bind (slot_resolveOrCapture _) fun r => ?_
  rcases r with _ | w | idx
  · exact Obeys.throw _
  · exact Obeys.throw _
  · exact Obeys.pure _

/-- A global that is read is one access site. -/
theorem takes_readEnvField (name : Name) (dst : Option ℕ) :
    Takes v (Sites.many 1) v (readEnvField name dst) := by
  refine Owes.first (owes_allocFieldKey name) fun key => ?_
  refine Owes.before (obeys_dstOrAlloc _) fun dst => ?_
  refine Owes.before slot_resolveEnvUpvalue fun envIdx => ?_
  exact Owes.after (owes_settle rfl) fun _ => Obeys.pure _

theorem slot_readVariable (name : Name) (dst : Option ℕ) :
    slotSteps.Obeys (readVariable name dst) := by
  intro c a c' h
  unfold readVariable at h
  rw [bind_of_eq (resolveLocal_apply name c)] at h
  cases hl : resolveLocalIn c.scope name with
  | some d =>
      rw [hl] at h
      obtain ⟨reg, kind⟩ := d
      cases kind with
      | global => exact Obeys.throw _ c a c' h
      | _ => exact obeysAt_compileExprIdent dst hl (by simp) a c' h
  | none =>
      rw [hl] at h
      refine Obeys.bind (slot_resolveOrCapture _) (fun r => ?_) c a c' h
      rcases r with _ | w | idx
      · exact Obeys.throw _
      · exact Obeys.pure _
      · exact Obeys.bind (obeys_dstOrAlloc _) fun _ => Obeys.map (obeys_emit rfl rfl)

/-! ### Targets -/

/-- What a target owes until it is stored to. -/
def Lvalue.debt : Lvalue → List (ℕ × ℕ)
  | Lvalue.global _ key icIdx => [(icIdx, key)]
  | Lvalue.field _ keyIdx icIdx => [(icIdx, keyIdx)]
  | _ => []

/-- A global that is a target is one access site. -/
theorem owes_envFieldLvalue (name : Name) :
    Owes v (Sites.many 1) v [] (envFieldLvalue name) Lvalue.debt := by
  refine Owes.first (owes_allocFieldKey name) fun key => ?_
  exact Owes.before slot_resolveEnvUpvalue fun envIdx => Owes.pure rfl

/-- A variable that is a target is none, and owes nothing. -/
theorem owes_variableLvalue (name : Name) : Owes v 0 v [] (variableLvalue name) Lvalue.debt := by
  refine Owes.before (obeys_resolveLocal _) fun r => ?_
  cases r with
  | some d =>
      refine Owes.ite (Owes.throw _) (Owes.ite (Owes.throw _) ?_)
      exact Owes.pure rfl
  | none =>
      refine Owes.before (slot_resolveOrCapture _) fun r => ?_
      rcases r with _ | w | idx
      · exact Owes.throw _
      · exact Owes.throw _
      · exact Owes.pure rfl

/-! ### Operands and calls -/

section

variable {m n : CompileM ExprDesc} {r r' : CompileM ℕ} {setup : CompileM (ℕ × ℕ)}
  {args : ℕ → CompileM ℕ}

theorem takes_toReg (hm : Takes v s v' m) (dst : Option ℕ) : Takes v s v' (toReg m dst) :=
  Takes.after hm fun _ => Obeys.map (obeys_dischargeToRegMut _ _)

theorem takes_funcCallSetup (hr : Takes v s v r) (hargs : ∀ func, Takes v t v (args func)) :
    Takes v (s + t) v (funcCallSetup r args) := by
  have hrest : ∀ func : ℕ, Takes v t v (do
      let argsWire ← args func
      return (func, argsWire)) := fun func => Takes.after (hargs func) fun _ => Obeys.pure _
  refine Takes.bind hr fun func => Takes.before obeys_getChunk fun c => ?_
  refine Takes.before (obeys_addU8 _ _) fun next => Takes.ite ?_ (hrest _)
  exact Takes.before obeys_reserveReg fun _ => Takes.before (obeys_emit rfl rfl) fun _ => hrest _

theorem takes_methodCallSetup (hr : Takes v s v r) (method : Name)
    (hargs : ∀ func, Takes v t v (args func)) :
    Takes v (s + t) v (methodCallSetup r method args) := by
  refine Takes.bind hr fun object => Takes.before (obeys_allocConstant _) fun keyIdx => ?_
  refine Takes.before obeys_reserveReg fun func => Takes.before (obeys_emit rfl rfl) fun _ => ?_
  refine Takes.before (obeys_addU8 _ _) fun _ => Takes.before (obeys_allocUpTo _) fun _ => ?_
  exact Takes.after (hargs func) fun _ => Obeys.pure _

theorem takes_callResults (hs : Takes v s v setup) (want : Want) :
    Takes v s v (callResults setup want) := by
  refine Takes.after hs fun p => ?_
  cases want with
  | exact n =>
      refine Obeys.bind (obeys_addU8 _ _) fun _ => Obeys.bind (obeys_emit rfl rfl) fun _ => ?_
      exact Obeys.bind (obeys_addU8 _ _) fun _ => Obeys.map (obeys_setFreereg _)
  | multRet => exact Obeys.map (obeys_emit rfl rfl)

theorem takes_tailCall (hs : Takes v s v setup) : Takes v s v (tailCall setup) :=
  Takes.after hs fun _ => Obeys.bind (obeys_emit rfl rfl) fun _ => obeys_setFreereg _

theorem takes_callStmt (hs : Takes v s v setup) : Takes v s v (callStmt setup) :=
  Takes.after hs fun _ => Obeys.bind (obeys_emit rfl rfl) fun _ => obeys_setFreereg _

/-- The access sites of a form that can produce several values; those of the other forms are taken
where they are compiled. -/
inductive MultiTakes (v : Option Name) (s : Sites) : Multires → Prop
  | funcCall {setup : CompileM (ℕ × ℕ)} (h : Takes v s v setup) :
      MultiTakes v s (Multires.funcCall setup)
  | method {setup : CompileM (ℕ × ℕ)} (h : Takes v s v setup) :
      MultiTakes v s (Multires.method setup)
  | varArg (h : s = 0) : MultiTakes v s Multires.varArg
  | single : MultiTakes v s Multires.single

variable {multi : Multires}

theorem takes_trailingMultires (hm : MultiTakes v s multi) (hr : Takes v s v r) (target : ℕ) :
    Takes v s v (trailingMultires multi r target) := by
  cases hm with
  | funcCall h =>
      exact Takes.before (obeys_allocUpTo _) fun _ =>
        Takes.after (takes_callResults h _) fun _ => Obeys.pure _
  | method h =>
      exact Takes.before (obeys_allocUpTo _) fun _ =>
        Takes.after (takes_callResults h _) fun _ => Obeys.pure _
  | varArg h =>
      subst h
      exact Takes.of_obeys (Obeys.bind (obeys_allocUpTo _) fun _ => Obeys.map (obeys_emit rfl rfl))
  | single =>
      exact Takes.after hr fun _ => Obeys.map (obeys_moveInto _ _)

theorem takes_callArgs {window : CompileM Bool} (n offset : ℕ) (hw : Takes v s v window) :
    Takes v s v (callArgs n offset window) :=
  Takes.before (obeys_addU8 _ _) fun _ =>
    Takes.after hw fun _ => Obeys.ite (Obeys.pure _) (obeys_addU8 _ _)

theorem takes_expandMethodCall (hs : Takes v s v setup) (base n : ℕ) :
    Takes v s v (expandMethodCall setup base n) := by
  refine Takes.after (takes_callResults hs _) fun regs => Obeys.bind (obeys_unwrap _) fun _ => ?_
  refine Obeys.ite (Obeys.bind (Obeys.forM fun _ _ => ?_) fun _ => ?_) (Obeys.pure _)
  · exact Obeys.bind (obeys_addU8 _ _) fun _ =>
      Obeys.bind (obeys_addU8 _ _) fun _ => obeys_emit rfl rfl
  · exact Obeys.bind (obeys_addU8 _ _) fun _ => obeys_setFreereg _

/-- The step returns nothing but this. -/
def Yields (a : α) (m : CompileM α) : Prop := ∀ c b c', m c = Except.ok (b, c') → b = a

theorem Yields.pure (a : α) : Yields a (Pure.pure a : CompileM α) := by
  intro c b c' h
  exact (pure_eq_ok.1 h).1.symm

theorem Yields.bind {m : CompileM α} {f : α → CompileM β} {b : β} (h : ∀ a, Yields b (f a)) :
    Yields b (m >>= f) := by
  intro c b' c' hm
  obtain ⟨a, c₁, -, h₂⟩ := bind_eq_ok.1 hm
  exact h a c₁ b' c' h₂

/-- The last initializer is expanded, and says so, or it is not. -/
def Expands (v : Option Name) (s : Sites) (m : CompileM Bool) : Prop :=
  (Takes v s v m ∧ Yields true m) ∨ m = Pure.pure false

/-- What is left to do behind an expansion. -/
theorem Expands.bind {f : Bool → CompileM β} {m : CompileM Bool} (hm : Expands v s m)
    (hdone : slotSteps.Obeys (f true)) (hnext : Takes v s v (f false)) :
    Takes v s v (m >>= f) := by
  rcases hm with ⟨hm, htrue⟩ | rfl
  · have hboth := Owes.bind_run hm fun c a c' h => by
      rw [htrue c a c' h]
      exact Owes.of_obeys hdone
    rwa [add_zero] at hboth
  · rw [pure_bind]
    exact hnext

theorem expands_declExpand (hm : MultiTakes v s multi) (expected want : ℕ) :
    Expands v s (declExpand multi expected want) := by
  cases hm with
  | funcCall h =>
      refine Or.inl ⟨Takes.after (takes_callResults h _) fun _ => ?_, ?_⟩
      · exact Obeys.bind (obeys_unwrap _) fun _ => Obeys.map (obeys_ensure _)
      · exact Yields.bind fun _ => Yields.bind fun _ => Yields.bind fun _ => Yields.pure _
  | method h =>
      exact Or.inl ⟨Takes.after (takes_expandMethodCall h _ _) fun _ => Obeys.pure _,
        Yields.bind fun _ => Yields.pure _⟩
  | varArg h =>
      subst h
      refine Or.inl ⟨Takes.of_obeys (Obeys.bind (obeys_reserveRegs _) fun _ => ?_), ?_⟩
      · refine Obeys.bind (obeys_ensure _) fun _ => Obeys.bind (obeys_addU8 _ _) fun _ => ?_
        exact Obeys.map (obeys_emit rfl rfl)
      · exact Yields.bind fun _ => Yields.bind fun _ => Yields.bind fun _ => Yields.bind fun _ =>
          Yields.pure _
  | single => exact Or.inr rfl

theorem expands_globalExpand (hm : MultiTakes v s multi) (expected n : ℕ) :
    Expands v s (globalExpand multi expected n) := by
  cases hm with
  | funcCall h =>
      refine Or.inl ⟨Takes.before (obeys_expandCount _) fun _ => ?_, ?_⟩
      · exact Takes.after (takes_callResults h _) fun _ => Obeys.pure _
      · exact Yields.bind fun _ => Yields.bind fun _ => Yields.pure _
  | method h =>
      refine Or.inl ⟨Takes.before (obeys_expandCount _) fun _ => ?_, ?_⟩
      · exact Takes.after (takes_expandMethodCall h _ _) fun _ => Obeys.pure _
      · exact Yields.bind fun _ => Yields.bind fun _ => Yields.pure _
  | varArg h =>
      subst h
      refine Or.inl ⟨Takes.of_obeys (Obeys.bind (obeys_expandCount _) fun _ => ?_), ?_⟩
      · exact Obeys.bind (obeys_reserveRegs _) fun _ => Obeys.map (obeys_emit rfl rfl)
      · exact Yields.bind fun _ => Yields.bind fun _ => Yields.bind fun _ => Yields.pure _
  | single => exact Or.inr rfl

theorem expands_forGenExpand (hm : MultiTakes v s multi) (expected want : ℕ) :
    Expands v s (forGenExpand multi expected want) := by
  have hcall : ∀ regs : List ℕ, slotSteps.Obeys (do
      let first ← unwrap regs[0]?
      ensure (first = expected)
      return true) := fun regs =>
    Obeys.bind (obeys_unwrap _) fun _ => Obeys.map (obeys_ensure _)
  cases hm with
  | funcCall h =>
      exact Or.inl ⟨Takes.after (takes_callResults h _) hcall,
        Yields.bind fun _ => Yields.bind fun _ => Yields.bind fun _ => Yields.pure _⟩
  | method h =>
      exact Or.inl ⟨Takes.after (takes_callResults h _) hcall,
        Yields.bind fun _ => Yields.bind fun _ => Yields.bind fun _ => Yields.pure _⟩
  | varArg h =>
      subst h
      refine Or.inl ⟨Takes.of_obeys (Obeys.bind (obeys_reserveRegs _) fun _ => ?_), ?_⟩
      · exact Obeys.bind (obeys_ensure _) fun _ => Obeys.map (obeys_emit rfl rfl)
      · exact Yields.bind fun _ => Yields.bind fun _ => Yields.bind fun _ => Yields.pure _
  | single => exact Or.inr rfl

/-! ### Expressions -/

theorem takes_prefixOpDesc (op : PrefixOperator) (hm : Takes v s v m) (dst : Option ℕ) :
    Takes v s v (prefixOpDesc op m dst) :=
  Takes.after hm fun inner => obeys_prefixOpDesc op (Obeys.pure inner) dst

theorem takes_comparisonDesc (op : BinaryOperator) (hr : Takes v s v r) (hr' : Takes v t v r') :
    Takes v (s + t) v (comparisonDesc op r r') := by
  refine Takes.bind hr fun lhs => Takes.after hr' fun rhs => ?_
  cases hi : comparisonInstr op lhs rhs with
  | some instr =>
      refine obeys_control (isControl_comparisonInstr hi) fun _ => ?_
      exact Obeys.map (obeys_freeRegs _ _)
  | none => exact obeys_err _

theorem takes_logicalAnd (hm : Takes v s v m) (hn : Takes v t v n) :
    Takes v (s + t) v (logicalAnd m n) := by
  refine Takes.bind hm fun _ => Takes.before (obeys_goiftrue _) fun _ => ?_
  exact Takes.before (obeys_patchToHere trivial _) fun _ => Takes.after hn fun _ => Obeys.pure _

theorem takes_logicalOr (hm : Takes v s v m) (hn : Takes v t v n) :
    Takes v (s + t) v (logicalOr m n) := by
  refine Takes.bind hm fun _ => Takes.before (obeys_goiffalse _) fun _ => ?_
  exact Takes.before (obeys_patchToHere trivial _) fun _ => Takes.after hn fun _ => Obeys.pure _

/-- **A field with a constant name** is an access site, but not of the named vararg. -/
theorem takes_propertyDesc (varargBase : Option ℕ) (field : Option Name) (hr : Takes v s v r)
    (hr' : Takes v t v r') (dst : Option ℕ) :
    Takes v (binarySites BinaryOperator.property varargBase.isSome field s t) v
      (propertyDesc varargBase field r r' dst) := by
  cases varargBase with
  | some argsReg =>
      cases field with
      | some name =>
          refine Takes.of_obeys (Obeys.bind (obeys_allocConstant _) fun _ => ?_)
          refine Obeys.bind obeys_reserveReg fun _ => Obeys.bind (obeys_emit rfl rfl) fun _ => ?_
          refine Obeys.bind (obeys_freeReg _) fun _ => ?_
          exact Obeys.bind (obeys_dstOrAlloc _) fun _ => Obeys.map (obeys_emit rfl rfl)
      | none => exact Takes.throw _
  | none =>
      cases field with
      | some name =>
          refine Takes.bind hr fun table => Owes.first (owes_allocFieldKey name) fun key => ?_
          refine Owes.before (obeys_freeReg _) fun _ => Owes.before (obeys_dstOrAlloc _) fun _ => ?_
          exact Owes.after (owes_settle rfl) fun _ => Obeys.pure _
      | none =>
          refine Takes.bind hr fun table => Takes.after hr' fun key => ?_
          refine Obeys.bind (obeys_freeRegs _ _) fun _ => ?_
          exact Obeys.bind (obeys_dstOrAlloc _) fun _ => Obeys.map (obeys_emit rfl rfl)

theorem takes_indexReg (varargBase : Option ℕ) (hr : Takes v s v r) (hr' : Takes v t v r')
    (dst : Option ℕ) :
    Takes v (if varargBase.isSome then t else s + t) v (indexReg varargBase r r' dst) := by
  cases varargBase with
  | some argsReg =>
      refine Takes.after hr' fun key => Obeys.bind (obeys_freeReg _) fun _ => ?_
      exact Obeys.bind (obeys_dstOrAlloc _) fun _ => Obeys.map (obeys_emit rfl rfl)
  | none =>
      refine Takes.bind hr fun table => Takes.after hr' fun key => ?_
      refine Obeys.bind (obeys_freeRegs _ _) fun _ => ?_
      exact Obeys.bind (obeys_dstOrAlloc _) fun _ => Obeys.map (obeys_emit rfl rfl)

theorem takes_arithDesc (op : BinaryOperator) (hm : Takes v s v m) (hn : Takes v t v n)
    (dst : Option ℕ) : Takes v (s + t) v (arithDesc op m n dst) := by
  refine Takes.bind hm fun lhsDesc => Takes.ite ?_ ?_
  · exact Takes.before (obeys_dischargeToRegMut _ _) fun _ =>
      Takes.before (Obeys.pure _) fun lhsDesc => Takes.after hn fun rhsDesc =>
        obeys_arithOperands op _ lhsDesc rhsDesc dst
  · exact Takes.before (Obeys.pure _) fun lhsDesc => Takes.after hn fun rhsDesc =>
      obeys_arithOperands op _ lhsDesc rhsDesc dst

end

theorem takes_binaryOpDesc (op : BinaryOperator) (varargBase : Option ℕ) (field : Option Name)
    {lhs rhs : Option ℕ → CompileM ExprDesc} (hl : ∀ hint, Takes v s v (lhs hint))
    (hr : ∀ hint, Takes v t v (rhs hint)) (dst : Option ℕ) :
    Takes v (binarySites op varargBase.isSome field s t) v
      (binaryOpDesc op varargBase field lhs rhs dst) := by
  have hcmp := fun op =>
    takes_comparisonDesc op (takes_toReg (hl none) none) (takes_toReg (hr none) none)
  have harith := fun op => takes_arithDesc op (hl none) (hr none) dst
  cases op with
  | and => exact takes_logicalAnd (hl dst) (hr dst)
  | or => exact takes_logicalOr (hl dst) (hr dst)
  | property =>
      exact takes_propertyDesc _ _ (takes_toReg (hl none) none) (takes_toReg (hr none) none) dst
  | method => exact Takes.throw _
  | eq => exact hcmp BinaryOperator.eq
  | nEq => exact hcmp BinaryOperator.nEq
  | lt => exact hcmp BinaryOperator.lt
  | gt => exact hcmp BinaryOperator.gt
  | lEq => exact hcmp BinaryOperator.lEq
  | gEq => exact hcmp BinaryOperator.gEq
  | _ => exact harith _

/-! ### Table constructors -/

theorem takes_arrayItem (isLast : Bool) {multi : Multires} {value : Option ℕ → CompileM ℕ}
    (hm : MultiTakes v s multi) (hv : ∀ hint, Takes v s v (value hint))
    (table base count pending : ℕ) :
    Takes v s v (arrayItem isLast multi value table base count pending) := by
  have hflush : slotSteps.Obeys (do
      ensure (count + 1 < 2 ^ 16)
      if 50 ≤ pending + 1 then
        flushArray table base (count + 1) (pending + 1)
        return (count + 1, 0)
      else return (count + 1, pending + 1)) := by
    refine Obeys.bind (obeys_ensure _) fun _ => Obeys.ite ?_ (Obeys.pure _)
    exact Obeys.map (obeys_flushArray _ _ _ _)
  refine Takes.before (obeys_addU8 _ _) fun slot => Takes.ite ?_ ?_
  · refine Takes.after (takes_trailingMultires hm (Takes.throw _) _) fun _ => ?_
    exact Obeys.bind (obeys_emit rfl rfl) fun _ => Obeys.map (obeys_setFreereg _)
  · refine Takes.after (hv _) fun val => Obeys.ite ?_ hflush
    refine Obeys.bind (obeys_allocUpTo _) fun _ => Obeys.bind (obeys_emit rfl rfl) fun _ => ?_
    exact Obeys.bind (obeys_freeReg _) fun _ => hflush

/-- **A field of a constructor** is an access site, in front of its value. -/
theorem takes_mapItem (field : Name) {value : CompileM ℕ} (hv : Takes v s v value)
    (table base count pending : ℕ) :
    Takes v (Sites.many 1 + s) v (mapItem field value table base count pending) := by
  refine Owes.before (obeys_flushArray _ _ _ _) fun _ => ?_
  refine Owes.bind (owes_allocFieldKey field) fun key => ?_
  refine Owes.first (hv.owing _) fun val => ?_
  exact Owes.after (owes_settle rfl) fun _ => obeys_freeReg _

theorem takes_genericItem {key value : CompileM ℕ} (hk : Takes v s v key) (hv : Takes v t v value)
    (table base count pending : ℕ) :
    Takes v (s + t) v (genericItem key value table base count pending) := by
  refine Takes.before (obeys_flushArray _ _ _ _) fun _ => Takes.bind hk fun _ => ?_
  exact Takes.after hv fun _ => Obeys.bind (obeys_emit rfl rfl) fun _ => obeys_freeRegs _ _

theorem takes_tableDesc {entries : ℕ → ℕ → CompileM Unit}
    (h : ∀ dst base, Takes v s v (entries dst base)) : Takes v s v (tableDesc entries) := by
  refine Takes.before obeys_reserveReg fun _ => Takes.before (obeys_emit rfl rfl) fun _ => ?_
  exact Takes.before obeys_getChunk fun _ => Takes.after (h _ _) fun _ => Obeys.pure _

end Tcvm
