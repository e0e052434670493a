/-
Conditions as values.

Expressions built from locals with `not`, `and`, `or`, parentheses and the comparisons, what they
evaluate to, and what the compiled code computes.

A trailing jump may be dropped although a jump has been patched to the position behind it: constant
locals need no code, so that position can be the end of the code when the next operand begins.  The
code then jumps into the next operand.

## Main definitions

* `Condition` — the expressions, with their values `Condition.eval`;
* `Readable` — a name resolves to a local;
* `Condition.Registers` — no local is a folded constant.

## Main results

* `compileExpr_condition`: **the code of a condition computes its value**, as long as no patched
  position is cut off;
* `intact_registers`: a condition over register locals never has code cut off;
* `toReg_condition`: **the value of a condition ends up in the result register**.
-/

import Tcvm.ConditionRules

namespace Tcvm

open CompileM StateExcept Discipline
open Relation (ReflTransGen)

/-! ### Conditions -/

/-- The comparison operators. -/
inductive Comparison
  | eq | nEq | lt | gt | lEq | gEq
  deriving DecidableEq

def Comparison.toOp : Comparison → BinaryOperator
  | eq => BinaryOperator.eq
  | nEq => BinaryOperator.nEq
  | lt => BinaryOperator.lt
  | gt => BinaryOperator.gt
  | lEq => BinaryOperator.lEq
  | gEq => BinaryOperator.gEq

/-- Expressions built from reads of locals. -/
inductive Condition
  | read (name : Name)
  | not (operand : Condition)
  | and (lhs rhs : Condition)
  | or (lhs rhs : Condition)
  | compare (op : Comparison) (lhs rhs : Name)
  | paren (inner : Condition)

/-- The value of a folded constant. -/
def ConstVal.value : ConstVal → Value
  | numeral (Numeral.int i) => Value.integer i
  | numeral (Numeral.float bits) => Value.float bits
  | bool b => Value.boolean b
  | nil => Value.nil

/-- What a local reads as: a folded constant, or the contents of its register. -/
def readLocal (scope : List Scope) (name : Name) (R : Regs) : Value :=
  match resolveLocalIn scope name with
  | some { kind := VarKind.const (some v), .. } => v.value
  | some data => R data.register
  | none => Value.nil

/-- The name resolves to a local variable, in a register of an active local unless it folds. -/
def Readable (scope : List Scope) (nactvar : ℕ) (name : Name) : Prop :=
  ∃ data, resolveLocalIn scope name = some data ∧ data.kind ≠ VarKind.global ∧
    ((∃ v, data.kind = VarKind.const (some v)) ∨ data.register < nactvar)

namespace Condition

def toExpr : Condition → Expr
  | read name => Expr.ident name
  | not operand => Expr.prefixOp PrefixOperator.not operand.toExpr
  | and lhs rhs => Expr.binaryOp BinaryOperator.and lhs.toExpr rhs.toExpr
  | or lhs rhs => Expr.binaryOp BinaryOperator.or lhs.toExpr rhs.toExpr
  | compare op lhs rhs => Expr.binaryOp op.toOp (Expr.ident lhs) (Expr.ident rhs)
  | paren inner => Expr.paren inner.toExpr

/-- The number of operators and operands. -/
def size : Condition → ℕ
  | read _ => 1
  | not operand => operand.size + 1
  | and lhs rhs => lhs.size + rhs.size + 1
  | or lhs rhs => lhs.size + rhs.size + 1
  | compare _ _ _ => 1
  | paren inner => inner.size

/-- The value of a condition: `and` and `or` yield an operand, `not` and the comparisons a
boolean. -/
def eval (scope : List Scope) (env : CodeEnv) (R : Regs) : Condition → Value
  | read name => readLocal scope name R
  | not operand => Value.boolean (operand.eval scope env R).isFalsy
  | and lhs rhs =>
      if (lhs.eval scope env R).truthy then rhs.eval scope env R else lhs.eval scope env R
  | or lhs rhs =>
      if (lhs.eval scope env R).truthy then lhs.eval scope env R else rhs.eval scope env R
  | compare op lhs rhs =>
      Value.boolean (comparisonHolds env op.toOp (readLocal scope lhs R) (readLocal scope rhs R))
  | paren inner => inner.eval scope env R

/-- Every name of the condition meets the predicate. -/
def All (P : Name → Prop) : Condition → Prop
  | read name => P name
  | not operand => operand.All P
  | and lhs rhs => lhs.All P ∧ rhs.All P
  | or lhs rhs => lhs.All P ∧ rhs.All P
  | compare _ lhs rhs => P lhs ∧ P rhs
  | paren inner => inner.All P

/-- Every name of the condition resolves to a local. -/
def InScope (scope : List Scope) (nactvar : ℕ) (t : Condition) : Prop :=
  t.All (Readable scope nactvar)

/-- No local of the condition is a folded constant. -/
def Registers (scope : List Scope) (t : Condition) : Prop :=
  t.All fun name => ∀ r v, resolveLocalIn scope name ≠ some ⟨r, VarKind.const (some v)⟩

/-- `and` and `or`, by the truthiness that leads to the second operand. -/
def logical : Bool → Condition → Condition → Condition
  | true => and
  | false => or

end Condition

variable {scope : List Scope} {nactvar n n' : ℕ} {c₀ c c' c'' : Ctx}
  {d d' d₁ d₂ : ExprDesc} {b : Bool}
  {val₁ val₂ : CodeEnv → Regs → Value}

theorem readLocal_congr {name : Name} (h : Readable scope nactvar name) {R R' : Regs}
    (hR : ∀ r < nactvar, R' r = R r) : readLocal scope name R' = readLocal scope name R := by
  obtain ⟨⟨reg, kind⟩, hres, -, hloc⟩ := h
  unfold readLocal
  rw [hres]
  rcases hloc with ⟨v, hv⟩ | hlt
  · obtain rfl : kind = VarKind.const (some v) := hv
    rfl
  · have hr : R' reg = R reg := hR reg hlt
    cases kind with
    | const v => cases v <;> first | exact hr | rfl
    | _ => exact hr

/-- A condition depends on the registers of active locals only. -/
theorem Condition.eval_congr {t : Condition} (h : t.InScope scope nactvar) {env : CodeEnv}
    {R R' : Regs} (hR : ∀ r < nactvar, R' r = R r) :
    t.eval scope env R' = t.eval scope env R := by
  induction t with
  | read name => exact readLocal_congr h hR
  | not operand ih => simp only [eval, ih h]
  | and lhs rhs ihl ihr => simp only [eval, ihl h.1, ihr h.2]
  | or lhs rhs ihl ihr => simp only [eval, ihl h.1, ihr h.2]
  | compare op lhs rhs =>
      simp only [eval, readLocal_congr h.1 hR, readLocal_congr h.2 hR]
  | paren inner ih => exact ih h

/-! ### Reading a local -/

theorem constKindToValue_toExprDesc (v : ConstVal) :
    constKindToValue v.toExprDesc.kind = some v.value := by
  cases v with
  | numeral m => cases m <;> rfl
  | _ => rfl

theorem readLocal_reg {name : Name} {data : VariableData}
    (hres : resolveLocalIn scope name = some data) (hk : ∀ v, data.kind ≠ VarKind.const (some v)) :
    readLocal scope name = fun R => R data.register := by
  obtain ⟨reg, kind⟩ := data
  funext R
  unfold readLocal
  rw [hres]
  cases kind with
  | const v =>
      cases v with
      | some v => exact absurd rfl (hk v)
      | none => rfl
  | _ => rfl

/-- A local is in its register, or a constant. -/
theorem compileExprIdent_local {name : Name} (hname : Readable c.scope c.chunk.nactvar name)
    (h : compileExprIdent name none c = Except.ok (d, c')) :
    (∃ r < c.chunk.nactvar, d = ExprDesc.fromReg r ∧ Quiet c c' ∧
      readLocal c.scope name = fun R => R r) ∨
    ∃ v : ConstVal, (∃ r, resolveLocalIn c.scope name = some ⟨r, VarKind.const (some v)⟩) ∧
      d = v.toExprDesc ∧ c = c' ∧ readLocal c.scope name = fun _ => v.value := by
  obtain ⟨⟨reg, kind⟩, hres, hglobal, hloc⟩ := hname
  have hresolve : resolveLocal name c = Except.ok (some ⟨reg, kind⟩, c) := by
    rw [← hres]
    rfl
  unfold compileExprIdent at h
  rw [bind_of_eq hresolve] at h
  -- a local that does not fold
  have hreg : (∀ v, kind ≠ VarKind.const (some v)) → d = ExprDesc.fromReg reg → Quiet c c' →
      ∃ r < c.chunk.nactvar, d = ExprDesc.fromReg r ∧ Quiet c c' ∧
        readLocal c.scope name = fun R => R r := by
    intro hk hd hq
    refine ⟨reg, ?_, hd, hq, readLocal_reg hres hk⟩
    exact hloc.resolve_left fun ⟨v, hv⟩ => hk v hv
  cases kind with
  | const v =>
      cases v with
      | some v =>
          obtain ⟨rfl, rfl⟩ := pure_eq_ok.1 h
          refine Or.inr ⟨v, ⟨reg, hres⟩, rfl, rfl, funext fun R => ?_⟩
          unfold readLocal
          rw [hres]
      | none =>
          obtain ⟨rfl, rfl⟩ := pure_eq_ok.1 h
          exact Or.inl (hreg (fun v => by simp) rfl (Quiet.refl c))
  | varargParam =>
      obtain ⟨u, c₁, h₁, h⟩ := bind_eq_ok.1 h
      obtain rfl := modifyChunk_eq_ok.1 h₁
      obtain ⟨rfl, rfl⟩ := pure_eq_ok.1 h
      refine Or.inl (hreg (fun v => by simp) rfl ?_)
      exact ⟨⟨rfl, rfl, List.prefix_refl _, id, List.prefix_refl _, Nat.le_refl _⟩, rfl, rfl⟩
  | global => exact absurd rfl hglobal
  | reg =>
      obtain ⟨rfl, rfl⟩ := pure_eq_ok.1 h
      exact Or.inl (hreg (fun v => by simp) rfl (Quiet.refl c))
  | toClose =>
      obtain ⟨rfl, rfl⟩ := pure_eq_ok.1 h
      exact Or.inl (hreg (fun v => by simp) rfl (Quiet.refl c))

/-- Code that has not begun. -/
theorem Code.begin (c : Ctx) {val : CodeEnv → Regs → Value} {P : Value → Regs → Prop}
    (hP : ∀ env R, P (val env R) R) : Code c 0 c [] val fun T => Leaves T d P where
  toKeeps := Keeps.refl c
  tape := List.prefix_refl _
  frag := by
    rw [Ctx.since_self]
    exact ⟨Shape.nil _, fun env _ R =>
      ⟨_, ReflTransGen.refl, fun _ _ => rfl, Or.inl ⟨rfl, hP env R⟩⟩⟩

theorem compileExprIdent_code {name : Name} (hname : Readable c.scope c.chunk.nactvar name)
    (h : compileExprIdent name none c = Except.ok (d, c')) :
    Code c 0 c' d.pending (fun _ R => readLocal c.scope name R) (fun T => Evaluates T d) ∧
      Fit c c' d := by
  rcases compileExprIdent_local hname h with ⟨r, hr, rfl, hq, hread⟩ | ⟨v, -, rfl, rfl, hread⟩
  · have hk : (ExprDesc.fromReg r).kind = ExprKind.reg r := rfl
    have hbegin : Code c 0 c (ExprDesc.fromReg r).pending (fun _ R => readLocal c.scope name R)
        fun T => Leaves T (ExprDesc.fromReg r) fun v R => R r = v :=
      Code.begin c fun _ R => by rw [hread]
    simp only [evaluates_reg hk]
    exact ⟨hbegin.quiet hq, fit_fromReg fun hle => by omega⟩
  · have hv := constKindToValue_toExprDesc v
    have hp : v.toExprDesc.pending = [] := by
      rw [pending_of_const hv]
      cases v <;> rfl
    rw [hp]
    simp only [evaluates_const hv]
    exact ⟨Code.begin c fun _ R => by rw [hread], fit_of_const hv⟩

/-- The operand of a comparison. -/
theorem toReg_ident {name : Name} {r : ℕ} (hname : Readable c.scope c.chunk.nactvar name)
    (hroom : c.chunk.constants.length < 2 ^ 16)
    (h : toReg (compileExprIdent name none) none c = Except.ok (r, c')) :
    Operand c (readLocal c.scope name) r c' := by
  unfold toReg at h
  obtain ⟨d, c₁, h₁, h⟩ := bind_eq_ok.1 h
  obtain ⟨⟨d', r'⟩, c₂, h₂, h⟩ := bind_eq_ok.1 h
  obtain ⟨rfl, rfl⟩ := pure_eq_ok.1 h
  rcases compileExprIdent_local hname h₁ with ⟨r, hr, rfl, hq, hread⟩ | ⟨v, -, rfl, rfl, hread⟩
  · obtain ⟨hpair, rfl⟩ := pure_eq_ok.1 h₂
    obtain ⟨-, rfl⟩ := Prod.mk.inj hpair
    rw [hread]
    exact Operand.local hr hq.appends
  · have hv := constKindToValue_toExprDesc v
    unfold dischargeToRegMut at h₂
    obtain ⟨e, c₃, h₃, h₂⟩ := bind_eq_ok.1 h₂
    unfold materializeConst at h₃
    rw [hv] at h₃
    obtain ⟨idx, c₄, h₄, h₃⟩ := bind_eq_ok.1 h₃
    obtain ⟨hq₄, hidx, hfree⟩ := allocConstant_spec h₄ hroom
    obtain ⟨dst, c₅, h₅, h₃⟩ := bind_eq_ok.1 h₃
    obtain ⟨hq₅, hle, -, hdst, hnext⟩ := reserveReg_spec h₅
    obtain ⟨u, c₆, h₆, h₃⟩ := bind_eq_ok.1 h₃
    obtain ⟨rfl, rfl⟩ := pure_eq_ok.1 h₃
    have hkind : dischargeSettled ({ v.toExprDesc with kind := ExprKind.reg dst }) none =
        pure ({ v.toExprDesc with kind := ExprKind.reg dst }, dst) := by
      cases v <;> rfl
    rw [hkind] at h₂
    obtain ⟨hpair, rfl⟩ := pure_eq_ok.1 h₂
    obtain ⟨-, rfl⟩ := Prod.mk.inj hpair
    have ha := (hq₄.trans hq₅).appends.trans (appends_emit h₆)
    rw [hfree] at hdst
    subst hdst
    rw [hread]
    refine Operand.const ?_ ha ?_ ?_
    · rw [← hq₄.nactvar]
      exact hle
    · obtain ⟨w, hw⟩ := hq₅.constants.trans (appends_emit h₆).constants
      rw [← hw, List.getElem?_append_left (List.getElem?_eq_some_iff.1 hidx).1, hidx]
    · rw [← emit_eq_ok.1 h₆]
      exact hnext

/-! ### Joining operands -/

/-- The code of a second operand behind a branch on the first one. -/
theorem Code.join (h₁ : Code c₀ n c (d₁.exits (!b)) val₁ fun T => Branch T d₁ b)
    (hnil : d₁.exits b = []) (h₂ : Code c n' c' d₂.pending val₂ fun T => Evaluates T d₂)
    (hfit : Fit c c' d₂)
    (hval : ∀ env R R', (∀ r < c₀.chunk.nactvar, R' r = R r) → val₂ env R' = val₂ env R)
    (hd : d = d₂.setExits (!b) (d₂.exits (!b) ++ d₁.exits (!b))) :
    Code c₀ (n + n') c' d.pending
        (fun env R => if (val₁ env R).truthy = b then val₂ env R else val₁ env R)
        (fun T => Evaluates T d) ∧ Fit c₀ c' d := by
  subst hd
  have hnact := h₁.nactvar
  have hsince : c'.since c₀ = c.since c₀ ++ c'.since c := Ctx.since_trans h₁.events h₂.events
  have hfrag₂ := h₂.frag
  rw [hnact] at hfrag₂
  refine ⟨⟨h₁.toKeeps.trans h₂.toKeeps, h₁.tape.trans h₂.tape, ?_⟩, ⟨?_, ?_⟩, ?_⟩
  · rw [hsince]
    exact h₁.frag.join hnil hfrag₂ h₂.tape h₂.constants hval
  · rw [d₂.kind_setExits]
    exact hfit.head.1
  · intro idx hk
    rw [d₂.kind_setExits] at hk
    obtain ⟨hidx, hpatch, hctrl⟩ := hfit.head.2 idx hk
    refine ⟨hidx, fun k t hm => ?_, hctrl⟩
    rw [hsince] at hm
    rcases List.mem_append.1 hm with hm | hm
    · -- what was patched before lies in front of the second operand
      have hbound := h₁.frag.shape.bounded k t hm
      have hmem : idx ∈ d₂.pending := by
        rw [pending_of_jump hk]
        exact List.mem_cons_self
      have hlo := (h₂.frag.shape.hole idx hmem).lt
      omega
    · exact hpatch k t hm
  · intro r hk hle
    rw [d₂.kind_setExits] at hk
    exact hfit.placed r hk (by rw [hnact]; exact hle)

/-! ### Negation -/

/-- `not` folds a constant, or negates the code of its operand. -/
theorem prefixNot_eq_ok {operand : CompileM ExprDesc}
    (h : prefixOpDesc PrefixOperator.not operand none c = Except.ok (d, c')) :
    ∃ d₁ c₁, operand c = Except.ok (d₁, c₁) ∧
      ((d₁.hasJumps = false ∧ prefixFold c₁.num PrefixOperator.not d₁.kind = some d ∧ c₁ = c') ∨
        compileNot d₁ none c₁ = Except.ok (d, c')) := by
  unfold prefixOpDesc at h
  obtain ⟨d₁, c₁, h₁, h⟩ := bind_eq_ok.1 h
  obtain ⟨x, c₂, h₂, h⟩ := bind_eq_ok.1 h
  obtain ⟨rfl, rfl⟩ := get_eq_ok.1 h₂
  refine ⟨d₁, c₁, h₁, ?_⟩
  cases hj : d₁.hasJumps with
  | true =>
      simp only [hj, if_true] at h
      exact Or.inr h
  | false =>
      simp only [hj, Bool.false_eq_true, if_false] at h
      cases hf : prefixFold c₁.num PrefixOperator.not d₁.kind with
      | none =>
          simp only [hf] at h
          exact Or.inr h
      | some e =>
          simp only [hf] at h
          obtain ⟨rfl, rfl⟩ := pure_eq_ok.1 h
          exact Or.inl ⟨rfl, rfl, rfl⟩

theorem exists_const_of_prefixFold {kind : ExprKind}
    (hf : prefixFold c.num PrefixOperator.not kind = some d) :
    ∃ w, constKindToValue kind = some w := by
  cases kind with
  | numeral m => cases m <;> exact ⟨_, rfl⟩
  | bool m => exact ⟨_, rfl⟩
  | nil => exact ⟨_, rfl⟩
  | reg r => cases hf
  | jump p => cases hf

/-- A constant without jumps folds. -/
theorem negateFold_spec (hc : Code c₀ n c d₁.pending val₁ fun T => Evaluates T d₁)
    (hj : d₁.hasJumps = false) (hf : prefixFold c.num PrefixOperator.not d₁.kind = some d) :
    Code c₀ n c d.pending (fun env R => (val₁ env R).negate) (fun T => Evaluates T d) ∧
      Fit c₀ c d := by
  obtain ⟨w, hw⟩ := exists_const_of_prefixFold hf
  obtain ⟨b, hb, hfold, -⟩ := exists_negate_const (c := c) hw
  obtain rfl := Option.some.inj (hfold.symm.trans hf)
  have hw' : constKindToValue (ExprDesc.fromBool b).kind = some (Value.boolean b) := rfl
  have hempty : d₁.trueList = [] ∧ d₁.falseList = [] := by
    simp only [ExprDesc.hasJumps, Bool.or_eq_false_iff, Bool.not_eq_false',
      List.isEmpty_iff] at hj
    exact hj.1
  have hjumps : d₁.jumps = [] := by
    rw [ExprDesc.jumps, hempty.1, hempty.2, List.append_nil]
  rw [pending_of_const hw, hjumps] at hc
  simp only [evaluates_const hw] at hc
  rw [pending_of_const hw']
  simp only [evaluates_const hw']
  refine ⟨⟨hc.toKeeps, hc.tape, ?_⟩, fit_of_const hw'⟩
  refine hc.frag.extend (List.prefix_refl _) hc.frag.shape (Refines.refl _ _)
    fun env R s _ _ hq => ⟨s, ReflTransGen.refl, fun _ _ => rfl, ?_⟩
  rcases hq with ⟨hpc, hv⟩ | ⟨b', hq⟩
  · exact Or.inl ⟨hpc, by rw [← hb, hv]⟩
  · exact absurd hq.mem_jumps (by rw [hjumps]; exact List.not_mem_nil)

/-! ### The induction -/

/-- The steps of `and` and `or`. -/
theorem logical_eq_ok {lhs rhs : Condition}
    (h : compileExpr (Condition.logical b lhs rhs).toExpr none c = Except.ok (d, c')) :
    ∃ d₁ c₁ d₂ c₂ u c₃ d₄, compileExpr lhs.toExpr none c = Except.ok (d₁, c₁) ∧
      goif b d₁ c₁ = Except.ok (d₂, c₂) ∧ patchToHere (d₂.exits b) c₂ = Except.ok (u, c₃) ∧
        compileExpr rhs.toExpr none c₃ = Except.ok (d₄, c') ∧
          d = d₄.setExits (!b) (d₄.exits (!b) ++ d₂.exits (!b)) := by
  cases b
  all_goals
    rw [Condition.logical, Condition.toExpr, compileExpr] at h
    obtain ⟨x, c₀, h₀, h⟩ := bind_eq_ok.1 h
    obtain ⟨rfl, rfl⟩ := get_eq_ok.1 h₀
    obtain ⟨d₁, c₁, h₁, h⟩ := bind_eq_ok.1 h
    obtain ⟨d₂, c₂, h₂, h⟩ := bind_eq_ok.1 h
    obtain ⟨u, c₃, h₃, h⟩ := bind_eq_ok.1 h
    obtain ⟨d₄, c₄, h₄, h⟩ := bind_eq_ok.1 h
    obtain ⟨rfl, rfl⟩ := pure_eq_ok.1 h
    exact ⟨d₁, c₁, d₂, c₂, u, c₃, d₄, h₁, h₂, h₃, h₄, rfl⟩

/-- The steps of a comparison. -/
theorem compare_eq_ok {op : Comparison} {lhs rhs : Name}
    (h : compileExpr (Condition.compare op lhs rhs).toExpr none c = Except.ok (d, c')) :
    ∃ l c₁ r c₂, toReg (compileExprIdent lhs none) none c = Except.ok (l, c₁) ∧
      toReg (compileExprIdent rhs none) none c₁ = Except.ok (r, c₂) ∧
        comparisonDesc op.toOp (toReg (compileExprIdent lhs none) none)
          (toReg (compileExprIdent rhs none) none) c = Except.ok (d, c') := by
  have hcmp : comparisonDesc op.toOp (toReg (compileExprIdent lhs none) none)
      (toReg (compileExprIdent rhs none) none) c = Except.ok (d, c') := by
    rw [Condition.toExpr, compileExpr] at h
    obtain ⟨x, c₀, h₀, h⟩ := bind_eq_ok.1 h
    obtain ⟨rfl, rfl⟩ := get_eq_ok.1 h₀
    simp only [compileExpr] at h
    cases op <;> exact h
  have hcmp' := hcmp
  unfold comparisonDesc at hcmp'
  obtain ⟨l, c₁, h₁, hcmp'⟩ := bind_eq_ok.1 hcmp'
  obtain ⟨r, c₂, h₂, -⟩ := bind_eq_ok.1 hcmp'
  exact ⟨l, c₁, r, c₂, h₁, h₂, hcmp⟩

theorem obeysAt_operand {D : Discipline} {name : Name} (hname : Readable c.scope n name) :
    D.ObeysAt c (toReg (compileExprIdent name none) none) := by
  obtain ⟨data, hl, hk, -⟩ := hname
  exact Discipline.obeysAt_toReg (Discipline.obeysAt_compileExprIdent none hl hk) none

theorem compare_related {D : Discipline} {op : Comparison} {lhs rhs : Name}
    (hl : Readable c.scope n lhs) (hr : Readable c.scope n rhs)
    (h : compileExpr (Condition.compare op lhs rhs).toExpr none c = Except.ok (d, c')) :
    D.R c c' ∧ ∃ idx, d.kind = ExprKind.jump idx := by
  obtain ⟨l, c₁, r, c₂, h₁, h₂, hcmp⟩ := compare_eq_ok h
  have hnames := (obeysAt_operand (D := internalSteps) hl _ _ h₁).1
  have hr' : Readable c₁.scope n rhs := by
    rw [hnames.scope]
    exact hr
  obtain ⟨hrel, hkind⟩ := Discipline.comparison_related (D := D) h₁ h₂ hcmp
  exact ⟨D.trans (obeysAt_operand hl _ _ h₁) (D.trans (obeysAt_operand hr' _ _ h₂) hrel), hkind⟩

theorem internal_goif (d : ExprDesc) : Internal (goif b d) := by
  cases b
  · exact obeys_goiffalse d
  · exact obeys_goiftrue d

/-- The code of a condition concerns the function only. -/
theorem internal_condition {t : Condition} (hscope : t.InScope c.scope n)
    (h : compileExpr t.toExpr none c = Except.ok (d, c')) : internalSteps.R c c' := by
  have hlogical : ∀ {b c d c'} {lhs rhs : Condition},
      (∀ {c d c'}, lhs.InScope c.scope n → compileExpr lhs.toExpr none c = Except.ok (d, c') →
        internalSteps.R c c') →
      (∀ {c d c'}, rhs.InScope c.scope n → compileExpr rhs.toExpr none c = Except.ok (d, c') →
        internalSteps.R c c') →
      lhs.InScope c.scope n → rhs.InScope c.scope n →
      compileExpr (Condition.logical b lhs rhs).toExpr none c = Except.ok (d, c') →
      internalSteps.R c c' := by
    intro b c d c' lhs rhs ihl ihr hl hr h
    obtain ⟨d₁, c₁, d₂, c₂, u, c₃, d₄, h₁, h₂, h₃, h₄, -⟩ := logical_eq_ok h
    have hbranch := internalSteps.trans (internalSteps.trans (ihl hl h₁) (internal_goif _ _ _ _ h₂))
      (obeys_patchToHere trivial _ _ _ _ h₃)
    refine internalSteps.trans hbranch (ihr ?_ h₄)
    rw [hbranch.1.scope]
    exact hr
  induction t generalizing c d c' with
  | read name =>
      obtain ⟨data, hl, hk, -⟩ := hscope
      rw [Condition.toExpr, compileExpr] at h
      exact Discipline.obeysAt_compileExprIdent none hl hk _ _ h
  | not operand ih =>
      rw [Condition.toExpr, compileExpr] at h
      obtain ⟨d₁, c₁, h₁, ⟨-, -, rfl⟩ | h⟩ := prefixNot_eq_ok h
      · exact ih hscope h₁
      · exact internalSteps.trans (ih hscope h₁) (obeys_compileNot _ _ _ _ _ h)
  | and lhs rhs ihl ihr => exact hlogical (b := true) ihl ihr hscope.1 hscope.2 h
  | or lhs rhs ihl ihr => exact hlogical (b := false) ihl ihr hscope.1 hscope.2 h
  | compare op lhs rhs => exact (compare_related hscope.1 hscope.2 h).1
  | paren inner ih =>
      rw [Condition.toExpr, compileExpr] at h
      exact ih hscope h

/-- The code computes the value of the condition, as long as no patched position is cut off. -/
def Condition.Compiles (t : Condition) : Prop :=
  ∀ {c c' : Ctx} {d : ExprDesc}, compileExpr t.toExpr none c = Except.ok (d, c') →
    t.InScope c.scope c.chunk.nactvar → c.chunk.constants.length < 2 ^ 16 →
    c.chunk.tape.length + 8 * t.size ≤ 2 ^ 31 → Intact (c'.since c) →
    Code c (8 * t.size) c' d.pending (fun env R => t.eval c.scope env R)
      (fun T => Evaluates T d) ∧ Fit c c' d

theorem Condition.eval_logical (b : Bool) (lhs rhs : Condition) (scope : List Scope) :
    (fun env R => if (lhs.eval scope env R).truthy = b then rhs.eval scope env R
      else lhs.eval scope env R) = fun env R => (logical b lhs rhs).eval scope env R := by
  funext env R
  cases b
  · simp only [logical, eval]
    cases (lhs.eval scope env R).truthy <;> rfl
  · rfl

theorem Condition.Compiles.logical {lhs rhs : Condition} (hl : lhs.Compiles) (hr : rhs.Compiles)
    (b : Bool) : (Condition.logical b lhs rhs).Compiles := by
  intro c c' d h hscope hroom hsmall hi
  have hsize : (Condition.logical b lhs rhs).size = lhs.size + rhs.size + 1 := by cases b <;> rfl
  obtain ⟨hscope₁, hscope₂⟩ :
      lhs.InScope c.scope c.chunk.nactvar ∧ rhs.InScope c.scope c.chunk.nactvar := by
    cases b <;> exact hscope
  rw [hsize] at hsmall ⊢
  obtain ⟨d₁, c₁, d₂, c₂, u, c₃, d₄, h₁, h₂, h₃, h₄, rfl⟩ := logical_eq_ok h
  have hs₁ := internal_condition hscope₁ h₁
  have hg₂ : c₁.events <+: c₂.events := (internal_goif _).logged h₂
  have hg₃ : c₂.events <+: c₃.events := (obeys_patchToHere (D := internalSteps) trivial _).logged h₃
  have hs₃ : c₃.scope = c.scope := by
    rw [((obeys_patchToHere (D := internalSteps) trivial _).names h₃).scope,
      ((internal_goif _).names h₂).scope, hs₁.1.scope]
  have heval : rhs.InScope c₃.scope c.chunk.nactvar := by
    rw [hs₃]
    exact hscope₂
  have hg₄ : c₃.events <+: c'.events := (internal_condition heval h₄).2
  rw [Ctx.since_trans ((hs₁.2.trans hg₂).trans hg₃) hg₄] at hi
  have hi₁ : Intact (c₁.since c) := by
    have := hi.left
    rw [Ctx.since_trans (hs₁.2.trans hg₂) hg₃, Ctx.since_trans hs₁.2 hg₂] at this
    exact this.left.left
  obtain ⟨hc₁, hfit₁⟩ := hl h₁ hscope₁ hroom (by omega) hi₁
  obtain ⟨hc₂, -⟩ := goif_spec hc₁ hfit₁ hroom (by omega) h₂
  have hlen₂ := hc₂.length
  have hhere := patchToHere_spec hc₂ (by omega) h₃ hi.left
  have hother : (d₂.setExits b []).exits (!b) = d₂.exits (!b) := by
    rw [d₂.exits_setExits, if_neg (by cases b <;> simp)]
  rw [← hother] at hhere ⊢
  have hlen₃ := hhere.length
  have hscope₃ : rhs.InScope c₃.scope c₃.chunk.nactvar := by
    rw [hhere.nactvar]
    exact heval
  obtain ⟨hc₄, hfit₄⟩ := hr h₄ hscope₃ (hhere.room hroom) (by omega) hi.right
  have hnil : (d₂.setExits b []).exits b = [] := by rw [d₂.exits_setExits, if_pos rfl]
  obtain ⟨hc, hfit⟩ :=
    hhere.join hnil hc₄ hfit₄ (fun env R R' hR => rhs.eval_congr heval hR) rfl
  refine ⟨?_, hfit⟩
  rw [hs₃, Condition.eval_logical] at hc
  exact hc.mono (by omega)

/-- The code of a condition computes its value, as long as no patched position is cut off. -/
theorem compileExpr_condition (t : Condition) : t.Compiles := by
  induction t with
  | read name =>
      intro c c' d h hscope hroom hsmall hi
      rw [Condition.toExpr, compileExpr] at h
      obtain ⟨hc, hfit⟩ := compileExprIdent_code hscope h
      exact ⟨hc.mono (by omega), hfit⟩
  | not operand ih =>
      intro c c' d h hscope hroom hsmall hi
      rw [Condition.toExpr, compileExpr] at h
      simp only [Condition.size] at hsmall
      obtain ⟨d₁, c₁, h₁, h⟩ := prefixNot_eq_ok h
      rcases h with ⟨hj, hf, rfl⟩ | h
      · obtain ⟨hc, hfit⟩ := ih h₁ hscope hroom (by omega) hi
        obtain ⟨hc', hfit'⟩ := negateFold_spec hc hj hf
        exact ⟨hc'.mono (by simp only [Condition.size]; omega), hfit'⟩
      · have hgrow : c.events <+: c₁.events := (internal_condition (t := operand) hscope h₁).2
        have hgrow' : c₁.events <+: c'.events := (obeys_compileNot _ _).logged h
        rw [Ctx.since_trans hgrow hgrow'] at hi
        obtain ⟨hc, hfit⟩ := ih h₁ hscope hroom (by omega) hi.left
        have hlen := hc.length
        obtain ⟨hc', hfit'⟩ := compileNot_spec hc hfit (by omega) h
        exact ⟨hc'.mono (by simp only [Condition.size]; omega), hfit'⟩
  | and lhs rhs ihl ihr => exact ihl.logical ihr true
  | or lhs rhs ihl ihr => exact ihl.logical ihr false
  | compare op lhs rhs =>
      intro c c' d h hscope hroom hsmall hi
      obtain ⟨l, c₁, r, c₂, h₁, h₂, hcmp⟩ := compare_eq_ok h
      have ho₁ := toReg_ident hscope.1 hroom h₁
      obtain ⟨u, -, -, ha⟩ := ho₁.appends
      have hscope' : Readable c₁.scope c₁.chunk.nactvar rhs := by
        rw [ha.scope, ha.nactvar]
        exact hscope.2
      have ho₂ := toReg_ident hscope' (ha.room hroom) h₂
      obtain ⟨hc, hfit⟩ := comparison_spec h₁ h₂ ho₁ ho₂ hcmp
      rw [ha.scope] at hc
      exact ⟨hc.mono (by simp only [Condition.size]; omega), hfit⟩
  | paren inner ih =>
      intro c c' d h hscope hroom hsmall hi
      rw [Condition.toExpr, compileExpr] at h
      exact ih h hscope hroom hsmall hi

/-! ### Conditions over registers -/

theorem kind_codenot {kind : ExprKind} (h : codenot d kind c = Except.ok (d', c')) :
    d'.kind = kind := by
  obtain ⟨u₁, c₁, h₁, h⟩ := bind_eq_ok.1 h
  obtain ⟨u₂, c₂, h₂, h⟩ := bind_eq_ok.1 h
  obtain ⟨rfl, -⟩ := pure_eq_ok.1 h
  rfl

theorem compileNot_unsettled (hw : constKindToValue d.kind = none) (hfit : Fit c₀ c d)
    (h : compileNot d none c = Except.ok (d', c')) : constKindToValue d'.kind = none := by
  unfold compileNot at h
  rcases hfit.settled hw with ⟨r, hk⟩ | ⟨idx, hk⟩
  · simp only [hk] at h
    obtain ⟨u₁, c₁, h₁, h⟩ := bind_eq_ok.1 h
    obtain ⟨dst, c₂, h₂, h⟩ := bind_eq_ok.1 h
    obtain ⟨u₃, c₃, h₃, h⟩ := bind_eq_ok.1 h
    rw [kind_codenot h, constKindToValue]
  · simp only [hk] at h
    obtain ⟨u₁, c₁, h₁, h⟩ := bind_eq_ok.1 h
    rw [kind_codenot h, constKindToValue]

/-- Where no local folds, every operand is tested before a list is patched, so that the last
instruction is a jump of the other list, and nothing is cut off. -/
def Condition.Stays (t : Condition) : Prop :=
  ∀ {c c' : Ctx} {d : ExprDesc}, compileExpr t.toExpr none c = Except.ok (d, c') →
    t.Registers c.scope → t.InScope c.scope c.chunk.nactvar →
    c.chunk.constants.length < 2 ^ 16 → c.chunk.tape.length + 8 * t.size ≤ 2 ^ 31 →
    c.Uncut c' ∧ constKindToValue d.kind = none

theorem Condition.Stays.logical {lhs rhs : Condition} (hl : lhs.Stays) (hr : rhs.Stays)
    (b : Bool) : (Condition.logical b lhs rhs).Stays := by
  intro c c' d h hregs hscope hroom hsmall
  have hsize : (Condition.logical b lhs rhs).size = lhs.size + rhs.size + 1 := by cases b <;> rfl
  obtain ⟨hregs₁, hregs₂⟩ : lhs.Registers c.scope ∧ rhs.Registers c.scope := by
    cases b <;> exact hregs
  obtain ⟨hscope₁, hscope₂⟩ :
      lhs.InScope c.scope c.chunk.nactvar ∧ rhs.InScope c.scope c.chunk.nactvar := by
    cases b <;> exact hscope
  rw [hsize] at hsmall
  obtain ⟨d₁, c₁, d₂, c₂, u, c₃, d₄, h₁, h₂, h₃, h₄, rfl⟩ := logical_eq_ok h
  obtain ⟨hu₁, hw₁⟩ := hl h₁ hregs₁ hscope₁ hroom (by omega)
  obtain ⟨hc₁, hfit₁⟩ :=
    compileExpr_condition lhs h₁ hscope₁ hroom (by omega) (Intact.of_uncut hu₁)
  obtain ⟨hc₂, hlast⟩ := goif_spec hc₁ hfit₁ hroom (by omega) h₂
  obtain ⟨j, hj, hend⟩ := hlast hw₁
  have hnodup : (d₂.exits b ++ d₂.exits (!b)).Nodup :=
    (d₂.jumps_perm b).nodup_iff.2 hc₂.frag.shape.nodup
  have hu₂ : c₁.Uncut c₂ := by
    cases b
    · exact Discipline.obeys_goiffalse (D := uncutSteps) _ _ _ _ h₂
    · exact Discipline.obeys_goiftrue (D := uncutSteps) _ _ _ _ h₂
  have hu₃ : c₂.Uncut c₃ := by
    refine uncut_patchToHere (fun j' hj' hend' => ?_) h₃
    obtain rfl : j' = j := by omega
    exact (List.nodup_append.1 hnodup).2.2 j' hj' j' hj rfl
  have hhere := patchToHere_spec hc₂ (by have := hc₂.length; omega) h₃
    (Intact.of_uncut ((hu₁.trans hu₂).trans hu₃))
  have hlen := hhere.length
  obtain ⟨hu₄, hw₄⟩ := hr h₄ (by rw [hhere.scope]; exact hregs₂)
    (by rw [hhere.scope, hhere.nactvar]; exact hscope₂) (hhere.room hroom) (by omega)
  exact ⟨((hu₁.trans hu₂).trans hu₃).trans hu₄, by rw [d₄.kind_setExits]; exact hw₄⟩

theorem stays_condition (t : Condition) : t.Stays := by
  induction t with
  | read name =>
      intro c c' d h hregs hscope hroom hsmall
      rw [Condition.toExpr, compileExpr] at h
      rcases compileExprIdent_local hscope h with ⟨r, hr, rfl, hq, -⟩ | ⟨v, ⟨r, hv⟩, -⟩
      · exact ⟨Ctx.Uncut.of_same hq.same, rfl⟩
      · exact absurd hv (hregs r v)
  | not operand ih =>
      intro c c' d h hregs hscope hroom hsmall
      rw [Condition.toExpr, compileExpr] at h
      simp only [Condition.size] at hsmall
      obtain ⟨d₁, c₁, h₁, h⟩ := prefixNot_eq_ok h
      obtain ⟨hu₁, hw₁⟩ := ih h₁ hregs hscope hroom (by omega)
      rcases h with ⟨-, hf, rfl⟩ | h
      · obtain ⟨w, hw⟩ := exists_const_of_prefixFold hf
        cases hw₁.symm.trans hw
      · obtain ⟨-, hfit₁⟩ :=
          compileExpr_condition operand h₁ hscope hroom (by omega) (Intact.of_uncut hu₁)
        exact ⟨hu₁.trans (Discipline.obeys_compileNot (D := uncutSteps) _ _ _ _ _ h),
          compileNot_unsettled hw₁ hfit₁ h⟩
  | and lhs rhs ihl ihr => exact ihl.logical ihr true
  | or lhs rhs ihl ihr => exact ihl.logical ihr false
  | compare op lhs rhs =>
      intro c c' d h hregs hscope hroom hsmall
      obtain ⟨hu, idx, hk⟩ := compare_related (D := uncutSteps) hscope.1 hscope.2 h
      exact ⟨hu, by rw [hk, constKindToValue]⟩
  | paren inner ih =>
      intro c c' d h hregs hscope hroom hsmall
      rw [Condition.toExpr, compileExpr] at h
      exact ih h hregs hscope hroom hsmall

/-- **Conditions over register locals** never have code cut off. -/
theorem intact_registers {t : Condition} {r : ℕ}
    (h : toReg (compileExpr t.toExpr none) none c = Except.ok (r, c')) (hregs : t.Registers c.scope)
    (hscope : t.InScope c.scope c.chunk.nactvar) (hroom : c.chunk.constants.length < 2 ^ 16)
    (hsmall : c.chunk.tape.length + 8 * t.size + 5 ≤ 2 ^ 31) : Intact (c'.since c) := by
  unfold toReg at h
  obtain ⟨d, c₁, h₁, h⟩ := bind_eq_ok.1 h
  obtain ⟨⟨d', r'⟩, c₂, h₂, h⟩ := bind_eq_ok.1 h
  obtain ⟨rfl, rfl⟩ := pure_eq_ok.1 h
  obtain ⟨hu, -⟩ := stays_condition t h₁ hregs hscope hroom (by omega)
  exact Intact.of_uncut
    (hu.trans (Discipline.obeys_dischargeToRegMut (D := uncutSteps) _ _ _ _ _ h₂))

/-! ### The value in its register -/

/-- The code between `c` and `c'` puts the value of `t` into the register `r`. -/
structure Lowered (c : Ctx) (t : Condition) (r : ℕ) (c' : Ctx) : Prop where
  /-- From any register contents the code runs to its end. -/
  computes : ∀ env : CodeEnv, c'.chunk.constants <+: env.constants → ∀ R, ∃ R',
    Run env c.chunk.tape.length c'.chunk.tape [] (c.chunk.tape.length, R)
      (c'.chunk.tape.length, R') ∧
    R' r = t.eval c.scope env R ∧ ∀ x < c.chunk.nactvar, R' x = R x
  /-- No `TESTSET` keeps the placeholder. -/
  placed : ∀ k src inverted, c.chunk.tape.length ≤ k →
    c'.chunk.tape[k]? ≠ some (Instruction.testset noReg src inverted)
  /-- Every jump has been patched, to a position of the code. -/
  patched : ∀ k o, c.chunk.tape.length ≤ k → c'.chunk.tape[k]? = some (Instruction.jmp o) →
    ∃ target, Event.patched k target ∈ c'.since c ∧ o = jumpOffset k target ∧
      c.chunk.tape.length ≤ target ∧ target ≤ c'.chunk.tape.length

/-- The value of a condition ends up in the result register, as long as no patched position is cut
off. -/
theorem toReg_condition {t : Condition} {r : ℕ}
    (h : toReg (compileExpr t.toExpr none) none c = Except.ok (r, c'))
    (hscope : t.InScope c.scope c.chunk.nactvar) (hroom : c.chunk.constants.length < 2 ^ 16)
    (hsmall : c.chunk.tape.length + 8 * t.size + 5 ≤ 2 ^ 31) (hi : Intact (c'.since c)) :
    Lowered c t r c' := by
  unfold toReg at h
  obtain ⟨d, c₁, h₁, h⟩ := bind_eq_ok.1 h
  obtain ⟨⟨d', r'⟩, c₂, h₂, h⟩ := bind_eq_ok.1 h
  obtain ⟨rfl, rfl⟩ := pure_eq_ok.1 h
  have hg₁ : c.events <+: c₁.events := (internal_condition hscope h₁).2
  have hg₂ : c₁.events <+: c₂.events := (obeys_dischargeToRegMut _ _).logged h₂
  have hi₁ := hi
  rw [Ctx.since_trans hg₁ hg₂] at hi₁
  obtain ⟨hc₁, hfit₁⟩ := compileExpr_condition t h₁ hscope hroom (by omega) hi₁.left
  have hlen := hc₁.length
  obtain ⟨-, -, hc₂⟩ := dischargeToRegMut_spec hc₁ hfit₁ (hc₁.room hroom) (by omega) h₂
  obtain ⟨hshape, hevals⟩ := hc₂.frag
  refine ⟨fun env henv R => ?_, fun k src inverted hk hi => ?_, fun k o hk hi => ?_⟩
  · obtain ⟨⟨pc, R'⟩, hrun, hbelow, hq⟩ := hevals env henv R
    rcases hq with ⟨hpc, hv⟩ | ⟨b, hq⟩
    · obtain rfl : pc = c₂.chunk.tape.length := hpc
      exact ⟨R', hrun, hv, hbelow⟩
    · exact absurd hq.mem_jumps (by simp [ExprDesc.jumps, ExprDesc.fromReg])
  · exact absurd (hshape.placeholder k src inverted hk hi) List.not_mem_nil
  · obtain ⟨target, hm, ho, hle⟩ := hshape.aimed k o hk hi List.not_mem_nil
    exact ⟨target, hm, ho, hle, hshape.bounded k target hm⟩

/-- A function with the locals `a`, `b`, `c`, `d` and `local k <const> = nil`. -/
def fourLocals : Ctx :=
  { initialCtx [] false 0 [] GlobalEnv.new ⟨fun _ _ _ => none, fun _ => none⟩ with
    scope := [[(bytes "a", ⟨0, VarKind.reg⟩), (bytes "b", ⟨1, VarKind.reg⟩),
      (bytes "c", ⟨2, VarKind.reg⟩), (bytes "d", ⟨3, VarKind.reg⟩),
      (bytes "k", ⟨4, VarKind.const (some ConstVal.nil)⟩)]]
    chunk := { Chunk.new with freereg := 4, nactvar := 4, maxStack := 4 } }

/-- `(a and b) or not c`. -/
theorem toReg_condition_and_or_not :
    ∃ r c', toReg (compileExpr (Condition.or (Condition.and (Condition.read (bytes "a"))
        (Condition.read (bytes "b"))) (Condition.not (Condition.read (bytes "c")))).toExpr none)
        none fourLocals = Except.ok (r, c') ∧
      Lowered fourLocals (Condition.or (Condition.and (Condition.read (bytes "a"))
        (Condition.read (bytes "b"))) (Condition.not (Condition.read (bytes "c")))) r c' :=
  ⟨_, _, rfl, toReg_condition rfl
    ⟨⟨⟨_, rfl, by decide, Or.inr (by decide)⟩, ⟨_, rfl, by decide, Or.inr (by decide)⟩⟩,
      ⟨_, rfl, by decide, Or.inr (by decide)⟩⟩ (by decide) (by decide) (by decide)⟩

/-- `(((a or b) and k) or c) and d`, where `k` is the constant `nil`. -/
def cutOff : Condition :=
  Condition.and
    (Condition.or
      (Condition.and (Condition.or (Condition.read (bytes "a")) (Condition.read (bytes "b")))
        (Condition.read (bytes "k")))
      (Condition.read (bytes "c")))
    (Condition.read (bytes "d"))

/-- When `a` holds, the code of `cutOff` yields `d` although `c` is false. -/
theorem not_lowered_cutOff :
    ¬∀ (c c' : Ctx) (t : Condition) (r : ℕ), c.chunk.freereg = c.chunk.nactvar →
      t.InScope c.scope c.chunk.nactvar → c.chunk.constants.length < 2 ^ 16 →
      c.chunk.tape.length + 8 * t.size + 5 ≤ 2 ^ 31 →
      toReg (compileExpr t.toExpr none) none c = Except.ok (r, c') → Lowered c t r c' := by
  intro h
  have hscope : cutOff.InScope fourLocals.scope fourLocals.chunk.nactvar :=
    ⟨⟨⟨⟨⟨_, rfl, by decide, Or.inr (by decide)⟩, ⟨_, rfl, by decide, Or.inr (by decide)⟩⟩,
      ⟨_, rfl, by decide, Or.inl ⟨_, rfl⟩⟩⟩, ⟨_, rfl, by decide, Or.inr (by decide)⟩⟩,
      ⟨_, rfl, by decide, Or.inr (by decide)⟩⟩
  obtain ⟨c', hc', htape, hconst⟩ :
      ∃ c', toReg (compileExpr cutOff.toExpr none) none fourLocals = Except.ok (4, c') ∧
        c'.chunk.tape = [Instruction.test 0 true, Instruction.jmp 2,
          Instruction.testset 4 2 true, Instruction.jmp 1, Instruction.move 4 3] ∧
        c'.chunk.constants = [] := ⟨_, rfl, rfl, rfl⟩
  have hlow := h fourLocals c' cutOff 4 rfl hscope (by decide) (by decide) hc'
  let env : CodeEnv := ⟨fun _ _ => false, fun _ _ => false, fun _ _ => false, []⟩
  let R : Regs := fun x => Value.boolean (x = 0 || x = 3)
  obtain ⟨R', hrun, hv, -⟩ := hlow.computes env (hconst ▸ List.nil_prefix) R
  rw [htape] at hrun
  -- the jump behind the test of `a` goes over the test of `c`
  let T : List Instruction := [Instruction.test 0 true, Instruction.jmp 2,
    Instruction.testset 4 2 true, Instruction.jmp 1, Instruction.move 4 3]
  have h₁ : Step env 0 T [] (0, R) (1, R) := ⟨by simp, by simp, _, rfl, rfl⟩
  have h₂ : Step env 0 T [] (1, R) (4, R) := ⟨by simp, by simp, _, rfl, rfl⟩
  have h₃ : Step env 0 T [] (4, R) (5, Function.update R 4 (R 3)) :=
    ⟨by simp, by simp, _, rfl, rfl⟩
  have hstuck : ∀ (R₁ : Regs) x, ¬Step env 0 T [] (5, R₁) x := by
    intro R₁ x hx
    exact absurd hx.lt_length (Nat.lt_irrefl 5)
  have heq := Run.eq_of_stuck hrun (((ReflTransGen.single h₁).tail h₂).tail h₃) (hstuck _)
    (hstuck _)
  obtain rfl : R' = Function.update R 4 (R 3) := (Prod.mk.inj heq).2
  exact absurd hv (by decide)

end Tcvm
