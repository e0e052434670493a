/-
Compiling conditions, rule by rule.

What the rules for `and`, `or`, `not` and the comparisons make of the code of their operands.  Each
rule is one step of the induction over an expression.

## Main definitions

* `comparisonHolds` — the outcome of a comparison;
* `Operand` — the operand of a comparison in its register.

## Main results

* `goif_spec`: **absorbing an expression into a branch**;
* `compileNot_spec`, `comparison_spec`.
-/

import Tcvm.ConditionDischarge

namespace Tcvm

open CompileM StateExcept
open Relation (ReflTransGen)

variable {c₀ c c' c'' : Ctx} {n n' : ℕ} {holes holes' : List ℕ} {val val' : CodeEnv → Regs → Value}
  {Q Q' : Outcomes} {d d' : ExprDesc} {b : Bool} {P P' : Value → Regs → Prop}

/-! ### Branches -/

theorem ExprDesc.jumps_setExits_append_perm (d : ExprDesc) (b : Bool) (list : List ℕ) :
    (list ++ d.jumps).Perm (d.setExits b (d.exits b ++ list)).jumps := by
  refine List.perm_append_comm.trans ?_
  cases b
  · simp only [jumps, setExits, exits, Bool.false_eq_true, if_false, List.append_assoc]
    exact List.Perm.refl _
  · simp only [jumps, setExits, exits, if_true, List.append_assoc]
    exact List.perm_append_comm.append_left _

/-- The test of a register. -/
theorem Code.testJump {r j : ℕ} {u : Unit} (hk : d.kind = ExprKind.reg r)
    (hc : Code c₀ n c d.jumps val fun T => Evaluates T d)
    (h₁ : freeReg r c = Except.ok (u, c')) (h₂ : emitTestJump r (!b) c' = Except.ok (j, c'')) :
    Code c₀ (n + 2) c'' (d.setExits (!b) (d.exits (!b) ++ [j])).jumps val (fun T =>
      Branch T (d.setExits (!b) (d.exits (!b) ++ [j])) b) ∧ j + 1 = c''.chunk.tape.length := by
  have hc' := hc.quiet (freeReg_spec h₁)
  obtain ⟨rfl, happ⟩ := appends_emitTestJump h₂
  have hfrag := (hc'.frag.branch_reg (b := b) hk).grow happ.constants
  refine ⟨(hc'.append happ hfrag).perm (d.jumps_setExits_append_perm (!b) _), ?_⟩
  rw [happ.tape, List.length_append]
  rfl

/-- The hole of the head, once its control takes it with truthiness `!b`. -/
theorem Code.testHead {idx : ℕ} {i : Instruction}
    (hc : Code c₀ n c (idx :: d.jumps) val fun T => LeavesAtHead T d idx b)
    (hidx : idx + 1 = c.chunk.tape.length) (hi : c.chunk.tape[idx - 1]? = some i)
    (hni : ∀ dst src x, i ≠ Instruction.testset dst src x) :
    Code c₀ n c (d.setExits (!b) (d.exits (!b) ++ [idx])).jumps val fun T =>
      Branch T (d.setExits (!b) (d.exits (!b) ++ [idx])) b := by
  have hfrag := hc.frag.branch_head hidx ⟨i, hi, hni⟩
  have hcode : Code c₀ n c (idx :: d.jumps) val fun T =>
      Leaves T (d.setExits (!b) (d.exits (!b) ++ [idx])) fun v _ => v = Value.boolean b :=
    { hc with frag := hfrag }
  refine (hcode.perm (d.jumps_setExits_append_perm (!b) [idx])).weaken fun env v s hq => ?_
  rcases hq with ⟨hpc, hv⟩ | hq
  · refine Or.inl ⟨hpc, ?_⟩
    show v.truthy = b
    rw [hv, Value.truthy_boolean]
  · exact Or.inr hq

/-- A constant needs no test. -/
theorem Code.testConst {w : Value} (hw : constKindToValue d.kind = some w) (hb : w.truthy = b)
    (hc : Code c₀ n c d.pending val fun T => Evaluates T d) :
    Code c₀ n c d.jumps val fun T => Branch T d b := by
  rw [pending_of_const hw] at hc
  exact { hc with frag := hc.frag.branch_const hw hb }

/-- Flipping the control of a head. -/
theorem flipHead_spec {idx : ℕ} {u : Unit} (hk : d.kind = ExprKind.jump (some idx))
    (hc : Code c₀ n c d.pending val fun T => Evaluates T d) (hfit : Fit c₀ c d)
    (hsmall : c.chunk.tape.length ≤ 2 ^ 31)
    (h : flipControlPolarity idx c = Except.ok (u, c')) :
    Rewrites c [] c' ∧ (∃ i, c'.chunk.tape[idx - 1]? = some i ∧ i.isControl = true ∧
        ∀ dst src x, i ≠ Instruction.testset dst src x) ∧
      Code c₀ n c' (idx :: d.jumps) val fun T => LeavesAtHead T d idx true := by
  obtain ⟨hidx, hpatch, i, hi, hic, hni⟩ := hfit.head.2 idx hk
  rw [pending_of_jump hk] at hc
  simp only [evaluates_jump hk] at hc
  have hlo := (hc.frag.shape.hole idx List.mem_cons_self).lt
  unfold flipControlPolarity at h
  rw [if_neg (by omega)] at h
  obtain ⟨ctrl, c₁, h₁, h⟩ := bind_eq_ok.1 h
  obtain ⟨hctrl, rfl⟩ := tapeAt_eq_ok.1 h₁
  obtain rfl := Option.some.inj (hi.symm.trans hctrl)
  obtain ⟨i', c₂, h₂, h⟩ := bind_eq_ok.1 h
  obtain ⟨hflip, rfl⟩ := unwrap_eq_ok.1 h₂
  obtain ⟨hrw, htape⟩ := rewrites_setTape h
  have hlt := (List.getElem?_eq_some_iff.1 hi).1
  refine ⟨hrw, ⟨i', ?_, Instruction.isControl_flip hflip, ?_⟩, hc.rewrite hrw ?_ ?_⟩
  · rw [htape, List.getElem?_set_self hlt]
  · rintro dst src x rfl
    obtain ⟨y, rfl⟩ := Instruction.flip_testset hflip
    exact hni _ _ _ rfl
  · intro k hk
    rw [htape, List.getElem?_set_ne (by omega)]
  · rw [htape, List.append_nil]
    exact hc.frag.flip hsmall hidx hpatch hi hic hni hflip

/-- `branch_true` and `branch_false`, by the truthiness that falls through. -/
def branchIf : Bool → ExprDesc → CompileM ExprDesc
  | true => branchTrue
  | false => branchFalse

/-- Fall through with truthiness `b`; the last instruction is an exit. -/
theorem branchIf_spec (hw : constKindToValue d.kind = none)
    (hc : Code c₀ n c d.pending val fun T => Evaluates T d) (hfit : Fit c₀ c d)
    (hsmall : c.chunk.tape.length ≤ 2 ^ 31) (h : branchIf b d c = Except.ok (d', c')) :
    Code c₀ (n + 2) c' d'.jumps val (fun T => Branch T d' b) ∧
      ∃ j ∈ d'.exits (!b), j + 1 = c'.chunk.tape.length := by
  have hexits : ∀ j, j ∈ (d.setExits (!b) (d.exits (!b) ++ [j])).exits (!b) := by
    intro j
    rw [d.exits_setExits, if_pos rfl]
    exact List.mem_append_right _ List.mem_cons_self
  rcases hfit.settled hw with ⟨r, hk⟩ | ⟨idx, hk⟩
  · rw [pending_of_reg hk] at hc
    cases b with
    | true =>
        simp only [branchIf, branchTrue, hk] at h
        obtain ⟨u₁, c₁, h₁, h⟩ := bind_eq_ok.1 h
        obtain ⟨j, c₂, h₂, h⟩ := bind_eq_ok.1 h
        obtain ⟨rfl, rfl⟩ := pure_eq_ok.1 h
        obtain ⟨hcode, hlast⟩ := hc.testJump (b := true) hk h₁ h₂
        exact ⟨hcode, j, hexits j, hlast⟩
    | false =>
        simp only [branchIf, branchFalse, hk] at h
        obtain ⟨u₁, c₁, h₁, h⟩ := bind_eq_ok.1 h
        obtain ⟨j, c₂, h₂, h⟩ := bind_eq_ok.1 h
        obtain ⟨rfl, rfl⟩ := pure_eq_ok.1 h
        obtain ⟨hcode, hlast⟩ := hc.testJump (b := false) hk h₁ h₂
        exact ⟨hcode, j, hexits j, hlast⟩
  · obtain ⟨hidx, -, i, hi, -, hni⟩ := hfit.head.2 idx hk
    cases b with
    | true =>
        simp only [branchIf, branchTrue, hk] at h
        obtain ⟨u₁, c₁, h₁, h⟩ := bind_eq_ok.1 h
        obtain ⟨rfl, rfl⟩ := pure_eq_ok.1 h
        obtain ⟨hrw, ⟨i, hi, -, hni⟩, hcode⟩ := flipHead_spec hk hc hfit hsmall h₁
        have hidx' := hidx.trans hrw.length.symm
        exact ⟨(hcode.testHead hidx' hi hni).mono (by omega), idx, hexits idx, hidx'⟩
    | false =>
        simp only [branchIf, branchFalse, hk] at h
        obtain ⟨rfl, rfl⟩ := pure_eq_ok.1 h
        rw [pending_of_jump hk] at hc
        simp only [evaluates_jump hk] at hc
        exact ⟨(hc.testHead hidx hi hni).mono (by omega), idx, hexits idx, hidx⟩

/-- `goiftrue` and `goiffalse`, by the truthiness that falls through. -/
def goif : Bool → ExprDesc → CompileM ExprDesc
  | true => goiftrue
  | false => goiffalse

/-- A constant that falls through is left alone, and the other one is discharged first. -/
theorem goif_eq_ok (h : goif b d c = Except.ok (d', c')) :
    (∃ w, constKindToValue d.kind = some w ∧ w.truthy = b ∧ d = d' ∧ c = c') ∨
      (∃ w r c₁, constKindToValue d.kind = some w ∧ dischargeToRegMut d none c = Except.ok (r, c₁) ∧
        branchIf b r.1 c₁ = Except.ok (d', c')) ∨
      constKindToValue d.kind = none ∧ branchIf b d c = Except.ok (d', c') := by
  have hload : ∀ w, constKindToValue d.kind = some w →
      (dischargeToRegMut d none >>= fun r => branchIf b r.1) c = Except.ok (d', c') →
      ∃ w r c₁, constKindToValue d.kind = some w ∧ dischargeToRegMut d none c = Except.ok (r, c₁) ∧
        branchIf b r.1 c₁ = Except.ok (d', c') := by
    intro w hw h
    obtain ⟨r, c₁, h₁, h⟩ := bind_eq_ok.1 h
    exact ⟨w, r, c₁, hw, h₁, h⟩
  obtain ⟨kind, t, f⟩ := d
  cases b with
  | true =>
      cases kind with
      | numeral m => cases m <;> exact Or.inl ⟨_, rfl, rfl, pure_eq_ok.1 h⟩
      | bool m =>
          cases m with
          | true => exact Or.inl ⟨_, rfl, rfl, pure_eq_ok.1 h⟩
          | false => exact Or.inr (Or.inl (hload _ rfl h))
      | nil => exact Or.inr (Or.inl (hload _ rfl h))
      | reg r => exact Or.inr (Or.inr ⟨rfl, h⟩)
      | jump p => exact Or.inr (Or.inr ⟨rfl, h⟩)
  | false =>
      cases kind with
      | numeral m => cases m <;> exact Or.inr (Or.inl (hload _ rfl h))
      | bool m =>
          cases m with
          | true => exact Or.inr (Or.inl (hload _ rfl h))
          | false => exact Or.inl ⟨_, rfl, rfl, pure_eq_ok.1 h⟩
      | nil => exact Or.inl ⟨_, rfl, rfl, pure_eq_ok.1 h⟩
      | reg r => exact Or.inr (Or.inr ⟨rfl, h⟩)
      | jump p => exact Or.inr (Or.inr ⟨rfl, h⟩)

theorem goif_spec (hc : Code c₀ n c d.pending val fun T => Evaluates T d) (hfit : Fit c₀ c d)
    (hroom : c₀.chunk.constants.length < 2 ^ 16) (hsmall : c₀.chunk.tape.length + n + 7 ≤ 2 ^ 31)
    (h : goif b d c = Except.ok (d', c')) :
    Code c₀ (n + 7) c' d'.jumps val (fun T => Branch T d' b) ∧
      (constKindToValue d.kind = none → ∃ j ∈ d'.exits (!b), j + 1 = c'.chunk.tape.length) := by
  have hlen := hc.length
  rcases goif_eq_ok h with
    ⟨w, hw, hb, rfl, rfl⟩ | ⟨w, ⟨d₁, r⟩, c₁, hw, h₁, h₂⟩ | ⟨hw, h⟩
  · exact ⟨(hc.testConst hw hb).mono (by omega), fun hnone => absurd (hnone.symm.trans hw) nofun⟩
  · obtain ⟨rfl, hfit₁, hc₁⟩ := dischargeToRegMut_spec hc hfit (hc.room hroom) (by omega) h₁
    have hlen₁ := hc₁.length
    exact ⟨(branchIf_spec rfl hc₁ hfit₁ (by omega) h₂).1,
      fun hnone => absurd (hnone.symm.trans hw) nofun⟩
  · obtain ⟨hcode, hlast⟩ := branchIf_spec hw hc hfit (by omega) h
    exact ⟨hcode.mono (by omega), fun _ => hlast⟩

/-! ### Negation -/

theorem Downgrades.append {T T₁ T₂ : List Instruction} {l₁ l₂ : List ℕ} (h₁ : Downgrades T l₁ T₁)
    (h₂ : Downgrades T₁ l₂ T₂) : Downgrades T (l₁ ++ l₂) T₂ where
  length := h₂.length.trans h₁.length
  get k i hi := by
    rw [h₂.get k _ (h₁.get k i hi)]
    by_cases hm₁ : k + 1 ∈ l₁
    · by_cases hm₂ : k + 1 ∈ l₂
      · simp [hm₁, hm₂, Instruction.downgrade_downgrade]
      · simp [hm₁, hm₂]
    · simp [hm₁]

theorem Downgrades.agree {lo : ℕ} {T T' : List Instruction} {list : List ℕ}
    (h : Downgrades T list T') (hlo : ∀ x ∈ list, lo < x) {k : ℕ} (hk : k < lo) :
    T'[k]? = T[k]? := by
  cases hi : T[k]? with
  | none =>
      rw [List.getElem?_eq_none_iff] at hi ⊢
      rw [h.length]
      exact hi
  | some i =>
      rw [h.get k i hi, if_neg]
      intro hm
      have := hlo _ hm
      omega

theorem codenot_spec {kind : ExprKind} (hpos : ∀ x ∈ d.jumps, 0 < x)
    (h : codenot d kind c = Except.ok (d', c')) :
    d' = d.swap kind ∧ Rewrites c [] c' ∧ Downgrades c.chunk.tape d.jumps c'.chunk.tape := by
  unfold codenot at h
  obtain ⟨u₁, c₁, h₁, h⟩ := bind_eq_ok.1 h
  obtain ⟨u₂, c₂, h₂, h⟩ := bind_eq_ok.1 h
  obtain ⟨rfl, rfl⟩ := pure_eq_ok.1 h
  obtain ⟨hrw₁, hd₁⟩ := downgradeTestsets_spec
    (fun x hx => hpos x (List.mem_append_left _ hx)) h₁
  obtain ⟨hrw₂, hd₂⟩ := downgradeTestsets_spec
    (fun x hx => hpos x (List.mem_append_right _ hx)) h₂
  exact ⟨rfl, hrw₁.trans hrw₂, hd₁.append hd₂⟩

/-- The negation of code that falls through. -/
theorem Code.negate {kind : ExprKind} (P' : Value → Regs → Prop)
    (hc : Code c₀ n c d.jumps val fun T => Leaves T d P)
    (hP : ∀ v R, P v R → P' v.negate R) (h : codenot d kind c = Except.ok (d', c')) :
    d' = d.swap kind ∧
      Code c₀ n c' (d.swap kind).jumps (fun env R => (val env R).negate)
        fun T => Leaves T (d.swap kind) P' := by
  obtain ⟨hd, hrw, hdown⟩ := codenot_spec hc.frag.shape.separate.pos h
  refine ⟨hd, hc.rewrite hrw ?_ ?_⟩
  · exact fun k hk => hdown.agree (fun x hx => (hc.frag.shape.hole x hx).lt) hk
  · rw [List.append_nil]
    exact hc.frag.negate hdown hP

theorem fit_of_const {v : Value} (hv : constKindToValue d.kind = some v) : Fit c₀ c d := by
  refine ⟨⟨fun hk => ?_, fun idx hk => ?_⟩, fun r hk => ?_⟩
  · rw [hk] at hv
    exact absurd hv (by simp [constKindToValue])
  · rw [hk] at hv
    exact absurd hv (by simp [constKindToValue])
  · rw [hk] at hv
    exact absurd hv (by simp [constKindToValue])

/-- The constant that a negated constant folds to. -/
theorem exists_negate_const {w : Value} (hw : constKindToValue d.kind = some w) :
    ∃ b, w.negate = Value.boolean b ∧ prefixFold c.num PrefixOperator.not d.kind =
      some (ExprDesc.fromBool b) ∧ compileNot d none = codenot d (ExprKind.bool b) := by
  have hnot : ∀ kind, d.kind = kind → ∀ b,
      (∀ t f, compileNot ⟨kind, t, f⟩ none = codenot ⟨kind, t, f⟩ (ExprKind.bool b)) →
      compileNot d none = codenot d (ExprKind.bool b) := by
    intro kind hk b hb
    obtain ⟨k, t, f⟩ := d
    obtain rfl : k = kind := hk
    exact hb t f
  cases hk : d.kind with
  | numeral m =>
      refine ⟨false, ?_, rfl, hnot _ hk _ fun _ _ => rfl⟩
      rw [hk] at hw
      cases m <;> obtain rfl := Option.some.inj hw <;> rfl
  | bool m =>
      refine ⟨!m, ?_, rfl, hnot _ hk _ fun _ _ => rfl⟩
      rw [hk] at hw
      obtain rfl := Option.some.inj hw
      cases m <;> rfl
  | nil =>
      refine ⟨true, ?_, rfl, hnot _ hk _ fun _ _ => rfl⟩
      rw [hk] at hw
      obtain rfl := Option.some.inj hw
      rfl
  | reg r => rw [hk] at hw; exact absurd hw (by simp [constKindToValue])
  | jump p => rw [hk] at hw; exact absurd hw (by simp [constKindToValue])

theorem compileNot_spec (hc : Code c₀ n c d.pending val fun T => Evaluates T d) (hfit : Fit c₀ c d)
    (hsmall : c.chunk.tape.length ≤ 2 ^ 31) (h : compileNot d none c = Except.ok (d', c')) :
    Code c₀ (n + 1) c' d'.pending (fun env R => (val env R).negate) (fun T => Evaluates T d') ∧
      Fit c₀ c' d' := by
  have hconst : ∀ w, constKindToValue d.kind = some w →
      Code c₀ (n + 1) c' d'.pending (fun env R => (val env R).negate) (fun T => Evaluates T d') ∧
        Fit c₀ c' d' := by
    intro w hw
    obtain ⟨b, hb, -, hnot⟩ := exists_negate_const (c := c) hw
    rw [hnot] at h
    rw [pending_of_const hw] at hc
    simp only [evaluates_const hw] at hc
    obtain ⟨rfl, hcode⟩ := hc.negate (fun v _ => Value.boolean b = v)
      (fun v R hv => by rw [← hb, hv]) h
    have hw' : constKindToValue (d.swap (ExprKind.bool b)).kind = some (Value.boolean b) := rfl
    rw [pending_of_const hw']
    simp only [evaluates_const hw']
    exact ⟨hcode.mono (by omega), fit_of_const hw'⟩
  cases hk : d.kind with
  | numeral m =>
      cases m with
      | int i => exact hconst _ (by rw [hk]; rfl)
      | float x => exact hconst _ (by rw [hk]; rfl)
  | bool m => exact hconst _ (by rw [hk]; rfl)
  | nil => exact hconst _ (by rw [hk]; rfl)
  | reg r =>
      unfold compileNot at h
      simp only [hk] at h
      rw [pending_of_reg hk] at hc
      simp only [evaluates_reg hk] at hc
      obtain ⟨u₁, c₁, h₁, h⟩ := bind_eq_ok.1 h
      obtain ⟨dst, c₂, h₂, h⟩ := bind_eq_ok.1 h
      obtain ⟨u₃, c₃, h₃, h⟩ := bind_eq_ok.1 h
      have hc₁ := hc.quiet (freeReg_spec h₁)
      obtain ⟨hquiet, hle, hreg, -, -⟩ := reserveReg_spec h₂
      rw [hc₁.nactvar] at hle
      have hc₃ : Code c₀ (n + 1) c₃ d.jumps val fun T => Leaves T d fun v R =>
        R dst = v.negate := by
        refine (hc₁.quiet hquiet).emit rfl (fun env _ v R hv => ?_) h₃
        refine ⟨Function.update R dst (Value.boolean (R r).isFalsy), rfl, fun x hx => ?_, ?_⟩
        · exact Function.update_of_ne (by omega) _ _
        · rw [hv]
          exact Function.update_self _ _ _
      obtain ⟨rfl, hcode⟩ := hc₃.negate (fun v R => R dst = v) (fun v R hv => hv) h
      have hk' : (d.swap (ExprKind.reg dst)).kind = ExprKind.reg dst := rfl
      rw [pending_of_reg hk']
      simp only [evaluates_reg hk']
      refine ⟨hcode, ⟨⟨fun h => absurd h (by simp [ExprDesc.swap]),
        fun idx h => absurd h (by simp [ExprDesc.swap])⟩, fun r' h _ => ?_⟩⟩
      obtain rfl := ExprKind.reg.inj h
      exact hreg
  | jump p =>
      cases p with
      | none => exact absurd hk hfit.head.1
      | some idx =>
          unfold compileNot at h
          simp only [hk] at h
          obtain ⟨u₁, c₁, h₁, h⟩ := bind_eq_ok.1 h
          obtain ⟨hidx, hpatch, -⟩ := hfit.head.2 idx hk
          obtain ⟨hrw₁, ⟨i, hi, hic, hni⟩, hcode₁⟩ := flipHead_spec hk hc hfit hsmall h₁
          have hholes := hcode₁.frag.shape.hole
          obtain ⟨rfl, hrw₂, hdown⟩ := codenot_spec
            (fun x hx => hcode₁.frag.shape.separate.pos x (List.mem_cons_of_mem _ hx)) h
          have hk' : (d.swap (ExprKind.jump (some idx))).kind = ExprKind.jump (some idx) := rfl
          rw [pending_of_jump hk']
          simp only [evaluates_jump hk']
          refine ⟨(hcode₁.rewrite hrw₂ (fun k hk => hdown.agree (fun x hx =>
            (hholes x (List.mem_cons_of_mem _ hx)).lt) hk) ?_).mono (by omega), ?_, fun r hr => ?_⟩
          · rw [List.append_nil]
            exact hcode₁.frag.negate_head (b := false) hdown
          · refine ⟨fun h => absurd h (by simp [ExprDesc.swap]), fun idx' h => ?_⟩
            obtain rfl := Option.some.inj (ExprKind.jump.inj h)
            have hrw := hrw₁.trans hrw₂
            refine ⟨by rw [hrw.length]; exact hidx, ?_, i, ?_, hic, hni⟩
            · simp only [hrw.since hc.events, List.append_nil]
              exact hpatch
            · rw [hdown.get _ _ hi, if_neg]
              rw [Nat.sub_add_cancel (hcode₁.frag.shape.separate.pos idx List.mem_cons_self)]
              exact (List.nodup_cons.1 hcode₁.frag.shape.nodup).1
          · exact absurd hr (by simp [ExprDesc.swap])

/-! ### Comparisons -/

/-- The outcome of a comparison. -/
def comparisonHolds (env : CodeEnv) (op : BinaryOperator) (x y : Value) : Bool :=
  match op with
  | BinaryOperator.eq => env.eq x y
  | BinaryOperator.nEq => !env.eq x y
  | BinaryOperator.lt => env.lt x y
  | BinaryOperator.gt => env.lt y x
  | BinaryOperator.lEq => env.le x y
  | BinaryOperator.gEq => env.le y x
  | _ => false

/-- The control of a comparison skips its jump when the comparison fails. -/
theorem comparisonInstr_spec {op : BinaryOperator} {l r : ℕ} {i : Instruction}
    (h : comparisonInstr op l r = some i) :
    i.isControl = true ∧ (∀ dst src x, i ≠ Instruction.testset dst src x) ∧
      ∀ env R, i.skips env R = some (!comparisonHolds env op (R l) (R r)) := by
  have hbne : ∀ x : Bool, (x != true) = !x := by decide
  have hbne' : ∀ x : Bool, (x != false) = !!x := by decide
  cases op with
  | eq =>
      obtain rfl := Option.some.inj h
      exact ⟨rfl, fun _ _ _ => by simp, fun env R => congrArg some (hbne _)⟩
  | nEq =>
      obtain rfl := Option.some.inj h
      exact ⟨rfl, fun _ _ _ => by simp, fun env R => congrArg some (hbne' _)⟩
  | lt =>
      obtain rfl := Option.some.inj h
      exact ⟨rfl, fun _ _ _ => by simp, fun env R => congrArg some (hbne _)⟩
  | gt =>
      obtain rfl := Option.some.inj h
      exact ⟨rfl, fun _ _ _ => by simp, fun env R => congrArg some (hbne _)⟩
  | lEq =>
      obtain rfl := Option.some.inj h
      exact ⟨rfl, fun _ _ _ => by simp, fun env R => congrArg some (hbne _)⟩
  | gEq =>
      obtain rfl := Option.some.inj h
      exact ⟨rfl, fun _ _ _ => by simp, fun env R => congrArg some (hbne _)⟩
  | _ => exact absurd h (by simp [comparisonInstr])

/-- The operand of a comparison: a local stays where it is, a constant is loaded into the next free
register. -/
inductive Operand (c : Ctx) : (Regs → Value) → ℕ → Ctx → Prop
  | local {r : ℕ} {c' : Ctx} (hr : r < c.chunk.nactvar) (ha : Appends c [] c') :
      Operand c (fun R => R r) r c'
  | const {idx : ℕ} {w : Value} {c' : Ctx} (hle : c.chunk.nactvar ≤ c.chunk.freereg)
      (ha : Appends c [Instruction.load c.chunk.freereg idx] c')
      (hidx : c'.chunk.constants[idx]? = some w) (hnext : c'.chunk.freereg = c.chunk.freereg + 1) :
      Operand c (fun _ => w) c.chunk.freereg c'

theorem Operand.appends {a : Regs → Value} {r : ℕ} (h : Operand c a r c') :
    ∃ u, u.length ≤ 1 ∧ (∀ i ∈ u, i.isPlain = true) ∧ Appends c u c' := by
  cases h with
  | «local» hr ha => exact ⟨[], by simp, by simp, ha⟩
  | const hle ha hidx hnext =>
      refine ⟨_, by simp, fun i hi => ?_, ha⟩
      obtain rfl := List.mem_singleton.1 hi
      rfl

/-- The code of an operand puts it into its register. -/
theorem Operand.run {a : Regs → Value} {r lo : ℕ} (h : Operand c a r c')
    (hlo : lo ≤ c.chunk.tape.length) {env : CodeEnv} (henv : c'.chunk.constants <+: env.constants)
    (R : Regs) : Run env lo c'.chunk.tape [] (c.chunk.tape.length, R)
      (c'.chunk.tape.length, Function.update R r (a R)) := by
  cases h with
  | «local» hr ha =>
      rw [Function.update_eq_self, ha.tape, List.append_nil]
  | @const idx w _ hle ha hidx hnext =>
      have hload : c'.chunk.tape[c.chunk.tape.length]? =
          some (Instruction.load c.chunk.freereg idx) := by
        rw [ha.tape]
        simp
      refine ReflTransGen.single ⟨hlo, List.not_mem_nil, _, hload, ?_⟩
      obtain ⟨u, hu⟩ := henv
      rw [if_neg List.not_mem_nil]
      simp only [Instruction.exec, ← hu,
        List.getElem?_append_left (List.getElem?_eq_some_iff.1 hidx).1, hidx]
      simp [ha.tape]

/-- Loading one operand does not disturb the other. -/
theorem Operand.pair {a a' : Regs → Value} {l r : ℕ} (h : Operand c a l c')
    (h' : Operand c' a' r c'')
    (R : Regs) :
    let R' := Function.update R l (a R)
    let R'' := Function.update R' r (a' R')
    R'' l = a R ∧ R'' r = a' R ∧ ∀ x < c.chunk.nactvar, R'' x = R x := by
  cases h with
  | «local» hl ha =>
      simp only [Function.update_eq_self]
      cases h' with
      | «local» hr ha' => simp
      | const hle ha' hidx hnext =>
          have hn := ha.nactvar
          refine ⟨Function.update_of_ne (by omega) _ _, Function.update_self _ _ _, fun x hx => ?_⟩
          exact Function.update_of_ne (by omega) _ _
  | const hle ha hidx hnext =>
      have hn := ha.nactvar
      cases h' with
      | «local» hr ha' =>
          simp only [Function.update_eq_self]
          refine ⟨Function.update_self _ _ _, Function.update_of_ne (by omega) _ _, fun x hx => ?_⟩
          exact Function.update_of_ne (by omega) _ _
      | const hle' ha' hidx' hnext' =>
          refine ⟨?_, Function.update_self _ _ _, fun x hx => ?_⟩
          · rw [Function.update_of_ne (by omega), Function.update_self]
          · rw [Function.update_of_ne (by omega), Function.update_of_ne (by omega)]

/-- Instructions that stand alone. -/
theorem Shape.plains {T u : List Instruction} (hu : ∀ i ∈ u, i.isPlain = true) :
    Shape T.length (T ++ u) [] [] := by
  induction u generalizing T with
  | nil => simpa using Shape.nil T
  | cons i u ih =>
      have h := (Shape.plain (T := T) (hu i List.mem_cons_self)).append
        (ih (T := T ++ [i]) fun j hj => hu j (List.mem_cons_of_mem _ hj)) (prefix_append _ _)
      simpa using h

/-- A comparison behind the code of its operands. -/
theorem Frag.compare {K : List Value} {nactvar : ℕ} {T u : List Instruction} {cmp : Instruction}
    (hu : ∀ i ∈ u, i.isPlain = true) (hc : cmp.isControl = true)
    (hni : ∀ dst src x, cmp ≠ Instruction.testset dst src x)
    (hrun : ∀ env : CodeEnv, K <+: env.constants → ∀ R, ∃ R',
      Run env T.length (T ++ u) [] (T.length, R) ((T ++ u).length, R') ∧
        (∀ r < nactvar, R' r = R r) ∧ ∃ x, cmp.skips env R' = some (!x) ∧
          val env R = Value.boolean x) :
    Frag K T.length nactvar (T ++ u ++ [cmp, Instruction.jmp 0]) [(T ++ u).length + 1] [] val
      (LeavesAtHead (T ++ u ++ [cmp, Instruction.jmp 0])
        ⟨ExprKind.jump (some ((T ++ u).length + 1)), [], []⟩ ((T ++ u).length + 1) false) := by
  have hpend : cmp.Pending := by
    cases cmp with
    | testset dst src x => exact absurd rfl (hni dst src x)
    | _ => exact trivial
  refine ⟨?_, fun env henv R => ?_⟩
  · have h := (Shape.plains (T := T) hu).append
      (Shape.pair (T := T ++ u) (o := 0) hc hpend) (prefix_append _ _)
    simpa using h
  · obtain ⟨R', hr, hbelow, x, hskip, hv⟩ := hrun env henv R
    refine ⟨_, hr.refines (Refines.append (prefix_append _ _) fun y hy => ?_), hbelow,
      Or.inl ⟨rfl, cmp, !x, getElem?_append_length_add (T ++ u) _ 0, hskip, ?_⟩⟩
    · obtain rfl := List.mem_singleton.1 hy
      exact Or.inr (by omega)
    · rw [hv]
      cases x <;> rfl

theorem comparison_spec {op : BinaryOperator} {lhs rhs : CompileM ℕ} {a a' : Regs → Value}
    {l r : ℕ} {c₁ c₂ : Ctx} (hl : lhs c = Except.ok (l, c₁)) (hr : rhs c₁ = Except.ok (r, c₂))
    (h₁ : Operand c a l c₁) (h₂ : Operand c₁ a' r c₂)
    (h : comparisonDesc op lhs rhs c = Except.ok (d, c')) :
    Code c 4 c' d.pending
        (fun env R => Value.boolean (comparisonHolds env op (a R) (a' R)))
        (fun T => Evaluates T d) ∧
      Fit c c' d := by
  unfold comparisonDesc at h
  rw [bind_of_eq hl, bind_of_eq hr] at h
  cases hinstr : comparisonInstr op l r with
  | none =>
      simp only [hinstr] at h
      exact absurd h (by simp [ice, err_eq_ok])
  | some cmp =>
      simp only [hinstr] at h
      obtain ⟨hcmp, hni, hskips⟩ := comparisonInstr_spec hinstr
      obtain ⟨u₃, c₃, h₃, h⟩ := bind_eq_ok.1 h
      obtain ⟨j, c₄, h₄, h⟩ := bind_eq_ok.1 h
      obtain ⟨u₅, c₅, h₅, h⟩ := bind_eq_ok.1 h
      obtain ⟨rfl, rfl⟩ := pure_eq_ok.1 h
      have ha₃ := appends_emit h₃
      obtain ⟨rfl, ha₄⟩ := appends_emitUnfilledJmp h₄
      have hquiet := freeRegs_spec h₅
      obtain ⟨u, hlen, hu, ha₁⟩ := h₁.appends
      obtain ⟨u', hlen', hu', ha₂⟩ := h₂.appends
      have hall := ((ha₁.trans ha₂).trans (ha₃.trans ha₄)).trans hquiet.appends
      rw [List.append_nil] at hall
      have htape₂ : c₂.chunk.tape = c.chunk.tape ++ (u ++ u') := (ha₁.trans ha₂).tape
      have hjmp : c₃.chunk.tape.length = (c.chunk.tape ++ (u ++ u')).length + 1 := by
        rw [ha₃.tape, htape₂, List.length_append, List.length_singleton]
      have htape : c₅.chunk.tape =
          c.chunk.tape ++ (u ++ u') ++ [cmp, Instruction.jmp 0] := by
        rw [hall.tape, ← List.append_assoc]
        rfl
      have hfrag : Frag c₅.chunk.constants c.chunk.tape.length c.chunk.nactvar
          (c.chunk.tape ++ (u ++ u') ++ [cmp, Instruction.jmp 0])
          [(c.chunk.tape ++ (u ++ u')).length + 1] []
          (fun env R => Value.boolean (comparisonHolds env op (a R) (a' R)))
          (LeavesAtHead (c.chunk.tape ++ (u ++ u') ++ [cmp, Instruction.jmp 0])
            ⟨ExprKind.jump (some ((c.chunk.tape ++ (u ++ u')).length + 1)), [], []⟩
            ((c.chunk.tape ++ (u ++ u')).length + 1) false) := by
        refine Frag.compare (fun i hi => (List.mem_append.1 hi).elim (hu i) (hu' i)) hcmp hni ?_
        intro env henv R
        have hK₁ : c₁.chunk.constants <+: env.constants :=
          (((ha₂.constants.trans ha₃.constants).trans ha₄.constants).trans hquiet.constants).trans
            henv
        have hK₂ : c₂.chunk.constants <+: env.constants :=
          ((ha₃.constants.trans ha₄.constants).trans hquiet.constants).trans henv
        obtain ⟨hvl, hvr, hbelow⟩ := h₁.pair h₂ R
        have hrun₁ := h₁.run (Nat.le_refl _) hK₁ R
        have hlo : c.chunk.tape.length ≤ c₁.chunk.tape.length := by
          rw [ha₁.tape, List.length_append]
          omega
        have hrun₂ := h₂.run hlo hK₂ (Function.update R l (a R))
        have hpre : c₁.chunk.tape <+: c₂.chunk.tape := by
          rw [ha₂.tape]
          exact prefix_append _ _
        have hrun := (hrun₁.refines (Refines.append hpre fun x hx => Or.inl hx)).trans hrun₂
        rw [htape₂] at hrun
        refine ⟨_, hrun, hbelow, _, ?_, rfl⟩
        rw [hskips, hvl, hvr]
      have hsince : c₅.since c = [] := by
        rw [hall.since, Ctx.since_self]
      refine ⟨⟨hall.toKeeps.mono ?_, ?_, ?_⟩, ⟨⟨?_, fun idx hk => ?_⟩, fun x hk => ?_⟩⟩
      · simp only [List.length_append, List.length_singleton]
        omega
      · rw [hall.tape]
        exact prefix_append _ _
      · rw [hsince, htape, hjmp]
        exact hfrag
      · exact fun hk => absurd hk (by simp)
      · obtain rfl := Option.some.inj (ExprKind.jump.inj hk)
        refine ⟨?_, ?_, cmp, ?_, hcmp, hni⟩
        · rw [htape, hjmp]
          simp only [List.length_append, List.length_cons, List.length_nil]
        · rw [hsince]
          exact fun k t hm => absurd hm List.not_mem_nil
        · rw [htape, hjmp, Nat.add_sub_cancel]
          exact getElem?_append_length_add _ _ 0
      · exact absurd hk (by simp)

end Tcvm
