/-
Binding powers and precedence.

An operator is read by a rule that is no stronger than its left binding power, and its right operand
by the rule of its right binding power.  A tree that has the parentheses it needs is one where the
rules find their operands: a left operand ends at its operator, a right operand is strong enough.

* `BinaryOp.leftPower`, `BinaryOp.rightPower`, `BinaryOp.powers` — the powers of an operator;
* `Continues`, `ExprTree.Closed` — a token that an expression, or an operand in it, goes on with;
* `ExprTree.power_left`, `ExprTree.power_right` — **operands are strong enough**;
* `ExprTree.Proper.closed` — **a left operand ends at its operator**.
-/

import Tcvm.OperatorTrees

namespace Tcvm.Parser

open SyntaxKind

/-! ### Binding powers -/

namespace BinaryOp

def leftPower (op : BinaryOp) : ℕ := ((infixBindingPower op.lexeme.kind).getD (0, 0)).1

def rightPower (op : BinaryOp) : ℕ := ((infixBindingPower op.lexeme.kind).getD (0, 0)).2

theorem infix_eq (op : BinaryOp) :
    infixBindingPower op.lexeme.kind = some (op.leftPower, op.rightPower) := by
  cases op <;> rfl

/-- The binding powers of an operator, from its precedence. -/
theorem powers (op : BinaryOp) :
    (op.rightAssoc = false ∧ op.level ≤ 10 ∧ op.level ≠ 8 ∧ op.leftPower + 1 = 2 * op.level ∧
        op.rightPower = 2 * op.level) ∨
      (op.rightAssoc = true ∧ op.level = 8 ∧ op.leftPower = 16 ∧ op.rightPower = 15) ∨
      (op.rightAssoc = true ∧ op.level = 12 ∧ op.leftPower = 22 ∧ op.rightPower = 21) := by
  cases op <;> decide

end BinaryOp

/-- The binding power of unary operators. -/
def UNARY_POWER : ℕ := 21

theorem UnaryOp.prefix_eq (op : UnaryOp) :
    prefixBindingPower op.lexeme.kind = some UNARY_POWER := by
  cases op <;> rfl

/-- A token that the loop of an expression goes on with. -/
def Continues (t : SyntaxKind) (bp : ℕ) : Bool :=
  t = colon || (t = lParen && decide (bp ≤ CALL_BINDING_POWER)) ||
    (t = lBracket && decide (bp ≤ INDEX_BINDING_POWER)) ||
    match infixBindingPower t with
    | some (lBp, _) => decide (bp ≤ lBp)
    | none => false

theorem continues_binary (op : BinaryOp) (bp : ℕ) :
    Continues op.lexeme.kind bp = decide (bp ≤ op.leftPower) := by
  cases op <;> rfl

/-- What the loosest rule does not go on with, no rule does. -/
theorem continues_of_zero {t : SyntaxKind} {bp : ℕ} (h : Continues t 0 = false) :
    Continues t bp = false := by
  rw [Continues, Bool.or_eq_false_iff, Bool.or_eq_false_iff, Bool.or_eq_false_iff] at h ⊢
  obtain ⟨⟨⟨hcolon, hparen⟩, hbracket⟩, hinfix⟩ := h
  rw [decide_eq_true (Nat.zero_le _), Bool.and_true] at hparen hbracket
  refine ⟨⟨⟨hcolon, by rw [hparen, Bool.false_and]⟩, by rw [hbracket, Bool.false_and]⟩, ?_⟩
  cases hpower : infixBindingPower t with
  | none => rfl
  | some p =>
      rw [hpower] at hinfix
      exact absurd hinfix (by simp)

namespace ExprTree

/-- No operand at the right end of a tree would go on with a token. -/
def Closed : ExprTree → SyntaxKind → Prop
  | unary _ e, t => Continues t UNARY_POWER = false ∧ e.Closed t
  | binary op _ b, t => Continues t op.rightPower = false ∧ b.Closed t
  | _, _ => True

/-- How strong the operator of a tree is. -/
def power : ExprTree → ℕ
  | binary op _ _ => op.leftPower
  | _ => PREFIX_POWER
where PREFIX_POWER : ℕ := 24

theorem closed_of_stop {t : SyntaxKind} (h : Continues t 0 = false) (e : ExprTree) :
    e.Closed t := by
  induction e using induct with
  | unary op e ih => exact ⟨continues_of_zero h, ih⟩
  | binary op a b _ ihb => exact ⟨continues_of_zero h, ihb⟩
  | _ => trivial

/-- A prefix expression has no operand at its right end, and is strong enough for every rule. -/
theorem closed_of_head {e : ExprTree} (h : e.needsPrefix = false) (t : SyntaxKind) :
    e.Closed t := by
  have hlevel : ¬ e.level < PREFIX_LEVEL := of_decide_eq_false h
  cases e with
  | unary op e => exact absurd (show UNARY_LEVEL < PREFIX_LEVEL by decide) hlevel
  | binary op a b => exact absurd (level_lt op) hlevel
  | _ => trivial

theorem power_of_head {e : ExprTree} (h : e.needsPrefix = false) : 21 ≤ e.power := by
  have hlevel : ¬ e.level < PREFIX_LEVEL := of_decide_eq_false h
  cases e with
  | binary op a b => exact absurd (level_lt op) hlevel
  | _ => exact Nat.le_add_right 21 3

theorem needsLeft_eq_false {op : BinaryOp} {a : ExprTree} :
    needsLeft op a = false ↔
      op.level ≤ a.level ∧ (op.rightAssoc = true → op.level < a.level) := by
  rw [needsLeft]
  cases op.rightAssoc with
  | true =>
      rw [if_pos rfl, decide_eq_false_iff_not, Nat.not_le]
      exact ⟨fun h => ⟨Nat.le_of_lt h, fun _ => h⟩, fun h => h.2 rfl⟩
  | false =>
      rw [if_neg Bool.false_ne_true, decide_eq_false_iff_not, Nat.not_lt]
      exact ⟨fun h => ⟨h, fun h' => (by cases h')⟩, fun h => h.1⟩

theorem needsRight_eq_false {op : BinaryOp} {b : ExprTree} (h : needsRight op b = false) :
    b.isUnary = true ∨ (op.level ≤ b.level ∧ (op.rightAssoc = false → op.level < b.level)) := by
  rw [needsRight, Bool.and_eq_false_iff, Bool.not_eq_false'] at h
  rcases h with hunary | h
  · exact Or.inl hunary
  · refine Or.inr ?_
    split at h
    case isTrue hassoc =>
      refine ⟨Nat.le_of_not_lt (of_decide_eq_false h), fun h => ?_⟩
      rw [h] at hassoc
      cases hassoc
    case isFalse hassoc =>
      have hlt := Nat.lt_of_not_le (of_decide_eq_false h)
      exact ⟨Nat.le_of_lt hlt, fun _ => hlt⟩

/-- A left operand is at least as strong as its operator. -/
theorem power_left {op : BinaryOp} {a : ExprTree} (h : needsLeft op a = false) :
    op.leftPower ≤ a.power := by
  obtain ⟨hle, -⟩ := needsLeft_eq_false.mp h
  have hop := op.powers
  cases a with
  | binary q x y =>
      have hq := q.powers
      have hle : op.level ≤ q.level := hle
      show op.leftPower ≤ q.leftPower
      omega
  | _ =>
      show op.leftPower ≤ 24
      omega

/-- A right operand is strong enough to be read. -/
theorem power_right {op : BinaryOp} {b : ExprTree} (h : needsRight op b = false) :
    op.rightPower ≤ b.power := by
  have hop := op.powers
  cases b with
  | binary q x y =>
      have hq := q.powers
      show op.rightPower ≤ q.leftPower
      rcases needsRight_eq_false h with hunary | ⟨hle, hlt⟩
      · exact nomatch hunary
      · have hle : op.level ≤ q.level := hle
        cases hassoc : op.rightAssoc with
        | true =>
            rw [hassoc] at hop
            simp only [Bool.true_eq_false, false_and, false_or, true_and] at hop
            omega
        | false =>
            have hlt : op.level < q.level := hlt hassoc
            omega
  | _ =>
      show op.rightPower ≤ 24
      omega

theorem power_unary {e : ExprTree} (h : e.needsUnary = false) : UNARY_POWER ≤ e.power := by
  have hlevel : ¬ e.level < UNARY_LEVEL := of_decide_eq_false h
  cases e with
  | binary q x y =>
      have hq := q.powers
      have hlevel : ¬ q.level < 11 := hlevel
      show 21 ≤ q.leftPower
      omega
  | _ => exact Nat.le_add_right 21 3

/-- An operator that may stand behind a unary operator is weaker. -/
theorem level_le_ten {op : BinaryOp} (h : op.level < 12) : op.level ≤ 10 := by
  have hop := op.powers
  omega

/-- **A left operand ends at its operator.** -/
theorem Proper.closed {a : ExprTree} (h : Proper a) :
    ∀ {op : BinaryOp}, needsLeft op a = false → a.Closed op.lexeme.kind := by
  induction h with
  | @unary e u h hunary ih =>
      intro op hleft
      obtain ⟨hle, -⟩ := needsLeft_eq_false.mp hleft
      have hle : op.level ≤ 11 := hle
      have hten := level_le_ten (Nat.lt_succ_of_le hle)
      have hlevel : 11 ≤ e.level := Nat.le_of_not_lt (of_decide_eq_false hunary)
      have hop := op.powers
      constructor
      · rw [continues_binary]
        refine decide_eq_false ?_
        show ¬ 21 ≤ op.leftPower
        omega
      · exact ih (needsLeft_eq_false.mpr ⟨by omega, fun _ => by omega⟩)
  | @binary x y q hx hq hy hright ihx ihy =>
      intro op hleft
      obtain ⟨hle, hlt⟩ := needsLeft_eq_false.mp hleft
      have hle : op.level ≤ q.level := hle
      have hlt : op.rightAssoc = true → op.level < q.level := hlt
      have hop := op.powers
      have hpow := q.powers
      -- an operator as strong as `q` is left associative, as `q` is
      have hassoc : op.leftPower < q.rightPower := by
        cases hr : op.rightAssoc with
        | true =>
            have hlt := hlt hr
            omega
        | false =>
            rw [hr] at hop
            simp only [Bool.false_eq_true, false_and, or_false, true_and] at hop
            omega
      refine ⟨?_, ihy (needsLeft_eq_false.mpr ?_)⟩
      · rw [continues_binary]
        exact decide_eq_false (Nat.not_le.mpr hassoc)
      · rcases needsRight_eq_false hright with hunary | ⟨hle', -⟩
        · have hlevel : y.level = 11 := by
            cases y with
            | unary _ _ => rfl
            | _ => exact nomatch hunary
          have hne : op.level < 12 := by
            by_contra hge
            have hr : op.rightAssoc = true := by
              rcases hop with h | h | h
              · omega
              · exact h.1
              · exact h.1
            have hlt := hlt hr
            omega
          have hten := level_le_ten hne
          omega
        · exact ⟨Nat.le_trans hle hle', fun hr => Nat.lt_of_lt_of_le (hlt hr) hle'⟩
  | _ => exact fun _ => trivial

end ExprTree

end Tcvm.Parser
