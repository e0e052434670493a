/-
Running the code of a condition.

The instructions that `and`, `or`, `not` and the comparisons compile to, as the interpreter executes
them, over a tape some of whose jumps still wait for their target.  Such a hole stands behind the
control instruction that decides whether it is taken: a run goes on when the control skips the hole,
and stops in front of the control when it does not.  A run on an unfinished tape is also a run on
every tape that finishes it, which is what makes backpatching compositional.

## Main definitions

* `CodeEnv` — the comparisons and the constants of a function;
* `Instruction.skips`, `Instruction.exec` — the instructions;
* `Step`, `Run` — execution on a tape with holes;
* `Refines` — one tape with holes finishes another.

## Main results

* `Run.refines`: **a run on a tape is a run on every tape that finishes it**;
* `Run.cut`: a run either stays below a position or passes through it;
* `Run.eq_of_stuck`: on a finished tape the final state is unique.
-/

import Mathlib.Logic.Relation
import Tcvm.CompilerJumps

namespace Tcvm

/-- A register file. -/
abbrev Regs := ℕ → Value

/-- What the code of a function refers to: the outcome of the comparisons, which metamethods may
decide, and the constants. -/
structure CodeEnv where
  eq : Value → Value → Bool
  lt : Value → Value → Bool
  le : Value → Value → Bool
  constants : List Value

/-- The truthiness of a value. -/
def Value.truthy (v : Value) : Bool := !v.isFalsy

@[simp] theorem Value.truthy_boolean (b : Bool) : (Value.boolean b).truthy = b := by
  simp [Value.truthy, Value.isFalsy]

namespace Instruction

/-- Does a control instruction skip the instruction behind it? -/
def skips (env : CodeEnv) (R : Regs) : Instruction → Option Bool
  | eq lhs rhs inverted => some (env.eq (R lhs) (R rhs) != inverted)
  | lt lhs rhs inverted => some (env.lt (R lhs) (R rhs) != inverted)
  | le lhs rhs inverted => some (env.le (R lhs) (R rhs) != inverted)
  | test src inverted => some ((R src).truthy != inverted)
  | testset _ src inverted => some ((R src).truthy == inverted)
  | _ => none

/-- The effect of an instruction at `pc`; the instructions that conditions do not compile to are
left out. -/
def exec (env : CodeEnv) (pc : ℕ) (R : Regs) : Instruction → Option (ℕ × Regs)
  | move dst src => some (pc + 1, Function.update R dst (R src))
  | load dst idx => env.constants[idx]?.map fun v => (pc + 1, Function.update R dst v)
  | lfalseskip src => some (pc + 2, Function.update R src (Value.boolean false))
  | not dst src => some (pc + 1, Function.update R dst (Value.boolean (R src).isFalsy))
  | jmp offset => ((pc : ℤ) + 1 + offset).toNat?.map fun t => (t, R)
  | testset dst src inverted =>
      if (R src).truthy = inverted then some (pc + 2, R)
      else some (pc + 1, Function.update R dst (R src))
  | i => (i.skips env R).map fun b => (if b then pc + 2 else pc + 1, R)

theorem isControl_iff_skips {env : CodeEnv} {R : Regs} {i : Instruction} :
    i.isControl = true ↔ ∃ b, i.skips env R = some b := by
  cases i <;> simp [isControl, skips]

/-- A control that skips does nothing else. -/
theorem exec_of_skips {env : CodeEnv} {pc : ℕ} {R : Regs} {i : Instruction}
    (h : i.skips env R = some true) : i.exec env pc R = some (pc + 2, R) := by
  cases i <;> simp_all [exec, skips]

/-- The registers behind a control that does not skip: a `TESTSET` copies its operand. -/
def taken (R : Regs) : Instruction → Regs
  | testset dst src _ => Function.update R dst (R src)
  | _ => R

theorem exec_of_not_skips {env : CodeEnv} {pc : ℕ} {R : Regs} {i : Instruction}
    (h : i.skips env R = some false) : i.exec env pc R = some (pc + 1, i.taken R) := by
  cases i <;> simp [skips] at h <;> simp [exec, skips, taken, h]

/-- Two controls that decide alike. -/
def SameSkips (i i' : Instruction) : Prop := ∀ env R, i'.skips env R = i.skips env R

theorem SameSkips.refl (i : Instruction) : SameSkips i i := fun _ _ => rfl

theorem SameSkips.trans {i j k : Instruction} (h : SameSkips i j) (h' : SameSkips j k) :
    SameSkips i k := fun env R => (h' env R).trans (h env R)

theorem sameSkips_downgrade (i : Instruction) : SameSkips i i.downgrade := by
  intro env R
  cases i with
  | testset dst src inverted =>
      by_cases hdst : dst = noReg
      · simp [downgrade, hdst, skips]
        cases (R src).truthy <;> cases inverted <;> rfl
      · simp [downgrade, hdst]
  | _ => rfl

end Instruction

/-! ### Execution -/

/-- One step on a tape with holes, in the code from `lo` on.  In front of a hole only the skip is a
step. -/
def Step (env : CodeEnv) (lo : ℕ) (T : List Instruction) (holes : List ℕ)
    (s s' : ℕ × Regs) : Prop :=
  lo ≤ s.1 ∧ s.1 ∉ holes ∧ ∃ i, T[s.1]? = some i ∧
    if s.1 + 1 ∈ holes then i.skips env s.2 = some true ∧ s' = (s.1 + 2, s.2)
    else i.exec env s.1 s.2 = some s'

/-- Any number of steps. -/
abbrev Run (env : CodeEnv) (lo : ℕ) (T : List Instruction) (holes : List ℕ) :
    ℕ × Regs → ℕ × Regs → Prop :=
  Relation.ReflTransGen (Step env lo T holes)

variable {env : CodeEnv} {lo : ℕ} {T T' : List Instruction} {holes holes' : List ℕ}

theorem Step.lt_length {s s' : ℕ × Regs} (h : Step env lo T holes s s') : s.1 < T.length := by
  obtain ⟨-, -, i, hi, -⟩ := h
  exact (List.getElem?_eq_some_iff.1 hi).1

/-- Code from a position on may be seen as code from an earlier position on. -/
theorem Run.of_le {lo' : ℕ} {s s' : ℕ × Regs} (h : Run env lo' T holes s s') (hle : lo ≤ lo') :
    Run env lo T holes s s' := by
  induction h with
  | refl => exact Relation.ReflTransGen.refl
  | tail _ hstep ih => exact ih.tail ⟨Nat.le_trans hle hstep.1, hstep.2⟩

/-- `T'` with `holes'` finishes `T` with `holes`: instructions that are not part of a hole stay, and
the controls of holes decide as before. -/
structure Refines (T : List Instruction) (holes : List ℕ) (T' : List Instruction)
    (holes' : List ℕ) : Prop where
  /-- No hole appears where there was none. -/
  sub : ∀ h ∈ holes', h ≤ T.length → h ∈ holes
  plain : ∀ pc i, T[pc]? = some i → pc ∉ holes → pc + 1 ∉ holes → T'[pc]? = some i
  control : ∀ pc i, T[pc]? = some i → pc + 1 ∈ holes →
    ∃ i', T'[pc]? = some i' ∧ i.SameSkips i'

theorem Refines.refl (T : List Instruction) (holes : List ℕ) : Refines T holes T holes where
  sub _ h _ := h
  plain _ _ h _ _ := h
  control _ i h _ := ⟨i, h, Instruction.SameSkips.refl i⟩

theorem Step.refines {s s' : ℕ × Regs} (h : Step env lo T holes s s')
    (hr : Refines T holes T' holes') : Step env lo T' holes' s s' := by
  have hlt := h.lt_length
  obtain ⟨hlo, hpc, i, hi, hs⟩ := h
  refine ⟨hlo, fun hm => hpc (hr.sub _ hm (by omega)), ?_⟩
  by_cases hnext : s.1 + 1 ∈ holes
  · rw [if_pos hnext] at hs
    obtain ⟨i', hi', hsame⟩ := hr.control _ _ hi hnext
    have hskip : i'.skips env s.2 = some true := by rw [hsame]; exact hs.1
    refine ⟨i', hi', ?_⟩
    split
    · exact ⟨hskip, hs.2⟩
    · rw [Instruction.exec_of_skips hskip, hs.2]
  · rw [if_neg hnext] at hs
    refine ⟨i, hr.plain _ _ hi hpc hnext, ?_⟩
    rw [if_neg fun hm => hnext (hr.sub _ hm (by omega))]
    exact hs

/-- A run on a tape is a run on every tape that finishes it. -/
theorem Run.refines {s s' : ℕ × Regs} (h : Run env lo T holes s s')
    (hr : Refines T holes T' holes') : Run env lo T' holes' s s' := by
  induction h with
  | refl => exact Relation.ReflTransGen.refl
  | tail _ hstep ih => exact ih.tail (hstep.refines hr)

/-- Code may be appended, with holes of its own. -/
theorem Refines.append (hT : T <+: T') (hsub : ∀ h ∈ holes', h ∈ holes ∨ T.length < h) :
    Refines T holes T' holes' where
  sub h hm hle := by
    rcases hsub h hm with h' | h'
    · exact h'
    · omega
  plain pc i hi _ _ := by
    obtain ⟨u, rfl⟩ := hT
    rw [List.getElem?_append_left (List.getElem?_eq_some_iff.1 hi).1]
    exact hi
  control pc i hi _ := by
    obtain ⟨u, rfl⟩ := hT
    refine ⟨i, ?_, Instruction.SameSkips.refl i⟩
    rw [List.getElem?_append_left (List.getElem?_eq_some_iff.1 hi).1]
    exact hi

/-- When no step from below `p` goes beyond `p`, a run that starts below `p` stays below it, or
passes through it; up to there it runs on the tape cut at `p`. -/
theorem Run.cut {p : ℕ} {s s' : ℕ × Regs} (h : Run env lo T holes s s')
    (hbound : ∀ a b, Step env lo T holes a b → a.1 < p → b.1 ≤ p) (hs : s.1 ≤ p) :
    (s'.1 < p ∧ Run env lo (T.take p) holes s s') ∨
      ∃ R, Run env lo (T.take p) holes s (p, R) ∧ Run env lo T holes (p, R) s' := by
  have hcut : ∀ a b, Step env lo T holes a b → a.1 < p → Step env lo (T.take p) holes a b := by
    intro a b hab hlt
    obtain ⟨hlo, hpc, i, hi, hstep⟩ := hab
    exact ⟨hlo, hpc, i, by rw [List.getElem?_take_of_lt hlt]; exact hi, hstep⟩
  induction h with
  | refl =>
      rcases Nat.lt_or_ge s.1 p with hlt | hge
      · exact Or.inl ⟨hlt, Relation.ReflTransGen.refl⟩
      · obtain ⟨pc, R⟩ := s
        obtain rfl : pc = p := Nat.le_antisymm hs hge
        exact Or.inr ⟨R, Relation.ReflTransGen.refl, Relation.ReflTransGen.refl⟩
  | @tail b c _ hstep ih =>
      rcases ih with ⟨hlt, hrun⟩ | ⟨R, hrun, hrest⟩
      · have hrun' := hrun.tail (hcut _ _ hstep hlt)
        rcases Nat.lt_or_ge c.1 p with hc | hc
        · exact Or.inl ⟨hc, hrun'⟩
        · obtain ⟨pc, R⟩ := c
          obtain rfl : pc = p := Nat.le_antisymm (hbound _ _ hstep hlt) hc
          exact Or.inr ⟨R, hrun', Relation.ReflTransGen.refl⟩
      · exact Or.inr ⟨R, hrun, hrest.tail hstep⟩

/-! ### Finished tapes -/

theorem Step.eq_of_eq {s a b : ℕ × Regs} (ha : Step env lo T [] s a) (hb : Step env lo T [] s b) :
    a = b := by
  obtain ⟨-, -, i, hi, ha⟩ := ha
  obtain ⟨-, -, j, hj, hb⟩ := hb
  obtain rfl : i = j := Option.some.inj (hi.symm.trans hj)
  simp only [List.not_mem_nil, if_false] at ha hb
  exact Option.some.inj (ha.symm.trans hb)

/-- On a finished tape the state in which a run is over is unique. -/
theorem Run.eq_of_stuck {s a b : ℕ × Regs} (ha : Run env lo T [] s a) (hb : Run env lo T [] s b)
    (hsa : ∀ x, ¬Step env lo T [] a x) (hsb : ∀ x, ¬Step env lo T [] b x) : a = b := by
  induction ha using Relation.ReflTransGen.head_induction_on with
  | refl =>
      rcases Relation.ReflTransGen.cases_head hb with h | ⟨x, hx, -⟩
      · exact h
      · exact absurd hx (hsa x)
  | head hstep _ ih =>
      rcases Relation.ReflTransGen.cases_head hb with h | ⟨x, hx, hrest⟩
      · subst h
        exact absurd hstep (hsb _)
      · obtain rfl := hstep.eq_of_eq hx
        exact ih hrest

end Tcvm
