/-
What the jump-list primitives do to a fragment.

An expression descriptor says where the value of an expression is when its code falls through, and
which holes the code leaves through; `Evaluates` reads it that way.  Once the descriptor has been
absorbed into a branch, falling through only tells the truthiness (`Branch`).  The rules below
transform fragments as the primitives transform the tape.

## Main definitions

* `Holds`, `Evaluates`, `Branch` — outcomes of a descriptor;
* `Head` — the pending head of a descriptor stands at the end of the code;
* `Rewire` — holes are filled.

## Main results

* `Frag.branch_reg`, `Frag.branch_head`, `Frag.flip`: **absorbing a descriptor into a branch**;
* `Frag.elide`: **dropping a trailing jump** over which nothing has been patched;
* `Frag.rewire`: filling holes;
* `Frag.join`: the code of a second operand behind a branch.
-/

import Tcvm.Fragment

namespace Tcvm

open Relation (ReflTransGen)

/-! ### Outcomes of a descriptor -/

namespace ExprDesc

/-- The exits of an expression with truthiness `b`. -/
def exits (d : ExprDesc) (b : Bool) : List ℕ := if b then d.trueList else d.falseList

/-- Replace the exits with truthiness `b`. -/
def setExits (d : ExprDesc) (b : Bool) (list : List ℕ) : ExprDesc :=
  if b then { d with trueList := list } else { d with falseList := list }

/-- The pending head. -/
def head (d : ExprDesc) : List ℕ :=
  match d.kind with
  | ExprKind.jump (some idx) => [idx]
  | _ => []

/-- The pending jumps in the lists. -/
def jumps (d : ExprDesc) : List ℕ := d.trueList ++ d.falseList

/-- All pending jumps. -/
def pending (d : ExprDesc) : List ℕ := d.head ++ d.jumps

theorem mem_jumps {d : ExprDesc} {h : ℕ} : h ∈ d.jumps ↔ ∃ b, h ∈ d.exits b := by
  simp [jumps, exits, or_comm]

theorem jumps_perm (d : ExprDesc) (b : Bool) : (d.exits b ++ d.exits (!b)).Perm d.jumps := by
  cases b
  · exact List.perm_append_comm
  · exact List.Perm.refl _

end ExprDesc

/-- The control in front of the pending head `idx`: the value of the expression is `b` when it skips
the head, and `!b` when it does not. -/
def AtHead (env : CodeEnv) (T : List Instruction) (idx : ℕ) (b : Bool) (v : Value) (s : ℕ × Regs) :
    Prop :=
  s.1 + 1 = idx ∧ ∃ i c, T[s.1]? = some i ∧ i.skips env s.2 = some c ∧ v = Value.boolean (c == b)

/-- The code falls through in `P`, or leaves through an exit. -/
def Leaves (T : List Instruction) (d : ExprDesc) (P : Value → Regs → Prop)
    (env : CodeEnv) (v : Value)
    (s : ℕ × Regs) : Prop :=
  (s.1 = T.length ∧ P v s.2) ∨ ∃ b, Exit env T (d.exits b) b v s

/-- The code ends in front of the pending head, or leaves through an exit. -/
def LeavesAtHead (T : List Instruction) (d : ExprDesc) (idx : ℕ) (b : Bool)
    (env : CodeEnv) (v : Value)
    (s : ℕ × Regs) : Prop :=
  AtHead env T idx b v s ∨ ∃ b', Exit env T (d.exits b') b' v s

/-- The value of a descriptor is in its register, or known at compile time. -/
def KindValue (kind : ExprKind) (v : Value) (R : Regs) : Prop :=
  match kind with
  | ExprKind.reg r => R r = v
  | kind => constKindToValue kind = some v

/-- The outcomes of an expression. -/
def Evaluates (T : List Instruction) (d : ExprDesc) : CodeEnv → Value → ℕ × Regs → Prop :=
  match d.kind with
  | ExprKind.jump (some idx) => LeavesAtHead T d idx false
  | kind => Leaves T d (KindValue kind)

/-- The outcomes of an expression in a branch: it falls through with truthiness `b`. -/
def Branch (T : List Instruction) (d : ExprDesc) (b : Bool) : CodeEnv → Value → ℕ × Regs → Prop :=
  Leaves T d fun v _ => v.truthy = b

/-- The pending head of a descriptor is the comparison at the end of the code, and nothing has been
patched to a position behind that. -/
def Head (T : List Instruction) (d : ExprDesc) (events : List Event) : Prop :=
  d.kind ≠ ExprKind.jump none ∧ ∀ idx, d.kind = ExprKind.jump (some idx) →
    idx + 1 = T.length ∧ (∀ k t, Event.patched k t ∈ events → t + 1 ≤ idx) ∧
      ∃ i, T[idx - 1]? = some i ∧ i.isControl = true ∧ ∀ dst src b,
        i ≠ Instruction.testset dst src b

section

variable {K : List Value} {lo nactvar : ℕ} {T T' : List Instruction} {holes holes' : List ℕ}
  {events events' : List Event} {val val' : CodeEnv → Regs → Value} {d : ExprDesc} {b : Bool}

theorem Exit.mem_jumps {env : CodeEnv} {v : Value} {s : ℕ × Regs}
    (h : Exit env T (d.exits b) b v s) :
    s.1 + 1 ∈ d.jumps := ExprDesc.mem_jumps.2 ⟨b, h.mem⟩

theorem prefix_append (T u : List Instruction) : T <+: T ++ u := List.prefix_append T u

/-! ### Absorbing a descriptor into a branch -/

/-- A constant with truthiness `b` needs no code. -/
theorem Frag.branch_const (h : Frag K lo nactvar T holes events val (Evaluates T d)) {v : Value}
    (hv : constKindToValue d.kind = some v) (hb : v.truthy = b) :
    Frag K lo nactvar T holes events val (Branch T d b) := by
  refine h.weaken fun env w s hq => ?_
  unfold Evaluates at hq
  cases hk : d.kind with
  | reg r => rw [hk] at hv; exact absurd hv (by simp [constKindToValue])
  | jump p => rw [hk] at hv; exact absurd hv (by simp [constKindToValue])
  | _ =>
      rw [hk] at hq hv
      rcases hq with ⟨hpc, hw⟩ | hq
      · obtain rfl := Option.some.inj (hv.symm.trans hw)
        exact Or.inl ⟨hpc, hb⟩
      · exact Or.inr hq

/-- The test of a register: fall through with truthiness `b`, leave through a new hole otherwise. -/
theorem Frag.branch_reg (h : Frag K lo nactvar T d.jumps events val (Evaluates T d)) {r : ℕ}
    (hk : d.kind = ExprKind.reg r) :
    Frag K lo nactvar (T ++ [Instruction.testset noReg r b, Instruction.jmp 0])
      ([T.length + 1] ++ d.jumps) events val
      (Branch (T ++ [Instruction.testset noReg r b, Instruction.jmp 0])
        (d.setExits (!b) (d.exits (!b) ++ [T.length + 1])) b) := by
  have hpair : Shape T.length (T ++ [Instruction.testset noReg r b, Instruction.jmp 0])
      [T.length + 1] [] := Shape.pair rfl rfl
  have hshape := h.shape.append hpair (prefix_append _ _)
  rw [List.append_nil] at hshape
  have hr : Refines T d.jumps (T ++ [Instruction.testset noReg r b, Instruction.jmp 0])
      ([T.length + 1] ++ d.jumps) := by
    refine Refines.append (prefix_append _ _) fun x hx => ?_
    rcases List.mem_append.1 hx with hm | hm
    · obtain rfl := List.mem_singleton.1 hm
      exact Or.inr (by omega)
    · exact Or.inl hm
  have hctrl : (T ++ [Instruction.testset noReg r b, Instruction.jmp 0])[T.length]? =
      some (Instruction.testset noReg r b) := getElem?_append_length_add T _ 0
  refine h.extend (List.prefix_refl _) hshape hr fun env R s _ _ hq => ?_
  unfold Evaluates at hq
  rw [hk] at hq
  rcases hq with ⟨hpc, hval⟩ | ⟨b', hq⟩
  · have hval : s.2 r = val env R := hval
    by_cases hb : (val env R).truthy = b
    · refine ⟨(T.length + 2, s.2), ReflTransGen.single ⟨?_, ?_, ?_⟩, fun _ _ => rfl, ?_⟩
      · rw [hpc]
        exact h.shape.le
      · rw [hpc]
        intro hm
        rcases List.mem_append.1 hm with hm | hm
        · exact absurd (List.mem_singleton.1 hm) (by omega)
        · exact absurd (h.shape.hole _ hm).lt_length (by omega)
      · refine ⟨_, by rw [hpc]; exact hctrl, ?_⟩
        rw [if_pos (by rw [hpc]; exact List.mem_append_left _ (List.mem_singleton.2 rfl))]
        refine ⟨?_, by rw [hpc]⟩
        simp [Instruction.skips, hval, hb]
      · exact Or.inl ⟨by simp, hb⟩
    · refine ⟨s, ReflTransGen.refl, fun _ _ => rfl, Or.inr ⟨!b, ?_, ?_, ?_⟩⟩
      · rw [hpc]
        cases b <;> simp [ExprDesc.exits, ExprDesc.setExits]
      · cases hv : (val env R).truthy <;> simp_all
      · refine ⟨Instruction.testset noReg r b, by rw [hpc]; exact hctrl, ?_, hval⟩
        simp only [Instruction.skips, hval]
        cases hv : (val env R).truthy <;> cases b <;> simp_all
  · refine ⟨s, ReflTransGen.refl, fun _ _ => rfl, Or.inr ⟨b', hq.mono ?_ ?_⟩⟩
    · intro hm
      cases b <;> cases b' <;> simp_all [ExprDesc.exits, ExprDesc.setExits]
    · intro i hi
      rw [List.getElem?_append_left (List.getElem?_eq_some_iff.1 hi).1]
      exact hi

/-- The head becomes a hole that the code leaves through with truthiness `!b`. -/
theorem Frag.branch_head {idx : ℕ}
    (h : Frag K lo nactvar T (idx :: d.jumps) events val (LeavesAtHead T d idx b))
    (hidx : idx + 1 = T.length)
    (hcmp : ∃ i, T[idx - 1]? = some i ∧ ∀ dst src c, i ≠ Instruction.testset dst src c) :
    Frag K lo nactvar T (idx :: d.jumps) events val
      (Leaves T (d.setExits (!b) (d.exits (!b) ++ [idx])) fun v _ => v = Value.boolean b) := by
  refine h.extend (List.prefix_refl _) h.shape (Refines.refl _ _) fun env R s _ _ hq => ?_
  have hlo := (h.shape.hole idx List.mem_cons_self).lt
  rcases hq with ⟨hpc, i, c, hi, hskip, hv⟩ | ⟨b', hq⟩
  · have hpred : s.1 = idx - 1 := by omega
    cases c with
    | true =>
        refine ⟨(s.1 + 2, s.2), ReflTransGen.single ⟨by omega, ?_, i, hi, ?_⟩, fun _ _ => rfl, ?_⟩
        · rw [hpred]
          exact h.shape.control_not_mem List.mem_cons_self
        · rw [if_pos (by rw [hpc]; exact List.mem_cons_self)]
          exact ⟨hskip, rfl⟩
        · refine Or.inl ⟨by simp only; omega, ?_⟩
          rw [hv]
          cases b <;> rfl
    | false =>
        refine ⟨s, ReflTransGen.refl, fun _ _ => rfl, Or.inr ⟨!b, ?_, ?_, i, hi, hskip, ?_⟩⟩
        · rw [hpc]
          cases b <;> simp [ExprDesc.exits, ExprDesc.setExits]
        · rw [hv]
          cases b <;> simp
        · obtain ⟨j, hj, hne⟩ := hcmp
          rw [← hpred] at hj
          obtain rfl := Option.some.inj (hi.symm.trans hj)
          rw [hv]
          cases i <;> simp_all [Instruction.Carries]
  · refine ⟨s, ReflTransGen.refl, fun _ _ => rfl, Or.inr ⟨b', hq.mono ?_ fun i hi => hi⟩⟩
    intro hm
    cases b <;> cases b' <;> simp_all [ExprDesc.exits, ExprDesc.setExits]

/-! ### Flipping the head -/

theorem Instruction.skips_flip {i i' : Instruction} (h : i.flip = some i')
    (env : CodeEnv) (R : Regs) :
    i'.skips env R = (i.skips env R).map Bool.not := by
  have hbne : ∀ x y : Bool, (x != !y) = !(x != y) := by decide
  have hbeq : ∀ x y : Bool, (x == !y) = !(x == y) := by decide
  cases i with
  | eq lhs rhs inverted => obtain rfl := Option.some.inj h; exact congrArg some (hbne _ _)
  | lt lhs rhs inverted => obtain rfl := Option.some.inj h; exact congrArg some (hbne _ _)
  | le lhs rhs inverted => obtain rfl := Option.some.inj h; exact congrArg some (hbne _ _)
  | test src inverted => obtain rfl := Option.some.inj h; exact congrArg some (hbne _ _)
  | testset dst src inverted => obtain rfl := Option.some.inj h; exact congrArg some (hbeq _ _)
  | _ => exact absurd h (by simp [Instruction.flip])

theorem Instruction.isControl_flip {i i' : Instruction} (h : i.flip = some i') :
    i'.isControl = true := by
  cases i <;> simp [Instruction.flip] at h <;> subst h <;> rfl

theorem Instruction.flip_testset {i : Instruction} {dst src : ℕ} {b : Bool}
    (h : i.flip = some (Instruction.testset dst src b)) :
    ∃ c, i = Instruction.testset dst src c := by
  cases i <;> simp [Instruction.flip] at h
  obtain ⟨rfl, rfl, -⟩ := h
  exact ⟨_, rfl⟩

/-- Some controls are replaced by others. -/
structure Recontrol (T T' : List Instruction) : Prop where
  length : T'.length = T.length
  plain : ∀ (k : ℕ) (i : Instruction), T[k]? = some i → i.isControl = false → T'[k]? = some i
  control : ∀ (k : ℕ) (i : Instruction), T[k]? = some i → i.isControl = true →
    ∃ i', T'[k]? = some i' ∧ i'.isControl = true ∧ (i.Pending → i'.Pending) ∧
      ∀ src c, i' = Instruction.testset noReg src c →
        ∃ src' c', i = Instruction.testset noReg src' c'

theorem Recontrol.back (hr : Recontrol T T') {k : ℕ} {j : Instruction} (hj : T'[k]? = some j) :
    ∃ i, T[k]? = some i ∧ (i.isControl = false → i = j) ∧ (i.isControl = true →
      j.isControl = true ∧ ∀ src c, j = Instruction.testset noReg src c →
        ∃ src' c', i = Instruction.testset noReg src' c') := by
  have hlt : k < T.length := by
    rw [← hr.length]
    exact (List.getElem?_eq_some_iff.1 hj).1
  have hi : T[k]? = some T[k] := List.getElem?_eq_getElem hlt
  refine ⟨T[k], hi, fun hc => ?_, fun hc => ?_⟩
  · exact Option.some.inj ((hr.plain _ _ hi hc).symm.trans hj)
  · obtain ⟨i', hi', hc', -, hset⟩ := hr.control _ _ hi hc
    obtain rfl := Option.some.inj (hi'.symm.trans hj)
    exact ⟨hc', hset⟩

theorem Shape.recontrol (hs : Shape lo T holes events) (hr : Recontrol T T') :
    Shape lo T' holes events := by
  have hback : ∀ (k : ℕ) (j : Instruction), j.isControl = false → T'[k]? = some j →
      T[k]? = some j := by
    intro k j hj hk
    obtain ⟨i, hi, hplain, hctrl⟩ := hr.back hk
    cases hc : i.isControl with
    | false => rw [hi, hplain hc]
    | true => exact absurd (hctrl hc).1 (by simp [hj])
  refine ⟨by rw [hr.length]; exact hs.le, ?_, hs.nodup, ?_, ?_, ?_, ?_, ?_⟩
  · intro h hm
    obtain ⟨hlo, ⟨o, ho⟩, j, hj, hjc, hjp⟩ := hs.hole h hm
    obtain ⟨i', hi', hc', hp', -⟩ := hr.control _ _ hj hjc
    exact ⟨hlo, ⟨o, hr.plain _ _ ho rfl⟩, i', hi', hc', hp' hjp⟩
  · intro k j hk hj hjc
    obtain ⟨i, hi, hplain, -⟩ := hr.back hj
    have hc : i.isControl = true := by
      cases hc : i.isControl with
      | true => rfl
      | false => rw [hplain hc] at hc; exact absurd hjc (by simp [hc])
    obtain ⟨o, ho⟩ := hs.follow k i hk hi hc
    exact ⟨o, hr.plain _ _ ho rfl⟩
  · intro k r hk hj
    obtain ⟨dst, idx, hload⟩ := hs.fixup k r hk (hback _ _ rfl hj)
    exact ⟨dst, idx, hr.plain _ _ hload rfl⟩
  · intro k o hk hj hm
    exact hs.aimed k o hk (hback _ _ rfl hj) hm
  · intro k t ht
    rw [hr.length]
    exact hs.bounded k t ht
  · intro k src inverted hk hj
    obtain ⟨i, hi, hplain, hctrl⟩ := hr.back hj
    cases hc : i.isControl with
    | false =>
        rw [hplain hc] at hi
        exact hs.placeholder k src inverted hk hi
    | true =>
        obtain ⟨src', c', rfl⟩ := (hctrl hc).2 src inverted rfl
        exact hs.placeholder k src' c' hk hi

theorem Recontrol.set {p : ℕ} {i i' : Instruction} (hi : T[p]? = some i) (hc : i.isControl = true)
    (hc' : i'.isControl = true) (hpend : i.Pending → i'.Pending)
    (hset : ∀ src c, i' = Instruction.testset noReg src c →
      ∃ src' c', i = Instruction.testset noReg src' c') : Recontrol T (T.set p i') where
  length := List.length_set
  plain k j hj hjc := by
    rw [List.getElem?_set_ne, hj]
    rintro rfl
    obtain rfl := Option.some.inj (hi.symm.trans hj)
    exact absurd hc (by simp [hjc])
  control k j hj hjc := by
    rcases eq_or_ne p k with rfl | hne
    · obtain rfl := Option.some.inj (hi.symm.trans hj)
      exact ⟨i', List.getElem?_set_self (List.getElem?_eq_some_iff.1 hi).1, hc', hpend, hset⟩
    · refine ⟨j, by rw [List.getElem?_set_ne hne, hj], hjc, id, fun src c h => ⟨src, c, h⟩⟩

/-- Flip the comparison in front of the head: the head is taken in the other case. -/
theorem Frag.flip {idx : ℕ} {i i' : Instruction}
    (h : Frag K lo nactvar T (idx :: d.jumps) events val (LeavesAtHead T d idx b))
    (hsmall : T.length ≤ 2 ^ 31) (hidx : idx + 1 = T.length)
    (ht : ∀ k t, Event.patched k t ∈ events → t + 1 ≤ idx)
    (hi : T[idx - 1]? = some i) (hc : i.isControl = true)
    (hcmp : ∀ dst src c, i ≠ Instruction.testset dst src c) (hflip : i.flip = some i') :
    Frag K lo nactvar (T.set (idx - 1) i') (idx :: d.jumps) events val
      (LeavesAtHead (T.set (idx - 1) i') d idx (!b)) := by
  have hlo := (h.shape.hole idx List.mem_cons_self).lt
  have hlt := (List.getElem?_eq_some_iff.1 hi).1
  have hnot : ∀ dst src c, i' ≠ Instruction.testset dst src c := by
    rintro dst src c rfl
    obtain ⟨c', rfl⟩ := Instruction.flip_testset hflip
    exact hcmp _ _ _ rfl
  have hpend : i'.Pending := by
    cases i' <;> simp_all [Instruction.Pending]
  have hrec : Recontrol T (T.set (idx - 1) i') :=
    Recontrol.set hi hc (Instruction.isControl_flip hflip) (fun _ => hpend)
      fun src c hsrc => absurd hsrc (hnot _ _ _)
  refine ⟨h.shape.recontrol hrec, fun env henv R => ?_⟩
  obtain ⟨s, hrun, hbelow, hq⟩ := h.evals env henv R
  -- up to the flipped control the two tapes agree
  have hsame : T.take (idx - 1) <+: T.set (idx - 1) i' := by
    have htake : (T.set (idx - 1) i').take (idx - 1) = T.take (idx - 1) := by
      rw [List.take_set, List.set_eq_of_length_le (by rw [List.length_take]; omega)]
    rw [← htake]
    exact List.take_prefix _ _
  have hmove : ∀ {x y : ℕ × Regs}, Run env lo (T.take (idx - 1)) (idx :: d.jumps) x y →
      Run env lo (T.set (idx - 1) i') (idx :: d.jumps) x y :=
    fun hxy => hxy.refines (Refines.append hsame fun x hx => Or.inl hx)
  have hexit : s.1 < idx - 1 → ∀ b', Exit env T (d.exits b') b' (val env R) s →
      Exit env (T.set (idx - 1) i') (d.exits b') b' (val env R) s := by
    intro hs b' he
    refine he.mono id fun j hj => ?_
    rwa [List.getElem?_set_ne (by omega)]
  rcases h.shape.run_cut hsmall hi hc (fun k t hm => by have := ht k t hm; omega) (by omega) hrun
    with ⟨hs, hrun'⟩ | ⟨R', hrun', hrest⟩
  · refine ⟨s, hmove hrun', hbelow, ?_⟩
    rcases hq with ⟨hpc, -⟩ | ⟨b', hq⟩
    · omega
    · exact Or.inr ⟨b', hexit hs b' hq⟩
  · have hpred : idx - 1 + 1 = idx := by omega
    rcases Run.last_hole (by rw [hpred]; exact List.mem_cons_self) (by omega) hrest
      with rfl | rfl
    · refine ⟨_, hmove hrun', hbelow, ?_⟩
      rcases hq with ⟨-, j, c, hj, hskip, hv⟩ | ⟨b', hq⟩
      · obtain rfl := Option.some.inj (hi.symm.trans hj)
        refine Or.inl ⟨hpred, i', !c, List.getElem?_set_self hlt, ?_, ?_⟩
        · rw [Instruction.skips_flip hflip, hskip]
          rfl
        · rw [hv]
          cases b <;> cases c <;> rfl
      · have hm := hq.mem_jumps
        rw [hpred] at hm
        exact absurd hm (List.nodup_cons.1 h.shape.nodup).1
    · rcases hq with ⟨hpc, -⟩ | ⟨b', hq⟩
      · simp only at hpc
        omega
      · have := (h.shape.hole _ (List.mem_cons_of_mem _ hq.mem_jumps)).lt_length
        simp only at this
        omega

end

end Tcvm
