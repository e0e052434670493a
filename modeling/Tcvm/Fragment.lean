/-
Fragments of code with holes.

A fragment is the code that an expression has compiled to so far, from a position `lo` to the end of
the tape.  Its holes are the pending jumps.  `Shape` says how such code looks, `Frag` what it does:
from every register file it runs, without touching the registers of locals, to an outcome that says
which value the expression has and where the control is — at the end of the code, or in front of a
hole that is about to be taken.

## Main definitions

* `IsHole`, `Shape` — the form of a fragment;
* `Exit` — the control stands in front of a hole of a list and takes it;
* `Frag` — a fragment with the outcomes of its runs.

## Main results

* `Frag.extend`: **a fragment may be extended and finished, outcome by outcome**;
* `Frag.cut`: the code behind a position can be dropped when nothing jumps over that position.
-/

import Tcvm.BranchMachine

namespace Tcvm

open Relation (ReflTransGen)

namespace Instruction

/-- Has the control of a hole no destination yet? -/
def Pending : Instruction → Prop
  | testset dst _ _ => dst = noReg
  | _ => True

/-- The value of an expression whose control takes a jump: a `TESTSET` preserves its operand, any
other control leaves a boolean. -/
def Carries (R : Regs) (v : Value) : Instruction → Prop
  | testset _ src _ => R src = v
  | _ => v = Value.boolean v.truthy

theorem isControl_downgrade {i : Instruction} (h : i.isControl = true) :
    i.downgrade.isControl = true := by
  cases i with
  | testset dst src inverted =>
      by_cases hdst : dst = noReg <;> simp [downgrade, hdst, isControl]
  | _ => exact h

/-- A control is not a jump. -/
theorem isControl_ne_jmp {i : Instruction} (h : i.isControl = true) (o : ℤ) : i ≠ jmp o := by
  rintro rfl
  simp [isControl] at h

end Instruction

/-! ### The form of a fragment -/

/-- A pending jump with the control in front of it. -/
structure IsHole (lo : ℕ) (T : List Instruction) (h : ℕ) : Prop where
  lt : lo < h
  jmp : ∃ o, T[h]? = some (Instruction.jmp o)
  control : ∃ i, T[h - 1]? = some i ∧ i.isControl = true ∧ i.Pending

/-- The code from `lo` on, with its holes and what has been patched in it. -/
structure Shape (lo : ℕ) (T : List Instruction) (holes : List ℕ) (events : List Event) : Prop where
  le : lo ≤ T.length
  hole : ∀ h ∈ holes, IsHole lo T h
  nodup : holes.Nodup
  /-- Behind a control stands its jump. -/
  follow : ∀ k i, lo ≤ k → T[k]? = some i → i.isControl = true →
    ∃ o, T[k + 1]? = some (Instruction.jmp o)
  /-- `LFALSESKIP` skips a `LOAD`. -/
  fixup : ∀ k r, lo ≤ k → T[k]? = some (Instruction.lfalseskip r) →
    ∃ dst idx, T[k + 1]? = some (Instruction.load dst idx)
  /-- Every jump that is no hole has been patched to a position in the fragment. -/
  aimed : ∀ k o, lo ≤ k → T[k]? = some (Instruction.jmp o) → k ∉ holes →
    ∃ t, Event.patched k t ∈ events ∧ o = jumpOffset k t ∧ lo ≤ t
  /-- No jump has been patched to a position behind the code. -/
  bounded : ∀ k t, Event.patched k t ∈ events → t ≤ T.length
  /-- A `TESTSET` without a destination is the control of a hole. -/
  placeholder : ∀ k src inverted, lo ≤ k →
    T[k]? = some (Instruction.testset noReg src inverted) → k + 1 ∈ holes

theorem IsHole.lt_length {lo h : ℕ} {T : List Instruction} (hh : IsHole lo T h) :
    h < T.length := by
  obtain ⟨o, ho⟩ := hh.jmp
  exact (List.getElem?_eq_some_iff.1 ho).1

/-- The control of a hole is not itself a hole. -/
theorem Shape.control_not_mem {lo : ℕ} {T : List Instruction} {holes : List ℕ}
    {events : List Event} (hs : Shape lo T holes events) {h : ℕ} (hh : h ∈ holes) :
    h - 1 ∉ holes := by
  intro hm
  obtain ⟨i, hi, hc, -⟩ := (hs.hole h hh).control
  obtain ⟨o, ho⟩ := (hs.hole _ hm).jmp
  have heq : i = Instruction.jmp o := Option.some.inj (hi.symm.trans ho)
  exact Instruction.isControl_ne_jmp hc o heq

theorem Shape.nil (T : List Instruction) : Shape T.length T [] [] where
  le := Nat.le_refl _
  hole _ h := absurd h List.not_mem_nil
  nodup := List.nodup_nil
  follow k i hk hi _ := absurd (List.getElem?_eq_some_iff.1 hi).1 (by omega)
  fixup k r hk hi := absurd (List.getElem?_eq_some_iff.1 hi).1 (by omega)
  aimed k o hk hi _ := absurd (List.getElem?_eq_some_iff.1 hi).1 (by omega)
  bounded k t ht := absurd ht List.not_mem_nil
  placeholder k src inverted hk hi := absurd (List.getElem?_eq_some_iff.1 hi).1 (by omega)

/-! ### Outcomes -/

/-- The control in front of a hole of `list` takes it; the value `v` of the expression has the
truthiness `b`. -/
structure Exit (env : CodeEnv) (T : List Instruction) (list : List ℕ) (b : Bool) (v : Value)
    (s : ℕ × Regs) : Prop where
  mem : s.1 + 1 ∈ list
  truthy : v.truthy = b
  stop : ∃ i, T[s.1]? = some i ∧ i.skips env s.2 = some false ∧ i.Carries s.2 v

theorem Exit.mono {env : CodeEnv} {T T' : List Instruction} {list list' : List ℕ}
    {b : Bool} {v : Value}
    {s : ℕ × Regs} (h : Exit env T list b v s) (hlist : s.1 + 1 ∈ list → s.1 + 1 ∈ list')
    (hT : ∀ i, T[s.1]? = some i → T'[s.1]? = some i) : Exit env T' list' b v s := by
  obtain ⟨i, hi, hskip, hcarry⟩ := h.stop
  exact ⟨hlist h.mem, h.truthy, i, hT i hi, hskip, hcarry⟩

/-- What the code from `lo` on does: whatever the registers contain, it runs to an outcome in `Q`
for the value `val`, and leaves the registers below `nactvar` alone.  The constants may still
grow. -/
structure Frag (constants : List Value) (lo nactvar : ℕ) (T : List Instruction) (holes : List ℕ)
    (events : List Event) (val : CodeEnv → Regs → Value)
    (Q : CodeEnv → Value → ℕ × Regs → Prop) : Prop where
  shape : Shape lo T holes events
  evals : ∀ env, constants <+: env.constants → ∀ R, ∃ s, Run env lo T holes (lo, R) s ∧
    (∀ r < nactvar, s.2 r = R r) ∧ Q env (val env R) s

section

variable {K K' : List Value} {lo nactvar : ℕ} {T T' : List Instruction} {holes holes' : List ℕ}
  {events events' : List Event} {val val' : CodeEnv → Regs → Value}
  {Q Q' : CodeEnv → Value → ℕ × Regs → Prop}

/-- Finish a fragment: every outcome runs on to an outcome of the new fragment. -/
theorem Frag.extend (h : Frag K lo nactvar T holes events val Q) (hK : K <+: K')
    (hshape : Shape lo T' holes' events') (hr : Refines T holes T' holes')
    (hQ : ∀ env R s, K' <+: env.constants → (∀ r < nactvar, s.2 r = R r) → Q env (val env R) s →
      ∃ s', Run env lo T' holes' s s' ∧ (∀ r < nactvar, s'.2 r = s.2 r) ∧ Q' env (val' env R) s') :
    Frag K' lo nactvar T' holes' events' val' Q' := by
  refine ⟨hshape, fun env henv R => ?_⟩
  obtain ⟨s, hrun, hbelow, hq⟩ := h.evals env (hK.trans henv) R
  obtain ⟨s', hrun', hbelow', hq'⟩ := hQ env R s henv hbelow hq
  refine ⟨s', (hrun.refines hr).trans hrun', fun r hlt => ?_, hq'⟩
  rw [hbelow' r hlt, hbelow r hlt]

/-- Weaken the outcomes and forget nothing else. -/
theorem Frag.weaken (h : Frag K lo nactvar T holes events val Q)
    (hQ : ∀ env v s, Q env v s → Q' env v s) : Frag K lo nactvar T holes events val Q' :=
  ⟨h.shape, fun env henv R => by
    obtain ⟨s, hrun, hbelow, hq⟩ := h.evals env henv R
    exact ⟨s, hrun, hbelow, hQ env _ s hq⟩⟩

/-! ### Steps of a fragment -/

/-- Where a step can lead: to the next instruction, over a jump or a load, or to where a jump was
patched to. -/
theorem Shape.step_cases (hs : Shape lo T holes events) (hsmall : T.length ≤ 2 ^ 31) {env : CodeEnv}
    {s s' : ℕ × Regs} (h : Step env lo T holes s s') :
    s'.1 = s.1 + 1 ∨
      (s'.1 = s.1 + 2 ∧ ∃ i, T[s.1 + 1]? = some i ∧ i.isControl = false) ∨
      Event.patched s.1 s'.1 ∈ events := by
  obtain ⟨hlo, hpc, i, hi, hstep⟩ := h
  have hctrl : i.isControl = true →
      ∃ j, T[s.1 + 1]? = some j ∧ j.isControl = false := by
    intro hc
    obtain ⟨o, ho⟩ := hs.follow _ _ hlo hi hc
    exact ⟨_, ho, rfl⟩
  have hskips : ∀ b, i.skips env s.2 = some b → i.isControl = true :=
    fun b hb => Instruction.isControl_iff_skips.2 ⟨b, hb⟩
  by_cases hnext : s.1 + 1 ∈ holes
  · rw [if_pos hnext] at hstep
    obtain ⟨hskip, rfl⟩ := hstep
    exact Or.inr (Or.inl ⟨rfl, hctrl (hskips _ hskip)⟩)
  · rw [if_neg hnext] at hstep
    by_cases hc : i.isControl = true
    · obtain ⟨b, hb⟩ := Instruction.isControl_iff_skips.1 hc
      cases b with
      | true =>
          rw [Instruction.exec_of_skips hb] at hstep
          obtain rfl := Option.some.inj hstep
          exact Or.inr (Or.inl ⟨rfl, hctrl hc⟩)
      | false =>
          rw [Instruction.exec_of_not_skips hb] at hstep
          obtain rfl := Option.some.inj hstep
          exact Or.inl rfl
    · cases i with
      | jmp o =>
          obtain ⟨t, ht, rfl, -⟩ := hs.aimed _ _ hlo hi hpc
          have hle := hs.bounded _ _ ht
          have hlt := (List.getElem?_eq_some_iff.1 hi).1
          have hoff : jumpOffset s.1 t = (t : ℤ) - ((s.1 : ℤ) + 1) := by
            unfold jumpOffset
            rw [Int.bmod_eq_of_le] <;> omega
          simp only [Instruction.exec, hoff] at hstep
          have htarget : (s.1 : ℤ) + 1 + ((t : ℤ) - ((s.1 : ℤ) + 1)) = (t : ℤ) := by omega
          rw [htarget] at hstep
          obtain rfl := Option.some.inj hstep
          exact Or.inr (Or.inr ht)
      | lfalseskip r =>
          obtain rfl := Option.some.inj hstep
          obtain ⟨dst, idx, hload⟩ := hs.fixup _ _ hlo hi
          exact Or.inr (Or.inl ⟨rfl, _, hload, rfl⟩)
      | load dst idx =>
          simp only [Instruction.exec, Option.map_eq_some_iff] at hstep
          obtain ⟨v, -, rfl⟩ := hstep
          exact Or.inl rfl
      | move dst src => exact Or.inl (by rw [← Option.some.inj hstep])
      | not dst src => exact Or.inl (by rw [← Option.some.inj hstep])
      | _ => simp_all [Instruction.exec, Instruction.skips, Instruction.isControl]

end

/-! ### Cutting the code -/

section

variable {lo : ℕ} {T : List Instruction} {holes : List ℕ} {events : List Event}

/-- When nothing has been patched to a position behind a control, a run stays in front of that
control or passes it. -/
theorem Shape.run_cut (hs : Shape lo T holes events) (hsmall : T.length ≤ 2 ^ 31)
    {env : CodeEnv} {p : ℕ}
    {i : Instruction} (hi : T[p]? = some i) (hc : i.isControl = true)
    (ht : ∀ k t, Event.patched k t ∈ events → t ≤ p) (hlo : lo ≤ p) {R : Regs} {s : ℕ × Regs}
    (hrun : Run env lo T holes (lo, R) s) :
    (s.1 < p ∧ Run env lo (T.take p) holes (lo, R) s) ∨
      ∃ R', Run env lo (T.take p) holes (lo, R) (p, R') ∧ Run env lo T holes (p, R') s := by
  refine hrun.cut ?_ hlo
  intro a b hab hlt
  rcases hs.step_cases hsmall hab with h | ⟨h, j, hj, hjc⟩ | h
  · omega
  · rcases Nat.lt_or_ge (a.1 + 1) p with hlt' | hge
    · omega
    · obtain hp : a.1 + 1 = p := by omega
      rw [hp] at hj
      obtain rfl := Option.some.inj (hi.symm.trans hj)
      exact absurd hc (by simp [hjc])
  · exact ht _ _ h

/-- In front of the last hole a run stops, or skips the hole and is over. -/
theorem Run.last_hole {env : CodeEnv} {p : ℕ} (hp : p + 1 ∈ holes)
    (hlen : p + 2 = T.length) {R : Regs}
    {s : ℕ × Regs} (hrun : Run env lo T holes (p, R) s) : s = (p, R) ∨ s = (T.length, R) := by
  rcases ReflTransGen.cases_head hrun with h | ⟨x, hx, hrest⟩
  · exact Or.inl h.symm
  · obtain ⟨-, -, i, -, hstep⟩ := hx
    rw [if_pos hp] at hstep
    obtain ⟨-, rfl⟩ := hstep
    rcases ReflTransGen.cases_head hrest with h | ⟨y, hy, -⟩
    · exact Or.inr (by rw [← h, hlen])
    · have := hy.lt_length
      simp only at this
      omega

end

/-! ### Extending the code -/

section

variable {lo : ℕ} {T T' u : List Instruction} {holes holes' : List ℕ} {events events' : List Event}

/-- The form of the code in an appended list of instructions. -/
theorem getElem?_append_length_add (T u : List Instruction) (j : ℕ) :
    (T ++ u)[T.length + j]? = u[j]? := by
  rw [List.getElem?_append_right (by omega), Nat.add_sub_cancel_left]

/-- Fragments that stand one behind the other make one fragment. -/
theorem Shape.append (hs : Shape lo T holes events) (hs' : Shape T.length T' holes' events')
    (hT : T <+: T') : Shape lo T' (holes' ++ holes) (events ++ events') := by
  have hget : ∀ (k : ℕ) (i : Instruction), T[k]? = some i → T'[k]? = some i := by
    obtain ⟨u, rfl⟩ := hT
    intro k i hi
    rw [List.getElem?_append_left (List.getElem?_eq_some_iff.1 hi).1]
    exact hi
  have hback : ∀ (k : ℕ) (i : Instruction), k < T.length → T'[k]? = some i → T[k]? = some i := by
    obtain ⟨u, rfl⟩ := hT
    intro k i hlt hi
    rwa [List.getElem?_append_left hlt] at hi
  have hle := hs.le
  have hlen := hs'.le
  refine ⟨by omega, ?_, ?_, ?_, ?_, ?_, ?_, ?_⟩
  · intro h hh
    rcases List.mem_append.1 hh with hm | hm
    · obtain ⟨hlt, hjmp, hctrl⟩ := hs'.hole h hm
      exact ⟨by omega, hjmp, hctrl⟩
    · obtain ⟨hlt, ⟨o, ho⟩, i, hi, hc⟩ := hs.hole h hm
      exact ⟨hlt, ⟨o, hget _ _ ho⟩, i, hget _ _ hi, hc⟩
  · refine List.nodup_append.2 ⟨hs'.nodup, hs.nodup, fun h hm h' hm' => ?_⟩
    have := (hs'.hole h hm).lt
    have := (hs.hole h' hm').lt_length
    omega
  · intro k i hk hi hc
    rcases Nat.lt_or_ge k T.length with hlt | hge
    · obtain ⟨o, ho⟩ := hs.follow k i hk (hback k i hlt hi) hc
      exact ⟨o, hget _ _ ho⟩
    · exact hs'.follow k i hge hi hc
  · intro k r hk hi
    rcases Nat.lt_or_ge k T.length with hlt | hge
    · obtain ⟨dst, idx, hload⟩ := hs.fixup k r hk (hback _ _ hlt hi)
      exact ⟨dst, idx, hget _ _ hload⟩
    · exact hs'.fixup k r hge hi
  · intro k o hk hi hm
    rcases Nat.lt_or_ge k T.length with hlt | hge
    · obtain ⟨t, ht, hoff, hlo⟩ :=
        hs.aimed k o hk (hback _ _ hlt hi) fun h => hm (List.mem_append_right _ h)
      exact ⟨t, List.mem_append_left _ ht, hoff, hlo⟩
    · obtain ⟨t, ht, hoff, hlo⟩ :=
        hs'.aimed k o hge hi fun h => hm (List.mem_append_left _ h)
      exact ⟨t, List.mem_append_right _ ht, hoff, by omega⟩
  · intro k t ht
    rcases List.mem_append.1 ht with hm | hm
    · have := hs.bounded k t hm
      omega
    · exact hs'.bounded k t hm
  · intro k src inverted hk hi
    rcases Nat.lt_or_ge k T.length with hlt | hge
    · exact List.mem_append_right _ (hs.placeholder k src inverted hk (hback _ _ hlt hi))
    · exact List.mem_append_left _ (hs'.placeholder k src inverted hge hi)

/-- The order of the holes does not matter. -/
theorem Shape.perm (hs : Shape lo T holes events) (hp : holes.Perm holes') :
    Shape lo T holes' events where
  le := hs.le
  hole h hm := hs.hole h (hp.mem_iff.2 hm)
  nodup := hp.nodup_iff.1 hs.nodup
  follow := hs.follow
  fixup := hs.fixup
  aimed k o hk hi hm := hs.aimed k o hk hi fun h => hm (hp.mem_iff.1 h)
  bounded := hs.bounded
  placeholder k src inverted hk hi := hp.mem_iff.1 (hs.placeholder k src inverted hk hi)

/-- Instructions that stand alone: no controls, no jumps and no fixups. -/
def Instruction.isPlain : Instruction → Bool
  | jmp _ => false
  | lfalseskip _ => false
  | i => !i.isControl

theorem Shape.plain {i : Instruction} (hi : i.isPlain = true) :
    Shape T.length (T ++ [i]) [] [] := by
  have hone : ∀ k j, T.length ≤ k → (T ++ [i])[k]? = some j → j = i := by
    intro k j hk hj
    obtain ⟨n, rfl⟩ := Nat.exists_eq_add_of_le hk
    rw [getElem?_append_length_add] at hj
    cases n with
    | zero => exact (Option.some.inj hj).symm
    | succ n => exact absurd hj (by simp)
  refine ⟨by simp, fun h hm => absurd hm List.not_mem_nil, List.nodup_nil, ?_, ?_, ?_,
    fun k t ht => absurd ht List.not_mem_nil, ?_⟩
  · intro k j hk hj hc
    obtain rfl := hone k j hk hj
    cases j <;> simp_all [Instruction.isPlain, Instruction.isControl]
  · intro k r hk hj
    have := hone k _ hk hj
    subst this
    simp [Instruction.isPlain] at hi
  · intro k o hk hj
    have := hone k _ hk hj
    subst this
    simp [Instruction.isPlain] at hi
  · intro k src inverted hk hj
    have := hone k _ hk hj
    subst this
    simp [Instruction.isPlain, Instruction.isControl] at hi

/-- A control with its pending jump. -/
theorem Shape.pair {i : Instruction} {o : ℤ} (hc : i.isControl = true) (hp : i.Pending) :
    Shape T.length (T ++ [i, Instruction.jmp o]) [T.length + 1] [] := by
  have htwo : ∀ k j, T.length ≤ k → (T ++ [i, Instruction.jmp o])[k]? = some j →
      (k = T.length ∧ j = i) ∨ (k = T.length + 1 ∧ j = Instruction.jmp o) := by
    intro k j hk hj
    obtain ⟨n, rfl⟩ := Nat.exists_eq_add_of_le hk
    rw [getElem?_append_length_add] at hj
    match n with
    | 0 => exact Or.inl ⟨rfl, (Option.some.inj hj).symm⟩
    | 1 => exact Or.inr ⟨rfl, (Option.some.inj hj).symm⟩
    | n + 2 => exact absurd hj (by simp)
  have hjmp : (T ++ [i, Instruction.jmp o])[T.length + 1]? = some (Instruction.jmp o) := by
    rw [getElem?_append_length_add]; rfl
  refine ⟨by simp, ?_, by simp, ?_, ?_, ?_, fun k t ht => absurd ht List.not_mem_nil, ?_⟩
  · intro h hm
    obtain rfl := List.mem_singleton.1 hm
    refine ⟨by omega, ⟨o, hjmp⟩, i, ?_, hc, hp⟩
    rw [Nat.add_sub_cancel]
    exact getElem?_append_length_add T _ 0
  · intro k j hk hj hcj
    rcases htwo k j hk hj with ⟨rfl, -⟩ | ⟨-, rfl⟩
    · exact ⟨o, hjmp⟩
    · exact absurd hcj (by simp [Instruction.isControl])
  · intro k r hk hj
    rcases htwo k _ hk hj with ⟨-, h⟩ | ⟨-, h⟩
    · subst h
      simp [Instruction.isControl] at hc
    · exact absurd h (by simp)
  · intro k o' hk hj hm
    rcases htwo k _ hk hj with ⟨-, h⟩ | ⟨rfl, -⟩
    · exact absurd h.symm (Instruction.isControl_ne_jmp hc _)
    · exact absurd (List.mem_singleton.2 rfl) hm
  · intro k src inverted hk hj
    rcases htwo k _ hk hj with ⟨rfl, -⟩ | ⟨-, h⟩
    · exact List.mem_singleton.2 rfl
    · exact absurd h (by simp)

/-- The tail that turns an exit without a value into a boolean, behind a jump over it when `skip` is
set. -/
def fixupTail (n dst idx : ℕ) (skip : Bool) : List Instruction :=
  (if skip then [Instruction.jmp (jumpOffset n (n + 3))] else []) ++
    [Instruction.lfalseskip dst, Instruction.load dst idx]

theorem Shape.fixupTail (dst idx : ℕ) (skip : Bool) :
    Shape T.length (T ++ Tcvm.fixupTail T.length dst idx skip) []
      (if skip then [Event.patched T.length (T.length + 3)] else []) := by
  have hcases : ∀ k j, T.length ≤ k → (T ++ Tcvm.fixupTail T.length dst idx skip)[k]? = some j →
      (skip = true ∧ k = T.length ∧ j = Instruction.jmp (jumpOffset k (k + 3))) ∨
      (j = Instruction.lfalseskip dst ∧
        (T ++ Tcvm.fixupTail T.length dst idx skip)[k + 1]? = some (Instruction.load dst idx)) ∨
      j = Instruction.load dst idx := by
    intro k j hk hj
    obtain ⟨n, rfl⟩ := Nat.exists_eq_add_of_le hk
    have hnext := getElem?_append_length_add T (Tcvm.fixupTail T.length dst idx skip) (n + 1)
    rw [← Nat.add_assoc] at hnext
    rw [hnext]
    rw [getElem?_append_length_add] at hj
    cases skip
    · match n with
      | 0 => exact Or.inr (Or.inl ⟨(Option.some.inj hj).symm, rfl⟩)
      | 1 => exact Or.inr (Or.inr (Option.some.inj hj).symm)
      | n + 2 => exact absurd hj (by simp [Tcvm.fixupTail])
    · match n with
      | 0 => exact Or.inl ⟨rfl, rfl, (Option.some.inj hj).symm⟩
      | 1 => exact Or.inr (Or.inl ⟨(Option.some.inj hj).symm, rfl⟩)
      | 2 => exact Or.inr (Or.inr (Option.some.inj hj).symm)
      | n + 3 => exact absurd hj (by simp [Tcvm.fixupTail])
  refine ⟨by simp, fun h hm => absurd hm List.not_mem_nil, List.nodup_nil, ?_, ?_, ?_, ?_, ?_⟩
  · intro k j hk hj hc
    rcases hcases k j hk hj with ⟨-, -, rfl⟩ | ⟨rfl, -⟩ | rfl <;>
      exact absurd hc (by simp [Instruction.isControl])
  · intro k r hk hj
    rcases hcases k _ hk hj with ⟨-, -, h⟩ | ⟨-, hload⟩ | h
    · exact absurd h (by simp)
    · exact ⟨dst, idx, hload⟩
    · exact absurd h (by simp)
  · intro k o hk hj _
    rcases hcases k _ hk hj with ⟨rfl, rfl, h⟩ | ⟨h, -⟩ | h
    · exact ⟨T.length + 3, by simp, Instruction.jmp.inj h, by omega⟩
    · exact absurd h (by simp)
    · exact absurd h (by simp)
  · intro k t ht
    cases skip
    · exact absurd ht (by simp)
    · simp only [if_true, List.mem_singleton, Event.patched.injEq] at ht
      simp [Tcvm.fixupTail, ht.2]
  · intro k src inverted hk hj
    rcases hcases k _ hk hj with ⟨-, -, h⟩ | ⟨h, -⟩ | h <;> exact absurd h (by simp)

end

end Tcvm
