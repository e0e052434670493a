/-
Discharging a fragment into a register.

Behind the code stands, where it is needed, the tail that loads `false` or `true`.  Every exit that
preserved its operand copies it into the register and goes behind the tail, every other exit goes to
the load of its boolean.

## Main definitions

* `Instruction.aim` — what becomes of the control of an exit;
* `Tail` — when the tail is needed and when it is jumped over.

## Main results

* `Frag.discharge`: **the value is in the register when the code is over, and no hole is left**.
-/

import Tcvm.FragmentPatch

namespace Tcvm

open Relation (ReflTransGen)

namespace Instruction

/-- The control of an exit that is discharged to `reg`. -/
def aim (reg : ℕ) : Instruction → Instruction
  | testset dst src inverted =>
      if dst = noReg then
        if src = reg then test src (!inverted) else testset reg src inverted
      else testset dst src inverted
  | i => i

/-- Does the control preserve its operand? -/
def isTestset : Instruction → Bool
  | testset .. => true
  | _ => false

theorem settles_aim {reg : ℕ} (hreg : reg ≠ noReg) : Settles (aim reg) where
  same i hc := by
    intro env R
    cases i with
    | testset dst src inverted =>
        by_cases hdst : dst = noReg
        · by_cases hsrc : src = reg
          · simp only [aim, hdst, hsrc, if_true, skips]
            cases (R reg).truthy <;> cases inverted <;> rfl
          · simp only [aim, hdst, hsrc, if_true, if_false, skips]
        · simp only [aim, hdst, if_false]
    | _ => rfl
  control i hc := by
    cases i with
    | testset dst src inverted =>
        simp only [aim]
        split
        · split <;> rfl
        · rfl
    | _ => exact hc
  placed i hc src c := by
    cases i with
    | testset dst src' c' =>
        simp only [aim]
        split
        · split
          · simp
          · simp [hreg]
        · rename_i hdst
          simp [hdst]
    | _ => simp [aim]

/-- A taken control that preserves its operand puts it into the register. -/
theorem taken_aim (reg : ℕ) {i : Instruction} (hp : i.Pending) (ht : i.isTestset = true)
    {R : Regs} {v : Value} (hcarry : i.Carries R v) :
    ((i.aim reg).taken R) reg = v ∧ ∀ r, r ≠ reg → ((i.aim reg).taken R) r = R r := by
  cases i with
  | testset dst src inverted =>
      have hdst : dst = noReg := hp
      have hsrc : R src = v := hcarry
      by_cases heq : src = reg
      · subst heq
        simp [aim, hdst, taken, hsrc]
      · simp only [aim, hdst, heq, if_true, if_false, taken]
        refine ⟨by rw [Function.update_self, hsrc], fun r hr => Function.update_of_ne hr _ _⟩
  | _ => exact absurd ht (by simp [isTestset])

/-- Any other control leaves the registers alone. -/
theorem taken_aim_of_not_testset {reg : ℕ} {i : Instruction} (ht : i.isTestset = false)
    (R : Regs) : (i.aim reg).taken R = R := by
  cases i with
  | testset dst src inverted => exact absurd ht (by simp [isTestset])
  | _ => rfl

theorem carries_of_not_testset {i : Instruction} (ht : i.isTestset = false) {R : Regs} {v : Value}
    (h : i.Carries R v) : v = Value.boolean v.truthy := by
  cases i with
  | testset dst src inverted => exact absurd ht (by simp [isTestset])
  | _ => exact h

end Instruction

/-- The code `T` whose exits are to be discharged into `dst`, with the tail behind it: the tail is
there when `needTail` is set, behind a jump over it when `skip` is set too. -/
structure Tail (T : List Instruction) (jumps : List ℕ) (dst : ℕ) (P : Value → Regs → Prop)
    (needTail skip : Bool) : Prop where
  /-- Without the tail every exit preserves its operand. -/
  preserved : needTail = false → ∀ h ∈ jumps, ∀ i, T[h - 1]? = some i → i.isTestset = true
  /-- The code falls into the tail with `false` only. -/
  falls : needTail = true → skip = false → ∀ v R, P v R → v = Value.boolean false
  /-- Otherwise it falls through with its value in the register. -/
  value : needTail = false ∨ skip = true → ∀ v R, P v R → R dst = v

/-- The code with its tail. -/
def withTail (T : List Instruction) (dst idx : ℕ) (needTail skip : Bool) : List Instruction :=
  T ++ if needTail then fixupTail T.length dst idx skip else []

/-- The position of the load of `false`; the load of `true` is behind it. -/
def tailStart (T : List Instruction) (skip : Bool) : ℕ := if skip then T.length + 1 else T.length

theorem le_tailStart (T : List Instruction) (skip : Bool) : T.length ≤ tailStart T skip := by
  unfold tailStart
  split <;> omega

theorem length_withTail (T : List Instruction) (dst idx : ℕ) (needTail skip : Bool) :
    (withTail T dst idx needTail skip).length =
      if needTail then tailStart T skip + 2 else T.length := by
  cases needTail <;> cases skip <;> simp [withTail, fixupTail, tailStart]

section

variable {K K' : List Value} {lo nactvar : ℕ} {T T' : List Instruction}
  {events events' : List Event} {val : CodeEnv → Regs → Value} {d : ExprDesc} {dst idx : ℕ}
  {P : Value → Regs → Prop} {needTail skip : Bool} {τ : ℕ → ℕ}

theorem getElem?_withTail {k : ℕ} {i : Instruction} (hi : T[k]? = some i) :
    (withTail T dst idx needTail skip)[k]? = some i := by
  unfold withTail
  rw [List.getElem?_append_left (List.getElem?_eq_some_iff.1 hi).1]
  exact hi

theorem getElem?_tailStart (T : List Instruction) (dst idx : ℕ) (skip : Bool) :
    (withTail T dst idx true skip)[tailStart T skip]? = some (Instruction.lfalseskip dst) ∧
      (withTail T dst idx true skip)[tailStart T skip + 1]? = some (Instruction.load dst idx) := by
  cases skip
  · exact ⟨getElem?_append_length_add T _ 0, getElem?_append_length_add T _ 1⟩
  · exact ⟨getElem?_append_length_add T _ 1, getElem?_append_length_add T _ 2⟩

/-- The events of the tail. -/
def tailEvents (T : List Instruction) (needTail skip : Bool) : List Event :=
  if needTail && skip then [Event.patched T.length (T.length + 3)] else []

theorem Shape.withTail (hs : Shape lo T d.jumps events) :
    Shape lo (Tcvm.withTail T dst idx needTail skip) d.jumps
      (events ++ tailEvents T needTail skip) := by
  cases needTail
  · simpa [Tcvm.withTail, tailEvents] using hs
  · have := hs.append (Shape.fixupTail dst idx skip) (prefix_append _ _)
    rw [List.nil_append] at this
    simpa [Tcvm.withTail, tailEvents] using this

/-- From the load of `false` the code runs to its end. -/
theorem run_tail {R : Regs} {env : CodeEnv} (hlo : lo ≤ T.length)
    (hget : ∀ k i, T.length ≤ k → (withTail T dst idx true skip)[k]? = some i → T'[k]? = some i)
    (htrue : env.constants[idx]? = some (Value.boolean true)) (b : Bool) :
    Run env lo T' [] (tailStart T skip + (if b then 1 else 0), R)
      (tailStart T skip + 2, Function.update R dst (Value.boolean b)) := by
  have hstart := le_tailStart T skip
  obtain ⟨hfalse, hload⟩ := getElem?_tailStart T dst idx skip
  cases b
  · refine ReflTransGen.single ⟨by simp only; omega, List.not_mem_nil, _,
      hget _ _ hstart hfalse, ?_⟩
    rw [if_neg List.not_mem_nil]
    rfl
  · refine ReflTransGen.single ⟨by simp only; omega, List.not_mem_nil, _,
      hget _ _ (by simp only [if_true]; omega) hload, ?_⟩
    rw [if_neg List.not_mem_nil]
    simp [Instruction.exec, htrue]

/-- The targets of the exits: an exit that preserves its operand goes behind the tail, any other one
to the load of its boolean. -/
structure Targets (T : List Instruction) (d : ExprDesc) (skip needTail : Bool) (τ : ℕ → ℕ) :
    Prop where
  preserved : ∀ h ∈ d.jumps, ∀ i, T[h - 1]? = some i → i.isTestset = true →
    τ h = if needTail then tailStart T skip + 2 else T.length
  boolean : needTail = true → ∀ b, ∀ h ∈ d.exits b, ∀ i, T[h - 1]? = some i →
    i.isTestset = false → τ h = tailStart T skip + if b then 1 else 0

/-- Discharge the exits of a fragment into `dst`. -/
theorem Frag.discharge (h : Frag K lo nactvar T d.jumps events val (Leaves T d P)) (hK : K <+: K')
    (hT : Tail T d.jumps dst P needTail skip) (hdst : nactvar ≤ dst) (hreg : dst ≠ noReg)
    (htrue : needTail = true → K'[idx]? = some (Value.boolean true))
    (hsmall : T.length + 3 ≤ 2 ^ 31) (hτ : Targets T d skip needTail τ)
    (hw : Rewire (withTail T dst idx needTail skip) d.jumps τ (Instruction.aim dst) T')
    (hev : ∀ k t, Event.patched k t ∈ events' ↔
      Event.patched k t ∈ events ++ tailEvents T needTail skip ++ patches d.jumps τ) :
    Frag K' lo nactvar T' [] events' val
      (Leaves T' (ExprDesc.fromReg dst) fun v R => R dst = v) := by
  have hlenT : (withTail T dst idx needTail skip).length ≤ T.length + 3 := by
    rw [length_withTail]
    cases needTail <;> cases skip <;> simp [tailStart]
  have hshape₁ : Shape lo (withTail T dst idx needTail skip) (d.jumps ++ [])
      (events ++ tailEvents T needTail skip) := by
    rw [List.append_nil]
    exact h.shape.withTail
  have hctrl : ∀ x ∈ d.jumps, ∃ i, T[x - 1]? = some i ∧ i.Pending := fun x hx => by
    obtain ⟨i, hi, -, hp⟩ := (h.shape.hole x hx).control
    exact ⟨i, hi, hp⟩
  have hneed : ∀ x ∈ d.jumps, ∀ i, T[x - 1]? = some i → i.isTestset = false →
      needTail = true := by
    intro x hx i hi ht
    cases hn : needTail with
    | true => rfl
    | false => exact absurd (hT.preserved hn x hx i hi) (by simp [ht])
  have hbound : ∀ x ∈ d.jumps, lo ≤ τ x ∧ τ x ≤ (withTail T dst idx needTail skip).length := by
    intro x hx
    obtain ⟨i, hi, -⟩ := hctrl x hx
    have hlo := h.shape.le
    have hstart := le_tailStart T skip
    rw [length_withTail]
    cases ht : i.isTestset with
    | true =>
        rw [hτ.preserved x hx i hi ht]
        split <;> omega
    | false =>
        have hn := hneed x hx i hi ht
        obtain ⟨b, hb⟩ := ExprDesc.mem_jumps.1 hx
        rw [hτ.boolean hn b x hb i hi ht, if_pos hn]
        split <;> omega
  have hshape := (hshape₁.rewire hw (Instruction.settles_aim hreg) hbound).of_events
    fun k t => (hev k t).symm
  have hr₁ : Refines T d.jumps (withTail T dst idx needTail skip) d.jumps :=
    Refines.append (prefix_append _ _) fun x hx => Or.inl hx
  have hr : Refines T d.jumps T' [] := by
    have hr₂ := hw.refines hshape₁ (Instruction.settles_aim hreg)
    rw [List.append_nil] at hr₂
    refine ⟨fun x hx => absurd hx List.not_mem_nil, fun pc i hi hm hm' => ?_, fun pc i hi hm => ?_⟩
    · exact hr₂.plain pc i (hr₁.plain pc i hi hm hm') hm hm'
    · obtain ⟨i₁, hi₁, hsame₁⟩ := hr₁.control pc i hi hm
      obtain ⟨i₂, hi₂, hsame₂⟩ := hr₂.control pc i₁ hi₁ hm
      exact ⟨i₂, hi₂, hsame₁.trans hsame₂⟩
  -- what stands behind the code is not rewired
  have hget : ∀ k i, T.length ≤ k → (withTail T dst idx needTail skip)[k]? = some i →
      T'[k]? = some i := by
    intro k i hk hi
    have hout : ∀ x, T.length ≤ x → x ∉ d.jumps := fun x hx hm => by
      have := (h.shape.hole x hm).lt_length
      omega
    rw [hw.rest k (hout k hk) (hout _ (by omega)), hi]
  have hlen : T'.length = (withTail T dst idx needTail skip).length := hw.length
  rw [length_withTail] at hlen
  refine h.extend hK hshape hr fun env R s henv _ hq => ?_
  have hconst : needTail = true → env.constants[idx]? = some (Value.boolean true) := fun hn => by
    obtain ⟨u, hu⟩ := henv
    have hk := htrue hn
    rw [← hu, List.getElem?_append_left (List.getElem?_eq_some_iff.1 hk).1]
    exact hk
  have hbelow : ∀ b : Bool, ∀ r < nactvar,
      Function.update s.2 dst (Value.boolean b) r = s.2 r :=
    fun b r hlt => Function.update_of_ne (by omega) _ _
  rcases hq with ⟨hpc, hp⟩ | ⟨b, hq⟩
  · cases hn : needTail with
    | false =>
        subst hn
        refine ⟨s, ReflTransGen.refl, fun _ _ => rfl, Or.inl ⟨?_, hT.value (Or.inl rfl) _ _ hp⟩⟩
        rw [hpc, hlen]
        rfl
    | true =>
        subst hn
        cases hs : skip with
        | true =>
            subst hs
            have hjmp : (withTail T dst idx true true)[T.length]? =
                some (Instruction.jmp (jumpOffset T.length (T.length + 3))) :=
              getElem?_append_length_add T _ 0
            refine ⟨(T.length + 3, s.2), ReflTransGen.single ⟨?_, List.not_mem_nil,
              Instruction.jmp (jumpOffset T.length (T.length + 3)), ?_, ?_⟩,
              fun _ _ => rfl, Or.inl ⟨?_, hT.value (Or.inr rfl) _ _ hp⟩⟩
            · rw [hpc]
              exact h.shape.le
            · rw [hpc]
              exact hget _ _ (Nat.le_refl _) hjmp
            · rw [if_neg List.not_mem_nil, hpc]
              exact exec_jumpOffset (by omega) (by omega)
            · rw [hlen]
              rfl
        | false =>
            subst hs
            have hrun := run_tail (R := s.2) h.shape.le hget (hconst rfl) false
            have hv := hT.falls rfl rfl _ _ hp
            refine ⟨(tailStart T false + 2, Function.update s.2 dst (Value.boolean false)), ?_,
              hbelow false, Or.inl ⟨hlen.symm, ?_⟩⟩
            · rw [show s = (T.length, s.2) from Prod.ext hpc rfl]
              exact hrun
            · rw [hv]
              exact Function.update_self _ _ _
  · obtain ⟨i, hi, hskip, hcarry⟩ := hq.stop
    have hm := hq.mem_jumps
    have hi' : T[s.1 + 1 - 1]? = some i := by rw [Nat.add_sub_cancel]; exact hi
    obtain ⟨j, hj, hp⟩ := hctrl _ hm
    obtain rfl := Option.some.inj (hi'.symm.trans hj)
    have hrun := hw.exit hshape₁ (Instruction.settles_aim hreg) (by omega)
      (fun x hx => (hbound x hx).2) hm (getElem?_withTail hi) hskip
    cases ht : i.isTestset with
    | true =>
        obtain ⟨hreg', hother⟩ := Instruction.taken_aim dst hp ht hcarry
        rw [hτ.preserved _ hm i hi' ht] at hrun
        refine ⟨_, hrun, fun r hlt => hother r (by omega), Or.inl ⟨hlen.symm, hreg'⟩⟩
    | false =>
        have hn := hneed _ hm i hi' ht
        subst hn
        rw [hτ.boolean rfl b _ hq.mem i hi' ht, Instruction.taken_aim_of_not_testset ht] at hrun
        have hrun' := run_tail (R := s.2) h.shape.le hget (hconst rfl) b
        refine ⟨(tailStart T skip + 2, Function.update s.2 dst (Value.boolean b)),
          hrun.trans hrun', hbelow b, Or.inl ⟨hlen.symm, ?_⟩⟩
        have hv := Instruction.carries_of_not_testset ht hcarry
        rw [hq.truthy] at hv
        rw [hv]
        exact Function.update_self _ _ _

end

end Tcvm
