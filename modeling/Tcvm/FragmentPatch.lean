/-
Patching the holes of a fragment.

Jump lists are consumed in three ways: trailing jumps are dropped, the others are aimed at a code
position, and in a value context the controls get the destination register.  `Rewire` describes the
last two on the tape.

## Main definitions

* `Rewire` — the holes of a list get their targets, and their controls are settled;
* `Settles` — how a control may be settled.

## Main results

* `Frag.elide`: **dropping a trailing jump over which nothing has been patched**;
* `Frag.fill`: aiming the exits of a branch at the next instruction;
* `Frag.join`: the code of a second operand behind a branch;
* `Frag.emit`: an instruction behind the code;
* `Frag.negate`, `Frag.negate_head`: swapping the exits.
-/

import Tcvm.FragmentRules

namespace Tcvm

open Relation (ReflTransGen)

section

variable {K K' : List Value} {lo nactvar : ℕ} {T T' : List Instruction} {holes holes' : List ℕ}
  {events events' : List Event} {val val' : CodeEnv → Regs → Value} {d : ExprDesc} {b : Bool}

/-! ### Events -/

/-- Only the patches among the events matter. -/
theorem Shape.of_events (hs : Shape lo T holes events)
    (hev : ∀ k t, Event.patched k t ∈ events ↔ Event.patched k t ∈ events') :
    Shape lo T holes events' where
  le := hs.le
  hole := hs.hole
  nodup := hs.nodup
  follow := hs.follow
  fixup := hs.fixup
  aimed k o hk hi hm := by
    obtain ⟨t, ht, hrest⟩ := hs.aimed k o hk hi hm
    exact ⟨t, (hev k t).1 ht, hrest⟩
  bounded k t ht := hs.bounded k t ((hev k t).2 ht)
  placeholder := hs.placeholder

/-! ### Dropping a trailing jump -/

theorem Shape.take {j : ℕ} (hs : Shape lo T holes events) (hj : j ∈ holes) (hend : j + 1 = T.length)
    (ht : ∀ k t, Event.patched k t ∈ events → t + 1 ≤ j) :
    Shape lo (T.take (j - 1)) (holes.erase j) events := by
  obtain ⟨hlo, -, ctrl, hctrl, hcc, -⟩ := hs.hole j hj
  have hlen : (T.take (j - 1)).length = j - 1 := by rw [List.length_take]; omega
  have hget : ∀ k, k < j - 1 → (T.take (j - 1))[k]? = T[k]? :=
    fun k hk => List.getElem?_take_of_lt hk
  have hback : ∀ (k : ℕ) (i : Instruction), (T.take (j - 1))[k]? = some i →
      k < j - 1 ∧ T[k]? = some i := by
    intro k i hi
    have hlt := (List.getElem?_eq_some_iff.1 hi).1
    rw [hlen] at hlt
    exact ⟨hlt, by rwa [hget k hlt] at hi⟩
  -- an instruction that belongs to the one in front of it is not the dropped control
  have hnext : ∀ (k : ℕ) (i : Instruction), k < j - 1 → T[k + 1]? = some i →
      i.isControl = false → (T.take (j - 1))[k + 1]? = some i := by
    intro k i hk hi hc
    rcases Nat.lt_or_ge (k + 1) (j - 1) with hlt | hge
    · rwa [hget _ hlt]
    · obtain hkj : k + 1 = j - 1 := by omega
      rw [hkj] at hi
      obtain rfl := Option.some.inj (hctrl.symm.trans hi)
      exact absurd hcc (by simp [hc])
  refine ⟨by omega, ?_, hs.nodup.erase j, ?_, ?_, ?_, ?_, ?_⟩
  · intro h hm
    obtain ⟨hne, hm⟩ := hs.nodup.mem_erase_iff.1 hm
    obtain ⟨hlo', ⟨o, ho⟩, i, hi, hc, hp⟩ := hs.hole h hm
    have hlt := (hs.hole h hm).lt_length
    have hne' : h ≠ j - 1 := by
      rintro rfl
      exact hs.control_not_mem hj hm
    exact ⟨hlo', ⟨o, by rwa [hget h (by omega)]⟩, i, by rwa [hget _ (by omega)], hc, hp⟩
  · intro k i hk hi hc
    obtain ⟨hlt, hi⟩ := hback k i hi
    obtain ⟨o, ho⟩ := hs.follow k i hk hi hc
    exact ⟨o, hnext k _ hlt ho rfl⟩
  · intro k r hk hi
    obtain ⟨hlt, hi⟩ := hback k _ hi
    obtain ⟨dst, idx, hload⟩ := hs.fixup k r hk hi
    exact ⟨dst, idx, hnext k _ hlt hload rfl⟩
  · intro k o hk hi hm
    obtain ⟨hlt, hi⟩ := hback k _ hi
    exact hs.aimed k o hk hi fun h => hm (hs.nodup.mem_erase_iff.2 ⟨by omega, h⟩)
  · intro k t hm
    have := ht k t hm
    omega
  · intro k src inverted hk hi
    obtain ⟨hlt, hi⟩ := hback k _ hi
    exact hs.nodup.mem_erase_iff.2 ⟨by omega, hs.placeholder k src inverted hk hi⟩

theorem ExprDesc.exits_setExits (d : ExprDesc) (b b' : Bool) (list : List ℕ) :
    (d.setExits b list).exits b' = if b' = b then list else d.exits b' := by
  cases b <;> cases b' <;> rfl

theorem ExprDesc.jumps_setExits_perm (d : ExprDesc) (b : Bool) (list : List ℕ) :
    (list ++ d.exits (!b)).Perm (d.setExits b list).jumps := by
  have h := (d.setExits b list).jumps_perm b
  rwa [d.exits_setExits, d.exits_setExits, if_pos rfl,
    if_neg (by cases b <;> simp)] at h

/-- Drop a jump at the end of the code that would only jump to its own successor. -/
theorem Frag.elide {j : ℕ} (h : Frag K lo nactvar T d.jumps events val (Branch T d b))
    (hsmall : T.length ≤ 2 ^ 31) (hj : j ∈ d.exits b) (hend : j + 1 = T.length)
    (ht : ∀ k t, Event.patched k t ∈ events → t + 1 ≤ j) :
    Frag K lo nactvar (T.take (j - 1)) (d.setExits b ((d.exits b).erase j)).jumps events val
      (Branch (T.take (j - 1)) (d.setExits b ((d.exits b).erase j)) b) := by
  have hmem : j ∈ d.jumps := ExprDesc.mem_jumps.2 ⟨b, hj⟩
  have hnodup : (d.exits b ++ d.exits (!b)).Nodup := (d.jumps_perm b).nodup_iff.2 h.shape.nodup
  have hdisj : ∀ b', j ∈ d.exits b' → b' = b := by
    intro b' hm
    by_contra hne
    obtain rfl : b' = !b := by cases b <;> cases b' <;> simp_all
    exact (List.nodup_append.1 hnodup).2.2 j hj j hm rfl
  have hperm : (d.jumps.erase j).Perm (d.setExits b ((d.exits b).erase j)).jumps := by
    refine ((d.jumps_perm b).symm.erase j).trans ?_
    rw [List.erase_append_left _ hj]
    exact d.jumps_setExits_perm b _
  obtain ⟨hlo, -, ctrl, hctrl, hcc, -⟩ := h.shape.hole j hmem
  have hlen : (T.take (j - 1)).length = j - 1 := by rw [List.length_take]; omega
  refine ⟨(h.shape.take hmem hend ht).perm hperm, fun env henv R => ?_⟩
  obtain ⟨s, hrun, hbelow, hq⟩ := h.evals env henv R
  have hmove : ∀ {x y : ℕ × Regs}, Run env lo (T.take (j - 1)) d.jumps x y →
      Run env lo (T.take (j - 1)) (d.setExits b ((d.exits b).erase j)).jumps x y :=
    fun hxy => hxy.refines (Refines.append (List.prefix_refl _)
      fun x hx => Or.inl (List.mem_of_mem_erase (hperm.mem_iff.2 hx)))
  have hpred : j - 1 + 1 = j := by omega
  rcases h.shape.run_cut hsmall hctrl hcc (fun k t hm => by have := ht k t hm; omega) (by omega)
    hrun with ⟨hs, hrun'⟩ | ⟨R', hrun', hrest⟩
  · refine ⟨s, hmove hrun', hbelow, ?_⟩
    rcases hq with ⟨hpc, -⟩ | ⟨b', hq⟩
    · omega
    · refine Or.inr ⟨b', hq.mono (fun hm => ?_) fun i hi => ?_⟩
      · rw [d.exits_setExits]
        split
        · rename_i hb
          subst hb
          exact ((List.nodup_append.1 hnodup).1.mem_erase_iff).2 ⟨by omega, hm⟩
        · exact hm
      · rwa [List.getElem?_take_of_lt hs]
  · rcases Run.last_hole (by rw [hpred]; exact hmem) (by omega) hrest with rfl | rfl
    · -- the run takes the jump
      refine ⟨_, hmove hrun', hbelow, Or.inl ⟨hlen.symm, ?_⟩⟩
      rcases hq with ⟨hpc, -⟩ | ⟨b', hq⟩
      · simp only at hpc
        omega
      · have hm := hq.mem
        rw [hpred] at hm
        rw [hdisj b' hm] at hq
        exact hq.truthy
    · -- the run skips the jump
      refine ⟨_, hmove hrun', hbelow, Or.inl ⟨hlen.symm, ?_⟩⟩
      rcases hq with ⟨-, hv⟩ | ⟨b', hq⟩
      · exact hv
      · have := (h.shape.hole _ hq.mem_jumps).lt_length
        simp only at this
        omega

/-! ### Filling holes -/

/-- A way to settle the controls of holes: they decide as before and are no placeholders any
more. -/
structure Settles (f : Instruction → Instruction) : Prop where
  same : ∀ i : Instruction, i.isControl = true → i.SameSkips (f i)
  control : ∀ i : Instruction, i.isControl = true → (f i).isControl = true
  placed : ∀ i : Instruction, i.isControl = true → ∀ src c, f i ≠ Instruction.testset noReg src c

/-- The holes of `list` are aimed at their targets `τ`, their controls are settled by `f`. -/
structure Rewire (T : List Instruction) (list : List ℕ) (τ : ℕ → ℕ)
    (f : Instruction → Instruction) (T' : List Instruction) : Prop where
  length : T'.length = T.length
  rest : ∀ k, k ∉ list → k + 1 ∉ list → T'[k]? = T[k]?
  jmp : ∀ h ∈ list, T'[h]? = some (Instruction.jmp (jumpOffset h (τ h)))
  control : ∀ h ∈ list, ∀ i, T[h - 1]? = some i → T'[h - 1]? = some (f i)

/-- The events of a patched list. -/
def patches (list : List ℕ) (τ : ℕ → ℕ) : List Event := list.map fun h => Event.patched h (τ h)

theorem mem_patches {list : List ℕ} {τ : ℕ → ℕ} {k t : ℕ} :
    Event.patched k t ∈ patches list τ ↔ k ∈ list ∧ t = τ k := by
  simp only [patches, List.mem_map, Event.patched.injEq]
  constructor
  · rintro ⟨h, hm, rfl, rfl⟩
    exact ⟨hm, rfl⟩
  · rintro ⟨hm, rfl⟩
    exact ⟨k, hm, rfl, rfl⟩

variable {list : List ℕ} {τ : ℕ → ℕ} {f : Instruction → Instruction}

theorem Rewire.plain (hw : Rewire T list τ f T') (hs : Shape lo T (list ++ holes) events) {k : ℕ}
    {i : Instruction} (hi : T[k]? = some i) (hc : i.isControl = false) (hk : k ∉ list) :
    T'[k]? = some i := by
  rw [hw.rest k hk, hi]
  intro hm
  obtain ⟨j, hj, hjc, -⟩ := (hs.hole _ (List.mem_append_left _ hm)).control
  rw [Nat.add_sub_cancel] at hj
  obtain rfl := Option.some.inj (hi.symm.trans hj)
  exact absurd hjc (by simp [hc])

theorem Rewire.other (hw : Rewire T list τ f T') (hs : Shape lo T (list ++ holes) events) {h : ℕ}
    (hh : h ∈ holes) : T'[h]? = T[h]? ∧ T'[h - 1]? = T[h - 1]? := by
  have hnot : h ∉ list := fun hm => (List.nodup_append.1 hs.nodup).2.2 h hm h hh rfl
  obtain ⟨o, ho⟩ := (hs.hole h (List.mem_append_right _ hh)).jmp
  have hlo := (hs.hole h (List.mem_append_right _ hh)).lt
  refine ⟨by rw [hw.plain hs ho rfl hnot, ho], hw.rest _ (fun hm => ?_) ?_⟩
  · exact hs.control_not_mem (List.mem_append_right _ hh) (List.mem_append_left _ hm)
  · rwa [Nat.sub_add_cancel (by omega)]

theorem Shape.rewire (hs : Shape lo T (list ++ holes) events) (hw : Rewire T list τ f T')
    (hf : Settles f) (hτ : ∀ h ∈ list, lo ≤ τ h ∧ τ h ≤ T.length) :
    Shape lo T' holes (events ++ patches list τ) := by
  have hback : ∀ (k : ℕ) (j : Instruction), T'[k]? = some j → k ∉ list →
      ∃ i, T[k]? = some i ∧ (j = i ∨ (k + 1 ∈ list ∧ j = f i)) := by
    intro k j hj hk
    by_cases hnext : k + 1 ∈ list
    · have hlt : k < T.length := by
        rw [← hw.length]
        exact (List.getElem?_eq_some_iff.1 hj).1
      have hctrl := hw.control _ hnext T[k] (by
        rw [Nat.add_sub_cancel]; exact List.getElem?_eq_getElem hlt)
      rw [Nat.add_sub_cancel] at hctrl
      exact ⟨T[k], List.getElem?_eq_getElem hlt,
        Or.inr ⟨hnext, Option.some.inj (hj.symm.trans hctrl)⟩⟩
    · rw [hw.rest k hk hnext] at hj
      exact ⟨j, hj, Or.inl rfl⟩
  have hcontrol : ∀ (k : ℕ) (i : Instruction), T[k]? = some i → k + 1 ∈ list →
      i.isControl = true := by
    intro k i hi hm
    obtain ⟨j, hj, hjc, -⟩ := (hs.hole _ (List.mem_append_left _ hm)).control
    rw [Nat.add_sub_cancel] at hj
    obtain rfl := Option.some.inj (hi.symm.trans hj)
    exact hjc
  have hjmp : ∀ (k : ℕ) (j : Instruction), T'[k]? = some j → k ∈ list →
      j = Instruction.jmp (jumpOffset k (τ k)) :=
    fun k j hj hm => Option.some.inj (hj.symm.trans (hw.jmp k hm))
  refine ⟨by rw [hw.length]; exact hs.le, ?_, (List.nodup_append.1 hs.nodup).2.1, ?_, ?_, ?_, ?_,
    ?_⟩
  · intro h hm
    obtain ⟨hlo, ⟨o, ho⟩, i, hi, hc⟩ := hs.hole h (List.mem_append_right _ hm)
    obtain ⟨h₁, h₂⟩ := hw.other hs hm
    exact ⟨hlo, ⟨o, by rw [h₁, ho]⟩, i, by rw [h₂, hi], hc⟩
  · intro k j hk hj hc
    have hm : k ∉ list := by
      intro hm
      rw [hjmp k j hj hm] at hc
      exact absurd hc (by simp [Instruction.isControl])
    obtain ⟨i, hi, hij⟩ := hback k j hj hm
    have hic : i.isControl = true := by
      rcases hij with rfl | ⟨hnext, -⟩
      · exact hc
      · exact hcontrol k i hi hnext
    obtain ⟨o, ho⟩ := hs.follow k i hk hi hic
    by_cases hnext : k + 1 ∈ list
    · exact ⟨_, hw.jmp _ hnext⟩
    · exact ⟨o, hw.plain hs ho rfl hnext⟩
  · intro k r hk hj
    have hm : k ∉ list := fun hm => by
      have := hjmp k _ hj hm
      exact absurd this (by simp)
    obtain ⟨i, hi, rfl | ⟨hnext, hji⟩⟩ := hback k _ hj hm
    · obtain ⟨dst, idx, hload⟩ := hs.fixup k r hk hi
      refine ⟨dst, idx, hw.plain hs hload rfl fun hm' => ?_⟩
      obtain ⟨o, ho⟩ := (hs.hole _ (List.mem_append_left _ hm')).jmp
      exact absurd (Option.some.inj (hload.symm.trans ho)) (by simp)
    · have := hf.control i (hcontrol k i hi hnext)
      rw [← hji] at this
      exact absurd this (by simp [Instruction.isControl])
  · intro k o hk hj hm
    by_cases hl : k ∈ list
    · refine ⟨τ k, List.mem_append_right _ (mem_patches.2 ⟨hl, rfl⟩), ?_, (hτ k hl).1⟩
      exact Instruction.jmp.inj (hjmp k _ hj hl)
    · obtain ⟨i, hi, rfl | ⟨hnext, hji⟩⟩ := hback k _ hj hl
      · obtain ⟨t, ht, hrest⟩ := hs.aimed k o hk hi fun h =>
          (List.mem_append.1 h).elim hl hm
        exact ⟨t, List.mem_append_left _ ht, hrest⟩
      · have := hf.control i (hcontrol k i hi hnext)
        rw [← hji] at this
        exact absurd this (by simp [Instruction.isControl])
  · intro k t ht
    rw [hw.length]
    rcases List.mem_append.1 ht with hm | hm
    · exact hs.bounded k t hm
    · obtain ⟨hl, rfl⟩ := mem_patches.1 hm
      exact (hτ k hl).2
  · intro k src inverted hk hj
    have hm : k ∉ list := fun hm => by
      have := hjmp k _ hj hm
      exact absurd this (by simp)
    obtain ⟨i, hi, rfl | ⟨hnext, hji⟩⟩ := hback k _ hj hm
    · rcases List.mem_append.1 (hs.placeholder k src inverted hk hi) with hl | hr
      · have hctrl := hw.control _ hl _ (by rw [Nat.add_sub_cancel]; exact hi)
        rw [Nat.add_sub_cancel] at hctrl
        exact absurd (Option.some.inj (hctrl.symm.trans hj)) (hf.placed _ rfl _ _)
      · exact hr
    · exact absurd hji.symm (hf.placed i (hcontrol k i hi hnext) _ _)

theorem Rewire.refines (hw : Rewire T list τ f T') (hs : Shape lo T (list ++ holes) events)
    (hf : Settles f) : Refines T (list ++ holes) T' holes where
  sub h hm _ := List.mem_append_right _ hm
  plain pc i hi hm hm' := by
    rw [hw.rest pc (fun h => hm (List.mem_append_left _ h))
      fun h => hm' (List.mem_append_left _ h), hi]
  control pc i hi hm := by
    obtain ⟨j, hj, hjc, -⟩ := (hs.hole _ hm).control
    rw [Nat.add_sub_cancel] at hj
    obtain rfl := Option.some.inj (hi.symm.trans hj)
    rcases List.mem_append.1 hm with hl | hr
    · have := hw.control _ hl i (by rw [Nat.add_sub_cancel]; exact hi)
      rw [Nat.add_sub_cancel] at this
      exact ⟨f i, this, hf.same i hjc⟩
    · have := (hw.other hs hr).2
      rw [Nat.add_sub_cancel] at this
      exact ⟨i, by rw [this, hi], Instruction.SameSkips.refl i⟩

/-- An offset leads to its target. -/
theorem exec_jumpOffset {env : CodeEnv} {k t : ℕ} {R : Regs} (hk : k ≤ 2 ^ 31 - 1)
    (ht : t ≤ 2 ^ 31) :
    (Instruction.jmp (jumpOffset k t)).exec env k R = some (t, R) := by
  have hoff : jumpOffset k t = (t : ℤ) - ((k : ℤ) + 1) := by
    unfold jumpOffset
    rw [Int.bmod_eq_of_le] <;> omega
  have htarget : (k : ℤ) + 1 + ((t : ℤ) - ((k : ℤ) + 1)) = (t : ℤ) := by omega
  simp only [Instruction.exec, hoff, htarget]
  rfl

/-- A filled hole that is taken leads to its target. -/
theorem Rewire.exit (hw : Rewire T list τ f T') (hs : Shape lo T (list ++ holes) events)
    (hf : Settles f) (hsmall : T.length ≤ 2 ^ 31) (hτ : ∀ h ∈ list, τ h ≤ T.length) {env : CodeEnv}
    {s : ℕ × Regs} {i : Instruction} (hm : s.1 + 1 ∈ list) (hi : T[s.1]? = some i)
    (hskip : i.skips env s.2 = some false) :
    Run env lo T' holes s (τ (s.1 + 1), (f i).taken s.2) := by
  have hmem : s.1 + 1 ∈ list ++ holes := List.mem_append_left _ hm
  have hlo := (hs.hole _ hmem).lt
  have hlt := (hs.hole _ hmem).lt_length
  have hnot : s.1 + 1 ∉ holes := fun h => (List.nodup_append.1 hs.nodup).2.2 _ hm _ h rfl
  have hnot' : s.1 ∉ holes := fun h =>
    hs.control_not_mem hmem (List.mem_append_right _ (by rwa [Nat.add_sub_cancel]))
  have hnot'' : s.1 + 2 ∉ holes := by
    intro h
    obtain ⟨j, hj, hjc, -⟩ := (hs.hole _ (List.mem_append_right _ h)).control
    obtain ⟨o, ho⟩ := (hs.hole _ hmem).jmp
    have heq : j = Instruction.jmp o := Option.some.inj (hj.symm.trans ho)
    exact Instruction.isControl_ne_jmp hjc o heq
  have hic : i.isControl = true := Instruction.isControl_iff_skips.2 ⟨_, hskip⟩
  have hctrl := hw.control _ hm i (by rw [Nat.add_sub_cancel]; exact hi)
  rw [Nat.add_sub_cancel] at hctrl
  have hskip' : (f i).skips env s.2 = some false := by rw [hf.same i hic]; exact hskip
  have h₁ : Step env lo T' holes s (s.1 + 1, (f i).taken s.2) := by
    refine ⟨by omega, hnot', f i, hctrl, ?_⟩
    rw [if_neg hnot]
    exact Instruction.exec_of_not_skips hskip'
  have h₂ : Step env lo T' holes (s.1 + 1, (f i).taken s.2)
      (τ (s.1 + 1), (f i).taken s.2) := by
    refine ⟨by simp only; omega, hnot, _, hw.jmp _ hm, ?_⟩
    rw [if_neg hnot'']
    exact exec_jumpOffset (by simp only; omega) (Nat.le_trans (hτ _ hm) hsmall)
  exact (ReflTransGen.single h₁).tail h₂

theorem settles_downgrade : Settles Instruction.downgrade where
  same i _ := Instruction.sameSkips_downgrade i
  control i h := Instruction.isControl_downgrade h
  placed i h src c := by
    cases i with
    | testset dst src' c' =>
        by_cases hdst : dst = noReg
        · simp [Instruction.downgrade, hdst]
        · simp [Instruction.downgrade, hdst]
    | _ => simp [Instruction.downgrade]

theorem Instruction.taken_downgrade {i : Instruction} (hp : i.Pending) (R : Regs) :
    i.downgrade.taken R = R := by
  cases i with
  | testset dst src c =>
      have hdst : dst = noReg := hp
      simp [downgrade, hdst, taken]
  | _ => rfl

/-- Aim the exits with truthiness `b` of a branch at the next instruction. -/
theorem Frag.fill (h : Frag K lo nactvar T (d.exits b ++ d.exits (!b)) events val (Branch T d b))
    (hsmall : T.length ≤ 2 ^ 31)
    (hw : Rewire T (d.exits b) (fun _ => T.length) Instruction.downgrade T') :
    Frag K lo nactvar T' (d.exits (!b)) (events ++ patches (d.exits b) fun _ => T.length) val
      (Branch T' (d.setExits b []) b) := by
  have hshape := h.shape.rewire hw settles_downgrade
    fun _ _ => ⟨h.shape.le, Nat.le_refl _⟩
  refine h.extend (List.prefix_refl _) hshape (hw.refines h.shape settles_downgrade)
    fun env R s _ _ hq => ?_
  rcases hq with ⟨hpc, hv⟩ | ⟨b', hq⟩
  · exact ⟨s, ReflTransGen.refl, fun _ _ => rfl, Or.inl ⟨by rw [hw.length]; exact hpc, hv⟩⟩
  · by_cases hb : b' = b
    · subst hb
      obtain ⟨i, hi, hskip, -⟩ := hq.stop
      have hrun := hw.exit h.shape settles_downgrade hsmall (fun _ _ => Nat.le_refl _) hq.mem hi
        hskip
      obtain ⟨j, hj, -, hp⟩ := (h.shape.hole _ (List.mem_append_left _ hq.mem)).control
      rw [Nat.add_sub_cancel] at hj
      obtain rfl := Option.some.inj (hi.symm.trans hj)
      rw [Instruction.taken_downgrade hp] at hrun
      exact ⟨_, hrun, fun _ _ => rfl, Or.inl ⟨hw.length.symm, hq.truthy⟩⟩
    · obtain rfl : b' = !b := by cases b <;> cases b' <;> simp_all
      refine ⟨s, ReflTransGen.refl, fun _ _ => rfl, Or.inr ⟨!b, hq.mono (fun hm => ?_) ?_⟩⟩
      · rw [d.exits_setExits, if_neg hb]
        exact hm
      · intro i hi
        have := (hw.other h.shape hq.mem).2
        rw [Nat.add_sub_cancel] at this
        rw [this, hi]

/-! ### A second operand -/

/-- Holes in front of the code are out of its way. -/
theorem Run.add_holes {env : CodeEnv} {s s' : ℕ × Regs} (h : Run env lo T holes s s')
    (hlt : ∀ x ∈ holes', x ≤ lo) (hne : lo ∉ holes') : Run env lo T (holes ++ holes') s s' := by
  induction h with
  | refl => exact ReflTransGen.refl
  | tail _ hstep ih =>
      refine ih.tail ?_
      obtain ⟨hlo, hpc, i, hi, hs⟩ := hstep
      have hout : ∀ pc, lo ≤ pc → pc ∉ holes' := by
        intro pc hle hm
        have := hlt pc hm
        obtain rfl : pc = lo := by omega
        exact hne hm
      refine ⟨hlo, fun hm => (List.mem_append.1 hm).elim hpc (hout _ hlo), i, hi, ?_⟩
      have hiff : ∀ pc, lo ≤ pc → (pc ∈ holes ++ holes' ↔ pc ∈ holes) := fun pc hle =>
        ⟨fun hm => (List.mem_append.1 hm).elim id fun h => absurd h (hout _ hle),
          List.mem_append_left _⟩
      rw [if_congr (hiff _ (by omega)) rfl rfl]
      exact hs

theorem ExprDesc.pending_setExits_perm (d : ExprDesc) (b : Bool) (list : List ℕ) :
    (d.pending ++ list).Perm (d.setExits b (d.exits b ++ list)).pending := by
  cases b
  · simp [pending, jumps, head, setExits, exits]
  · simp only [pending, jumps, head, setExits, exits, if_true, List.append_assoc]
    exact (List.perm_append_comm.append_left _).append_left _

theorem ExprDesc.kind_setExits (d : ExprDesc) (b : Bool) (list : List ℕ) :
    (d.setExits b list).kind = d.kind := by
  cases b <;> rfl

theorem ExprDesc.mem_exits_setExits_append {d : ExprDesc} {b b' : Bool} {list : List ℕ} {x : ℕ}
    (h : x ∈ d.exits b') : x ∈ (d.setExits b (d.exits b ++ list)).exits b' := by
  rw [d.exits_setExits]
  split
  · rename_i hb
    subst hb
    exact List.mem_append_left _ h
  · exact h

theorem Evaluates.of_exit {env : CodeEnv} {v : Value} {s : ℕ × Regs}
    (h : Exit env T (d.exits b) b v s) :
    Evaluates T d env v s := by
  unfold Evaluates
  cases d.kind with
  | jump p => cases p <;> exact Or.inr ⟨b, h⟩
  | _ => exact Or.inr ⟨b, h⟩

/-- More exits than before. -/
theorem Evaluates.setExits {list : List ℕ} {env : CodeEnv} {v : Value} {s : ℕ × Regs}
    (h : Evaluates T d env v s) : Evaluates T (d.setExits b (d.exits b ++ list)) env v s := by
  have hexit : (∃ b', Exit env T (d.exits b') b' v s) →
      ∃ b', Exit env T ((d.setExits b (d.exits b ++ list)).exits b') b' v s := by
    rintro ⟨b', he⟩
    exact ⟨b', he.mono ExprDesc.mem_exits_setExits_append fun i hi => hi⟩
  unfold Evaluates at h ⊢
  rw [d.kind_setExits]
  cases hk : d.kind with
  | jump p =>
      rw [hk] at h
      cases p with
      | some idx => exact h.imp_right hexit
      | none => exact h.imp_right hexit
  | _ => rw [hk] at h; exact h.imp_right hexit

/-- The code of a second operand, where the first one falls through. -/
theorem Frag.join {d₁ d₂ : ExprDesc} {val₁ val₂ : CodeEnv → Regs → Value}
    (h₁ : Frag K lo nactvar T (d₁.exits (!b)) events val₁ (Branch T d₁ b)) (hnil : d₁.exits b = [])
    (h₂ : Frag K' T.length nactvar T' d₂.pending events' val₂ (Evaluates T' d₂)) (hT : T <+: T')
    (hK : K <+: K')
    (hval : ∀ env R R', (∀ r < nactvar, R' r = R r) → val₂ env R' = val₂ env R) :
    Frag K' lo nactvar T' (d₂.setExits (!b) (d₂.exits (!b) ++ d₁.exits (!b))).pending
      (events ++ events')
      (fun env R => if (val₁ env R).truthy = b then val₂ env R else val₁ env R)
      (Evaluates T' (d₂.setExits (!b) (d₂.exits (!b) ++ d₁.exits (!b)))) := by
  have hperm := d₂.pending_setExits_perm (!b) (d₁.exits (!b))
  have hshape := (h₁.shape.append h₂.shape hT).perm hperm
  have hr : Refines T (d₁.exits (!b)) T'
      (d₂.setExits (!b) (d₂.exits (!b) ++ d₁.exits (!b))).pending := by
    refine Refines.append hT fun x hx => ?_
    rcases List.mem_append.1 (hperm.mem_iff.2 hx) with hm | hm
    · exact Or.inr (h₂.shape.hole x hm).lt
    · exact Or.inl hm
  refine h₁.extend hK hshape hr fun env R s henv hbelow hq => ?_
  rcases hq with ⟨hpc, hv⟩ | ⟨b', hq⟩
  · obtain ⟨s', hrun, hbelow', hq'⟩ := h₂.evals env henv s.2
    have hlt : ∀ x ∈ d₁.exits (!b), x < T.length := fun x hx => (h₁.shape.hole x hx).lt_length
    have hrun' := (hrun.add_holes (fun x hx => Nat.le_of_lt (hlt x hx))
      fun hm => absurd (hlt _ hm) (Nat.lt_irrefl _)).of_le h₁.shape.le
    refine ⟨s', ?_, hbelow', ?_⟩
    · rw [show s = (T.length, s.2) from Prod.ext hpc rfl]
      exact hrun'.refines (Refines.append (List.prefix_refl _)
        fun x hx => Or.inl (hperm.mem_iff.2 hx))
    · rw [if_pos hv, ← hval env R s.2 hbelow]
      exact hq'.setExits
  · have hb : b' = !b := by
      by_contra hne
      obtain rfl : b' = b := by cases b <;> cases b' <;> simp_all
      have hm := hq.mem
      rw [hnil] at hm
      exact absurd hm List.not_mem_nil
    subst hb
    refine ⟨s, ReflTransGen.refl, fun _ _ => rfl, ?_⟩
    have hne : (val₁ env R).truthy ≠ b := by rw [hq.truthy]; cases b <;> simp
    rw [if_neg hne]
    have hget : ∀ i, T[s.1]? = some i → T'[s.1]? = some i := by
      obtain ⟨u, rfl⟩ := hT
      intro i hi
      rw [List.getElem?_append_left (List.getElem?_eq_some_iff.1 hi).1]
      exact hi
    refine Evaluates.of_exit (hq.mono (fun hm => ?_) hget)
    rw [d₂.exits_setExits, if_pos rfl]
    exact List.mem_append_right _ hm

/-! ### Instructions at the end of the code -/

/-- An instruction behind the code, for the runs that fall through. -/
theorem Frag.emit {i : Instruction} {P P' : Value → Regs → Prop}
    (h : Frag K lo nactvar T holes events val (Leaves T d P)) (hK : K <+: K')
    (hplain : i.isPlain = true)
    (hexec : ∀ env : CodeEnv, K' <+: env.constants → ∀ v R, P v R → ∃ R',
      i.exec env T.length R = some (T.length + 1, R') ∧ (∀ r < nactvar, R' r = R r) ∧ P' v R') :
    Frag K' lo nactvar (T ++ [i]) holes events val (Leaves (T ++ [i]) d P') := by
  have hshape := h.shape.append (Shape.plain hplain) (prefix_append T [i])
  rw [List.nil_append, List.append_nil] at hshape
  have hr : Refines T holes (T ++ [i]) holes :=
    Refines.append (prefix_append _ _) fun x hx => Or.inl hx
  refine h.extend hK hshape hr fun env R s henv _ hq => ?_
  rcases hq with ⟨hpc, hp⟩ | ⟨b, hq⟩
  · obtain ⟨R', hrun, hbelow, hp'⟩ := hexec env henv _ _ hp
    have hout : ∀ pc, T.length ≤ pc → pc ∉ holes := by
      intro pc hle hm
      have := (h.shape.hole pc hm).lt_length
      omega
    refine ⟨(T.length + 1, R'), ReflTransGen.single ⟨?_, ?_, i, ?_, ?_⟩, hbelow,
      Or.inl ⟨by simp, hp'⟩⟩
    · rw [hpc]
      exact h.shape.le
    · rw [hpc]
      exact hout _ (Nat.le_refl _)
    · rw [hpc]
      exact getElem?_append_length_add T [i] 0
    · rw [if_neg (hout _ (by omega)), hpc]
      exact hrun
  · refine ⟨s, ReflTransGen.refl, fun _ _ => rfl, Or.inr ⟨b, hq.mono id fun j hj => ?_⟩⟩
    rw [List.getElem?_append_left (List.getElem?_eq_some_iff.1 hj).1]
    exact hj

/-! ### Negation -/

/-- The controls of a list lose their placeholders. -/
structure Downgrades (T : List Instruction) (list : List ℕ) (T' : List Instruction) : Prop where
  length : T'.length = T.length
  get : ∀ (k : ℕ) (i : Instruction), T[k]? = some i →
    T'[k]? = some (if k + 1 ∈ list then i.downgrade else i)

theorem Instruction.downgrade_of_not_control {i : Instruction} (h : i.isControl = false) :
    i.downgrade = i := by
  cases i <;> simp_all [isControl, downgrade]

theorem Instruction.pending_downgrade {i : Instruction} (h : i.Pending) : i.downgrade.Pending := by
  cases i with
  | testset dst src c =>
      have hdst : dst = noReg := h
      simp [downgrade, hdst, Pending]
  | _ => exact h

theorem Downgrades.recontrol (hd : Downgrades T list T') : Recontrol T T' where
  length := hd.length
  plain k i hi hc := by
    rw [hd.get k i hi, Instruction.downgrade_of_not_control hc, ite_self]
  control k i hi hc := by
    refine ⟨_, hd.get k i hi, ?_⟩
    split
    · refine ⟨Instruction.isControl_downgrade hc, Instruction.pending_downgrade, ?_⟩
      intro src c h
      exact absurd h (settles_downgrade.placed i hc src c)
    · exact ⟨hc, id, fun src c h => ⟨src, c, h⟩⟩

theorem Downgrades.refines (hd : Downgrades T list T') (hlist : ∀ h ∈ list, h ∈ holes) :
    Refines T holes T' holes where
  sub h hm _ := hm
  plain pc i hi _ hm := by
    rw [hd.get pc i hi, if_neg fun h => hm (hlist _ h)]
  control pc i hi _ := by
    refine ⟨_, hd.get pc i hi, ?_⟩
    split
    · exact Instruction.sameSkips_downgrade i
    · exact Instruction.SameSkips.refl i

/-- The exits change places. -/
def ExprDesc.swap (d : ExprDesc) (kind : ExprKind) : ExprDesc :=
  { kind := kind, trueList := d.falseList, falseList := d.trueList }

/-- The value of a negation. -/
def Value.negate (v : Value) : Value := Value.boolean v.isFalsy

@[simp] theorem Value.truthy_negate (v : Value) : v.negate.truthy = !v.truthy := by
  rw [Value.negate, Value.truthy_boolean]
  simp [Value.truthy]

theorem Instruction.carries_negate {i : Instruction} (hp : i.Pending) (R : Regs) (v : Value) :
    i.downgrade.Carries R v.negate := by
  have hv : v.negate = Value.boolean v.negate.truthy := by
    rw [Value.truthy_negate]
    simp [Value.negate, Value.truthy]
  cases i with
  | testset dst src c =>
      have hdst : dst = noReg := hp
      simpa [downgrade, hdst, Carries] using hv
  | _ => exact hv

theorem Exit.negate (hs : Shape lo T holes events) (hd : Downgrades T d.jumps T')
    (hsub : ∀ h ∈ d.jumps, h ∈ holes) {kind : ExprKind} {env : CodeEnv} {v : Value} {s : ℕ × Regs}
    (h : Exit env T (d.exits b) b v s) :
    Exit env T' ((d.swap kind).exits (!b)) (!b) v.negate s := by
  obtain ⟨i, hi, hskip, -⟩ := h.stop
  have hm := h.mem_jumps
  obtain ⟨j, hj, -, hp⟩ := (hs.hole _ (hsub _ hm)).control
  rw [Nat.add_sub_cancel] at hj
  obtain rfl := Option.some.inj (hi.symm.trans hj)
  refine ⟨?_, by rw [Value.truthy_negate, h.truthy], i.downgrade, ?_, ?_, ?_⟩
  · have := h.mem
    cases b <;> exact this
  · rw [hd.get _ _ hi, if_pos hm]
  · rw [Instruction.sameSkips_downgrade i]
    exact hskip
  · exact Instruction.carries_negate hp _ _

/-- The negation of an expression whose value is known when its code falls through. -/
theorem Frag.negate {kind : ExprKind} {P P' : Value → Regs → Prop}
    (h : Frag K lo nactvar T d.jumps events val (Leaves T d P)) (hd : Downgrades T d.jumps T')
    (hP : ∀ v R, P v R → P' v.negate R) :
    Frag K lo nactvar T' (d.swap kind).jumps events (fun env R => (val env R).negate)
      (Leaves T' (d.swap kind) P') := by
  have hperm : d.jumps.Perm (d.swap kind).jumps := List.perm_append_comm
  have hr : Refines T d.jumps T' (d.swap kind).jumps := by
    have : Refines T d.jumps T' d.jumps := hd.refines fun h hm => hm
    exact ⟨fun x hx hle => this.sub x (hperm.mem_iff.2 hx) hle, this.plain, this.control⟩
  refine h.extend (List.prefix_refl _) ((h.shape.recontrol hd.recontrol).perm hperm) hr
    fun env R s _ _ hq => ⟨s, ReflTransGen.refl, fun _ _ => rfl, ?_⟩
  rcases hq with ⟨hpc, hp⟩ | ⟨b, hq⟩
  · exact Or.inl ⟨by rw [hd.length]; exact hpc, hP _ _ hp⟩
  · exact Or.inr ⟨!b, hq.negate h.shape hd fun _ hm => hm⟩

/-- The negation of an expression with a pending head. -/
theorem Frag.negate_head {idx : ℕ} {kind : ExprKind}
    (h : Frag K lo nactvar T (idx :: d.jumps) events val (LeavesAtHead T d idx (!b)))
    (hd : Downgrades T d.jumps T') :
    Frag K lo nactvar T' (idx :: (d.swap kind).jumps) events (fun env R => (val env R).negate)
      (LeavesAtHead T' (d.swap kind) idx b) := by
  have hperm : (idx :: d.jumps).Perm (idx :: (d.swap kind).jumps) :=
    (List.perm_append_comm).cons idx
  have hr : Refines T (idx :: d.jumps) T' (idx :: (d.swap kind).jumps) := by
    have : Refines T (idx :: d.jumps) T' (idx :: d.jumps) :=
      hd.refines fun h hm => List.mem_cons_of_mem _ hm
    exact ⟨fun x hx hle => this.sub x (hperm.mem_iff.2 hx) hle, this.plain, this.control⟩
  refine h.extend (List.prefix_refl _) ((h.shape.recontrol hd.recontrol).perm hperm) hr
    fun env R s _ _ hq => ⟨s, ReflTransGen.refl, fun _ _ => rfl, ?_⟩
  rcases hq with ⟨hpc, i, c, hi, hskip, hv⟩ | ⟨b', hq⟩
  · refine Or.inl ⟨hpc, i, c, ?_, hskip, ?_⟩
    · rw [hd.get _ _ hi, if_neg]
      rw [hpc]
      exact (List.nodup_cons.1 h.shape.nodup).1
    · rw [hv]
      cases b <;> cases c <;> rfl
  · exact Or.inr ⟨!b', hq.negate h.shape hd fun _ hm => List.mem_cons_of_mem _ hm⟩

end

end Tcvm
