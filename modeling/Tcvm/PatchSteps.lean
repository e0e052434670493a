/-
What patching does to the tape.

The patching primitives change controls and jumps in place.  Each rule says which instructions are
where afterwards and what has been logged; what that means for the code is said elsewhere.

* `Rewrites` — only instructions in place and the log change;
* `downgradeTestsets_spec`, `patchTo_spec` — patching in a branch;
* `needValue_spec`, `patchListAux_spec` — patching in a value context.
-/

import Tcvm.CompilerSteps
import Tcvm.FragmentDischarge

namespace Tcvm

open CompileM StateExcept

variable {c c' c'' : Ctx} {log log' : List Event}

/-- The step changes instructions in place and logs `log`. -/
structure Rewrites (c : Ctx) (log : List Event) (c' : Ctx) : Prop where
  scope : c'.scope = c.scope
  nactvar : c'.chunk.nactvar = c.chunk.nactvar
  constants : c'.chunk.constants = c.chunk.constants
  events : c'.events = c.events ++ log
  length : c'.chunk.tape.length = c.chunk.tape.length

theorem Rewrites.refl (c : Ctx) : Rewrites c [] c := ⟨rfl, rfl, rfl, (List.append_nil _).symm, rfl⟩

theorem Rewrites.trans (h : Rewrites c log c') (h' : Rewrites c' log' c'') :
    Rewrites c (log ++ log') c'' where
  scope := h'.scope.trans h.scope
  nactvar := h'.nactvar.trans h.nactvar
  constants := h'.constants.trans h.constants
  events := by rw [h'.events, h.events, List.append_assoc]
  length := h'.length.trans h.length

theorem Rewrites.keeps (h : Rewrites c log c') : Keeps c 0 c' where
  scope := h.scope
  nactvar := h.nactvar
  constants := h.constants ▸ List.prefix_refl _
  room hc := by rw [h.constants]; exact hc
  events := by rw [h.events]; exact List.prefix_append _ _
  length := Nat.le_of_eq h.length

theorem rewrites_setTape {idx : ℕ} {i : Instruction} {u : Unit}
    (h : setTape idx i c = Except.ok (u, c')) :
    Rewrites c [] c' ∧ c'.chunk.tape = c.chunk.tape.set idx i := by
  obtain rfl := setTape_eq_ok.1 h
  exact ⟨⟨rfl, rfl, rfl, (List.append_nil _).symm, List.length_set⟩, rfl⟩

theorem rewrites_record {e : Event} {u : Unit} (h : record e c = Except.ok (u, c')) :
    Rewrites c [e] c' ∧ c'.chunk.tape = c.chunk.tape := by
  obtain rfl := record_eq_ok.1 h
  exact ⟨⟨rfl, rfl, rfl, rfl, rfl⟩, rfl⟩

theorem assertCtrlPredecessor_spec {j : ℕ} {u : Unit}
    (h : assertCtrlPredecessor j c = Except.ok (u, c')) : c = c' := by
  unfold assertCtrlPredecessor at h
  split at h
  · exact (pure_eq_ok.1 h).2
  · obtain ⟨i, c₁, h₁, h⟩ := bind_eq_ok.1 h
    obtain ⟨-, rfl⟩ := tapeAt_eq_ok.1 h₁
    exact (ensure_eq_ok.1 h).2

/-- The jumps of a list are no controls of each other. -/
structure Separate (list : List ℕ) : Prop where
  nodup : list.Nodup
  pos : ∀ h ∈ list, 0 < h
  apart : ∀ h ∈ list, h - 1 ∉ list

theorem Separate.tail {j : ℕ} {rest : List ℕ} (h : Separate (j :: rest)) : Separate rest where
  nodup := (List.nodup_cons.1 h.nodup).2
  pos x hx := h.pos x (List.mem_cons_of_mem _ hx)
  apart x hx hm := h.apart x (List.mem_cons_of_mem _ hx) (List.mem_cons_of_mem _ hm)

theorem Separate.sub {list list' : List ℕ} (h : Separate list) (hnodup : list'.Nodup)
    (hsub : ∀ x ∈ list', x ∈ list) : Separate list' where
  nodup := hnodup
  pos x hx := h.pos x (hsub x hx)
  apart x hx hm := h.apart x (hsub x hx) (hsub _ hm)

theorem Shape.separate {lo : ℕ} {T : List Instruction} {holes : List ℕ} {events : List Event}
    (hs : Shape lo T holes events) : Separate holes where
  nodup := hs.nodup
  pos h hm := Nat.lt_of_le_of_lt (Nat.zero_le lo) (hs.hole h hm).lt
  apart _ hm := hs.control_not_mem hm

/-! ### Downgrading -/

theorem Instruction.downgrade_downgrade (i : Instruction) :
    i.downgrade.downgrade = i.downgrade := by
  cases i with
  | testset dst src inverted =>
      by_cases hdst : dst = noReg <;> simp [downgrade, hdst]
  | _ => rfl

theorem downgradeTestsets_spec {list : List ℕ} {u : Unit} (hpos : ∀ h ∈ list, 0 < h)
    (h : downgradeTestsets list c = Except.ok (u, c')) :
    Rewrites c [] c' ∧ Downgrades c.chunk.tape list c'.chunk.tape := by
  induction list generalizing c with
  | nil =>
      obtain ⟨-, rfl⟩ := pure_eq_ok.1 h
      exact ⟨Rewrites.refl c, rfl, fun k i hi => by simpa using hi⟩
  | cons j rest ih =>
      have hj := hpos j List.mem_cons_self
      unfold downgradeTestsets at h
      rw [if_neg (by omega)] at h
      obtain ⟨u₂, c₂, h₂, h⟩ := bind_eq_ok.1 h
      obtain rfl := assertCtrlPredecessor_spec h₂
      obtain ⟨ctrl, c₃, h₃, h⟩ := bind_eq_ok.1 h
      obtain ⟨hctrl, rfl⟩ := tapeAt_eq_ok.1 h₃
      obtain ⟨u₁, c₁, h₁, h⟩ := bind_eq_ok.1 h
      obtain ⟨hset, htape⟩ := rewrites_setTape h₁
      obtain ⟨hrest, hdown⟩ := ih (fun x hx => hpos x (List.mem_cons_of_mem _ hx)) h
      refine ⟨hset.trans hrest, hdown.length.trans hset.length, fun k i hi => ?_⟩
      rcases eq_or_ne (j - 1) k with hk | hk
      · subst hk
        obtain rfl := Option.some.inj (hctrl.symm.trans hi)
        have hd : c₁.chunk.tape[j - 1]? = some ctrl.downgrade := by
          rw [htape]
          exact List.getElem?_set_self (List.getElem?_eq_some_iff.1 hctrl).1
        have := hdown.get _ _ hd
        rw [Instruction.downgrade_downgrade, ite_self] at this
        rw [this, if_pos (by rw [Nat.sub_add_cancel hj]; exact List.mem_cons_self)]
      · have hd : c₁.chunk.tape[k]? = some i := by
          rw [htape, List.getElem?_set_ne hk, hi]
        have hiff : k + 1 ∈ j :: rest ↔ k + 1 ∈ rest := by
          rw [List.mem_cons]
          constructor
          · rintro (h | h)
            · omega
            · exact h
          · exact Or.inr
        rw [hdown.get _ _ hd, if_congr hiff rfl rfl]

/-! ### Patching in a branch -/

theorem patchJmp_spec {idx target : ℕ} {u : Unit} (h : patchJmp idx target c = Except.ok (u, c')) :
    Rewrites c [Event.patched idx target] c' ∧
      c'.chunk.tape = c.chunk.tape.set idx (Instruction.jmp (jumpOffset idx target)) ∧
      idx < c.chunk.tape.length := by
  unfold patchJmp at h
  obtain ⟨i, c₁, h₁, h⟩ := bind_eq_ok.1 h
  obtain ⟨hi, rfl⟩ := tapeAt_eq_ok.1 h₁
  cases i with
  | jmp o =>
      obtain ⟨u₁, c₂, h₂, h⟩ := bind_eq_ok.1 h
      obtain ⟨hset, htape⟩ := rewrites_setTape h₂
      obtain ⟨hrec, htape'⟩ := rewrites_record h
      exact ⟨hset.trans hrec, htape'.trans htape, (List.getElem?_eq_some_iff.1 hi).1⟩
  | _ => exact absurd h (by simp [throw_eq_ok])

theorem patchJmps_spec {list : List ℕ} {target : ℕ} {u : Unit}
    (h : (list.forM fun idx => patchJmp idx target) c = Except.ok (u, c')) :
    Rewrites c (patches list fun _ => target) c' ∧ ∀ k, c'.chunk.tape[k]? =
      if k ∈ list then some (Instruction.jmp (jumpOffset k target)) else c.chunk.tape[k]? := by
  induction list generalizing c with
  | nil =>
      obtain ⟨-, rfl⟩ := pure_eq_ok.1 h
      exact ⟨Rewrites.refl c, fun k => by simp⟩
  | cons j rest ih =>
      obtain ⟨u₁, c₁, h₁, h⟩ := bind_eq_ok.1 h
      obtain ⟨hset, htape, hlt⟩ := patchJmp_spec h₁
      obtain ⟨hrest, hget⟩ := ih h
      refine ⟨hset.trans hrest, fun k => ?_⟩
      rw [hget k, htape]
      rcases eq_or_ne j k with rfl | hne
      · rw [List.getElem?_set_self hlt, ite_self, if_pos List.mem_cons_self]
      · have hiff : k ∈ j :: rest ↔ k ∈ rest := by
          rw [List.mem_cons]
          exact ⟨fun h => h.resolve_left (Ne.symm hne), Or.inr⟩
        rw [List.getElem?_set_ne hne, if_congr hiff rfl rfl]

/-- Patching in a branch aims every jump and downgrades its control. -/
theorem patchTo_spec {list : List ℕ} {target : ℕ} {u : Unit} (hsep : Separate list)
    (h : patchTo list target c = Except.ok (u, c')) :
    Rewrites c (patches list fun _ => target) c' ∧
      Rewire c.chunk.tape list (fun _ => target) Instruction.downgrade c'.chunk.tape := by
  unfold patchTo at h
  obtain ⟨u₁, c₁, h₁, h⟩ := bind_eq_ok.1 h
  obtain ⟨u₂, c₂, h₂, h₃⟩ := bind_eq_ok.1 h
  obtain ⟨hdown, hget⟩ := downgradeTestsets_spec hsep.pos h₁
  obtain ⟨hpatch, hget'⟩ := patchJmps_spec h₂
  obtain rfl := modifyChunk_eq_ok.1 h₃
  have hr : Rewrites c ([] ++ patches list fun _ => target) c₂ := hdown.trans hpatch
  refine ⟨⟨hr.scope, hr.nactvar, hr.constants, hr.events, hr.length⟩, hr.length, ?_, ?_, ?_⟩
  · intro k hk hk'
    show c₂.chunk.tape[k]? = _
    rw [hget' k, if_neg hk]
    cases hi : c.chunk.tape[k]? with
    | none =>
        rw [List.getElem?_eq_none_iff] at hi ⊢
        rw [hdown.length]
        exact hi
    | some i => rw [hget.get k i hi, if_neg hk']
  · intro x hx
    show c₂.chunk.tape[x]? = _
    rw [hget' x, if_pos hx]
  · intro x hx i hi
    show c₂.chunk.tape[x - 1]? = _
    rw [hget' _, if_neg (hsep.apart x hx), hget.get _ i hi,
      if_pos (by rw [Nat.sub_add_cancel (hsep.pos x hx)]; exact hx)]

/-! ### Patching in a value context -/

/-- When no value is needed, every control of the list preserves its operand. -/
theorem needValue_spec {list : List ℕ} {b : Bool} (h : needValue list c = Except.ok (b, c')) :
    c = c' ∧ (b = false → ∀ x ∈ list, ∀ i, c.chunk.tape[x - 1]? = some i → i.isTestset = true) := by
  induction list with
  | nil =>
      obtain ⟨-, rfl⟩ := pure_eq_ok.1 h
      exact ⟨rfl, fun _ x hx => absurd hx List.not_mem_nil⟩
  | cons j rest ih =>
      unfold needValue at h
      split at h
      · obtain ⟨rfl, rfl⟩ := pure_eq_ok.1 h
        exact ⟨rfl, fun h => absurd h (by simp)⟩
      · obtain ⟨u₁, c₁, h₁, h⟩ := bind_eq_ok.1 h
        obtain rfl := assertCtrlPredecessor_spec h₁
        obtain ⟨i, c₂, h₂, h⟩ := bind_eq_ok.1 h
        obtain ⟨hi, rfl⟩ := tapeAt_eq_ok.1 h₂
        cases i with
        | testset dst src inverted =>
            simp only at h
            split at h
            · obtain ⟨rfl, hrest⟩ := ih h
              refine ⟨rfl, fun hb x hx i hx' => ?_⟩
              rcases List.mem_cons.1 hx with rfl | hx
              · obtain rfl := Option.some.inj (hi.symm.trans hx')
                rfl
              · exact hrest hb x hx i hx'
            · obtain ⟨rfl, rfl⟩ := pure_eq_ok.1 h
              exact ⟨rfl, fun h => absurd h (by simp)⟩
        | _ =>
            obtain ⟨rfl, rfl⟩ := pure_eq_ok.1 h
            exact ⟨rfl, fun h => absurd h (by simp)⟩

/-- Where an exit goes in a value context: one that preserves its operand goes to `vtarget`. -/
def valueTarget (T : List Instruction) (vtarget dtarget h : ℕ) : ℕ :=
  match T[h - 1]? with
  | some i => if i.isTestset then vtarget else dtarget
  | none => dtarget

theorem exitTarget_spec {vtarget reg dtarget j target : ℕ} (hj : 0 < j)
    (hpend : ∀ i, c.chunk.tape[j - 1]? = some i → i.Pending)
    (h : exitTarget vtarget reg dtarget j c = Except.ok (target, c')) :
    Rewrites c [] c' ∧ target = valueTarget c.chunk.tape vtarget dtarget j ∧
      ∃ ctrl, c.chunk.tape[j - 1]? = some ctrl ∧
        c'.chunk.tape = c.chunk.tape.set (j - 1) (ctrl.aim reg) := by
  unfold exitTarget at h
  rw [if_neg (by omega)] at h
  obtain ⟨u₁, c₁, h₁, h⟩ := bind_eq_ok.1 h
  obtain rfl := assertCtrlPredecessor_spec h₁
  obtain ⟨ctrl, c₂, h₂, h⟩ := bind_eq_ok.1 h
  obtain ⟨hctrl, rfl⟩ := tapeAt_eq_ok.1 h₂
  have hlt := (List.getElem?_eq_some_iff.1 hctrl).1
  have hset : c.chunk.tape.set (j - 1) ctrl = c.chunk.tape := by
    rw [← Option.some.inj ((List.getElem?_eq_getElem hlt).symm.trans hctrl), List.set_getElem_self]
  cases ctrl with
  | testset dst src inverted =>
      have hdst : dst = noReg := hpend _ hctrl
      simp only [hdst, if_true] at h
      split at h
      · rename_i hsrc
        obtain ⟨u₃, c₃, h₃, h⟩ := bind_eq_ok.1 h
        obtain ⟨rfl, rfl⟩ := pure_eq_ok.1 h
        obtain ⟨hrw, htape⟩ := rewrites_setTape h₃
        refine ⟨hrw, ?_, _, hctrl, ?_⟩
        · simp [valueTarget, hctrl, Instruction.isTestset]
        · rw [htape]
          simp [Instruction.aim, hdst, hsrc]
      · rename_i hsrc
        obtain ⟨u₃, c₃, h₃, h⟩ := bind_eq_ok.1 h
        obtain ⟨rfl, rfl⟩ := pure_eq_ok.1 h
        obtain ⟨hrw, htape⟩ := rewrites_setTape h₃
        refine ⟨hrw, ?_, _, hctrl, ?_⟩
        · simp [valueTarget, hctrl, Instruction.isTestset]
        · rw [htape]
          simp [Instruction.aim, hdst, hsrc]
  | _ =>
      obtain ⟨rfl, rfl⟩ := pure_eq_ok.1 h
      refine ⟨Rewrites.refl _, ?_, _, hctrl, hset.symm⟩
      simp [valueTarget, hctrl, Instruction.isTestset]

theorem retarget_spec {idx target : ℕ} {u : Unit} {o : ℤ}
    (hjmp : c.chunk.tape[idx]? = some (Instruction.jmp o))
    (h : retarget idx target c = Except.ok (u, c')) :
    Rewrites c [Event.patched idx target] c' ∧
      c'.chunk.tape = c.chunk.tape.set idx (Instruction.jmp (jumpOffset idx target)) := by
  unfold retarget at h
  obtain ⟨i, c₁, h₁, h⟩ := bind_eq_ok.1 h
  obtain ⟨hi, rfl⟩ := tapeAt_eq_ok.1 h₁
  obtain rfl := Option.some.inj (hjmp.symm.trans hi)
  obtain ⟨u₁, c₂, h₂, h⟩ := bind_eq_ok.1 h
  obtain ⟨hset, htape⟩ := rewrites_setTape h₂
  obtain ⟨hrec, htape'⟩ := rewrites_record h
  exact ⟨hset.trans hrec, htape'.trans htape⟩

/-- Patching in a value context settles every control and aims every jump. -/
theorem patchListAux_spec {vtarget reg dtarget : ℕ} {list : List ℕ} {u : Unit}
    {T : List Instruction} (hsep : Separate list)
    (hjmp : ∀ x ∈ list, ∃ o, c.chunk.tape[x]? = some (Instruction.jmp o))
    (hctrl : ∀ x ∈ list, c.chunk.tape[x - 1]? = T[x - 1]?)
    (hpend : ∀ x ∈ list, ∀ i, T[x - 1]? = some i → i.Pending)
    (h : patchListAux vtarget reg dtarget list c = Except.ok (u, c')) :
    Rewrites c (patches list (valueTarget T vtarget dtarget)) c' ∧
      Rewire c.chunk.tape list (valueTarget T vtarget dtarget) (Instruction.aim reg)
        c'.chunk.tape := by
  induction list generalizing c with
  | nil =>
      obtain ⟨-, rfl⟩ := pure_eq_ok.1 h
      exact ⟨Rewrites.refl c, rfl, fun _ _ _ => rfl, fun x hx => absurd hx List.not_mem_nil,
        fun x hx => absurd hx List.not_mem_nil⟩
  | cons j rest ih =>
      have hmem : j ∈ j :: rest := List.mem_cons_self
      have hj := hsep.pos j hmem
      have hnot := (List.nodup_cons.1 hsep.nodup).1
      have hapart : ∀ x ∈ rest, x ≠ j ∧ x ≠ j - 1 ∧ x - 1 ≠ j ∧ x - 1 ≠ j - 1 := by
        intro x hx
        have hx' := List.mem_cons_of_mem j hx
        have hpos := hsep.pos x hx'
        have hne : x ≠ j := by rintro rfl; exact hnot hx
        refine ⟨hne, ?_, ?_, by omega⟩
        · rintro rfl
          exact hsep.apart j hmem hx'
        · rintro rfl
          exact hsep.apart x hx' hmem
      obtain ⟨o, ho⟩ := hjmp j hmem
      unfold patchListAux at h
      obtain ⟨target, c₁, h₁, h⟩ := bind_eq_ok.1 h
      obtain ⟨u₂, c₂, h₂, h⟩ := bind_eq_ok.1 h
      obtain ⟨hrw₁, htarget, ctrl, hi, htape₁⟩ := exitTarget_spec hj
        (fun i hi => hpend j hmem i (by rw [← hctrl j hmem]; exact hi)) h₁
      have ho₁ : c₁.chunk.tape[j]? = some (Instruction.jmp o) := by
        rw [htape₁, List.getElem?_set_ne (by omega), ho]
      obtain ⟨hrw₂, htape₂⟩ := retarget_spec ho₁ h₂
      have hsame : ∀ k, k ≠ j → k ≠ j - 1 → c₂.chunk.tape[k]? = c.chunk.tape[k]? := by
        intro k hk hk'
        rw [htape₂, List.getElem?_set_ne (Ne.symm hk), htape₁,
          List.getElem?_set_ne (Ne.symm hk')]
      obtain ⟨hrw, hw⟩ := ih hsep.tail
        (fun x hx => by
          obtain ⟨h₁, h₂, -, -⟩ := hapart x hx
          rw [hsame x h₁ h₂]
          exact hjmp x (List.mem_cons_of_mem _ hx))
        (fun x hx => by
          obtain ⟨-, -, h₃, h₄⟩ := hapart x hx
          rw [hsame _ h₃ h₄]
          exact hctrl x (List.mem_cons_of_mem _ hx))
        (fun x hx => hpend x (List.mem_cons_of_mem _ hx)) h
      have htarget' : target = valueTarget T vtarget dtarget j := by
        rw [htarget, valueTarget, valueTarget, hctrl j hmem]
      have hkeep : ∀ k, k ∉ rest → k + 1 ∉ rest →
          c'.chunk.tape[k]? = c₂.chunk.tape[k]? := hw.rest
      have hrest₁ : j + 1 ∉ rest := fun hm => (hapart _ hm).2.2.1 (by omega)
      have hrest₂ : j - 1 ∉ rest := fun hm => (hapart _ hm).2.1 rfl
      have hrest₃ : j - 1 + 1 ∉ rest := by rwa [Nat.sub_add_cancel hj]
      refine ⟨?_, hw.length.trans (hrw₂.length.trans hrw₁.length), ?_, ?_, ?_⟩
      · have := (hrw₁.trans hrw₂).trans hrw
        rw [htarget'] at this
        exact this
      · intro k hk hk'
        rw [List.mem_cons, not_or] at hk hk'
        rw [hkeep k hk.2 hk'.2, hsame k hk.1 (by omega)]
      · intro x hx
        rcases List.mem_cons.1 hx with rfl | hx
        · rw [hkeep x hnot hrest₁, htape₂, List.getElem?_set_self, htarget']
          exact (List.getElem?_eq_some_iff.1 ho₁).1
        · exact hw.jmp x hx
      · intro x hx i hx'
        rcases List.mem_cons.1 hx with rfl | hx
        · obtain rfl := Option.some.inj (hi.symm.trans hx')
          rw [hkeep _ hrest₂ hrest₃, htape₂, List.getElem?_set_ne (by omega), htape₁,
            List.getElem?_set_self (List.getElem?_eq_some_iff.1 hi).1]
        · obtain ⟨-, -, h₃, h₄⟩ := hapart x hx
          exact hw.control x hx i (by rw [hsame _ h₃ h₄]; exact hx')

end Tcvm
