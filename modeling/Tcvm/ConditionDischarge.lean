/-
Discharging the code of a condition.

The steps by which the compiler puts the value of an expression into a register, and what they make
of the code compiled so far.

## Main definitions

* `Appends` — a step that only appends instructions.

## Main results

* `dischargeJumps_spec`: the fixup tail and the patching of both lists;
* `dischargeToRegMut_spec`: **the discharged value is in the register, and no jump is pending**.
-/

import Tcvm.ConditionCode

namespace Tcvm

open CompileM StateExcept

variable {c₀ c c' c'' : Ctx} {n n' : ℕ} {holes holes' : List ℕ} {val val' : CodeEnv → Regs → Value}
  {Q Q' : Outcomes} {d : ExprDesc} {b : Bool} {P P' : Value → Regs → Prop}

/-! ### Appending instructions -/

/-- The step appends `u` to the code. -/
structure Appends (c : Ctx) (u : List Instruction) (c' : Ctx) : Prop
    extends Keeps c u.length c' where
  tape : c'.chunk.tape = c.chunk.tape ++ u
  same : c'.events = c.events

theorem Quiet.appends (h : Quiet c c') : Appends c [] c' :=
  ⟨h.toKeeps, by rw [h.tape, List.append_nil], h.same⟩

theorem Appends.trans {u u' : List Instruction} (h : Appends c u c') (h' : Appends c' u' c'') :
    Appends c (u ++ u') c'' where
  toKeeps := (h.toKeeps.trans h'.toKeeps).mono (Nat.le_of_eq List.length_append.symm)
  tape := by rw [h'.tape, h.tape, List.append_assoc]
  same := h'.same.trans h.same

theorem appends_emit {i : Instruction} {u : Unit} (h : emit i c = Except.ok (u, c')) :
    Appends c [i] c' := by
  obtain rfl := emit_eq_ok.1 h
  refine ⟨⟨rfl, rfl, List.prefix_refl _, id, List.prefix_refl _, ?_⟩, rfl, rfl⟩
  simp

theorem appends_emitUnfilledJmp {j : ℕ} (h : emitUnfilledJmp c = Except.ok (j, c')) :
    j = c.chunk.tape.length ∧ Appends c [Instruction.jmp 0] c' := by
  unfold emitUnfilledJmp at h
  obtain ⟨j', c₁, h₁, h⟩ := bind_eq_ok.1 h
  obtain ⟨rfl, rfl⟩ := nextOffset_eq_ok.1 h₁
  obtain ⟨u, c₂, h₂, h⟩ := bind_eq_ok.1 h
  obtain ⟨rfl, rfl⟩ := pure_eq_ok.1 h
  exact ⟨rfl, appends_emit h₂⟩

/-- A control without a destination and its jump. -/
theorem appends_emitTestJump {src j : ℕ} (h : emitTestJump src (!b) c = Except.ok (j, c')) :
    j = c.chunk.tape.length + 1 ∧
      Appends c [Instruction.testset noReg src b, Instruction.jmp 0] c' := by
  unfold emitTestJump at h
  obtain ⟨u, c₁, h₁, h⟩ := bind_eq_ok.1 h
  rw [Bool.not_not] at h₁
  have happ := appends_emit h₁
  obtain ⟨rfl, happ'⟩ := appends_emitUnfilledJmp h
  refine ⟨?_, happ.trans happ'⟩
  rw [happ.tape, List.length_append, List.length_singleton]

theorem Appends.since {u : List Instruction} (h : Appends c u c') : c'.since c₀ = c.since c₀ := by
  rw [Ctx.since, h.same, Ctx.since]

/-- Code to which instructions are appended. -/
theorem Code.append {u : List Instruction} (h : Code c₀ n c holes val Q) (ha : Appends c u c')
    (hf : Frag c'.chunk.constants c₀.chunk.tape.length c₀.chunk.nactvar (c.chunk.tape ++ u) holes'
      (c.since c₀) val' (Q' (c.chunk.tape ++ u))) : Code c₀ (n + u.length) c' holes' val' Q' where
  toKeeps := h.toKeeps.trans ha.toKeeps
  tape := by rw [ha.tape]; exact h.tape.trans (List.prefix_append _ _)
  frag := by
    rw [ha.tape, ha.since]
    exact hf

/-! ### Rewiring in parts -/

section

variable {T T' T₁ T₂ : List Instruction} {l l₁ l₂ : List ℕ} {τ τ' : ℕ → ℕ}
  {f : Instruction → Instruction}

theorem Rewire.congr (h : Rewire T l τ f T') (hτ : ∀ x ∈ l, τ x = τ' x) : Rewire T l τ' f T' :=
  { h with jmp := fun x hx => by rw [h.jmp x hx, hτ x hx] }

theorem Rewire.of_mem (h : Rewire T l τ f T') (hm : ∀ x, x ∈ l ↔ x ∈ l₁) : Rewire T l₁ τ f T' where
  length := h.length
  rest k hk hk' := h.rest k (fun hx => hk ((hm _).1 hx)) fun hx => hk' ((hm _).1 hx)
  jmp x hx := h.jmp x ((hm x).2 hx)
  control x hx := h.control x ((hm x).2 hx)

theorem Rewire.append (h₁ : Rewire T l₁ τ f T₁) (h₂ : Rewire T₁ l₂ τ f T₂)
    (hsep : Separate (l₁ ++ l₂)) : Rewire T (l₁ ++ l₂) τ f T₂ := by
  have hdisj : ∀ x, x ∈ l₁ → x ∈ l₂ → False := fun x hx hx' =>
    (List.nodup_append.1 hsep.nodup).2.2 x hx x hx' rfl
  have hpos₁ : ∀ x ∈ l₁, 0 < x := fun x hx => hsep.pos x (List.mem_append_left _ hx)
  have hpos₂ : ∀ x ∈ l₂, 0 < x := fun x hx => hsep.pos x (List.mem_append_right _ hx)
  refine ⟨h₂.length.trans h₁.length, ?_, ?_, ?_⟩
  · intro k hk hk'
    rw [List.mem_append, not_or] at hk hk'
    rw [h₂.rest k hk.2 hk'.2, h₁.rest k hk.1 hk'.1]
  · intro x hx
    rcases List.mem_append.1 hx with hm | hm
    · rw [h₂.rest x (hdisj x hm), h₁.jmp x hm]
      intro hm'
      exact hsep.apart (x + 1) (List.mem_append_right _ hm') (List.mem_append_left _ hm)
    · exact h₂.jmp x hm
  · intro x hx i hi
    rcases List.mem_append.1 hx with hm | hm
    · rw [h₂.rest, h₁.control x hm i hi]
      · exact fun hm' => hsep.apart x hx (List.mem_append_right _ hm')
      · rw [Nat.sub_add_cancel (hpos₁ x hm)]
        exact hdisj x hm
    · refine h₂.control x hm i ?_
      rw [h₁.rest, hi]
      · exact fun hm' => hsep.apart x hx (List.mem_append_left _ hm')
      · rw [Nat.sub_add_cancel (hpos₂ x hm)]
        exact fun hm' => hdisj x hm' hm

/-- An instruction that is no part of a hole may be changed before or after. -/
theorem Rewire.set {p : ℕ} (h : Rewire T l τ f T') (hp : p ∉ l) (hp' : p + 1 ∉ l)
    (hpos : ∀ x ∈ l, 0 < x) (i : Instruction) : Rewire (T.set p i) l τ f (T'.set p i) := by
  have hne : ∀ x ∈ l, p ≠ x := by
    rintro x hx rfl
    exact hp hx
  have hne' : ∀ x ∈ l, p ≠ x - 1 := by
    rintro x hx rfl
    rw [Nat.sub_add_cancel (hpos x hx)] at hp'
    exact hp' hx
  refine ⟨by rw [List.length_set, List.length_set, h.length], ?_, ?_, ?_⟩
  · intro k hk hk'
    rcases eq_or_ne p k with rfl | hpk
    · simp only [List.getElem?_set_self', h.rest p hk hk']
    · rw [List.getElem?_set_ne hpk, List.getElem?_set_ne hpk, h.rest k hk hk']
  · intro x hx
    rw [List.getElem?_set_ne (hne x hx), h.jmp x hx]
  · intro x hx j hj
    rw [List.getElem?_set_ne (hne' x hx)] at hj ⊢
    exact h.control x hx j hj

end

/-! ### The fixup tail -/

theorem needTail_spec {tail : Bool} (h : needTail d c = Except.ok (tail, c')) :
    c = c' ∧ (tail = false →
      ∀ x ∈ d.jumps, ∀ i, c.chunk.tape[x - 1]? = some i → i.isTestset = true) := by
  unfold needTail at h
  obtain ⟨f, c₁, h₁, h⟩ := bind_eq_ok.1 h
  obtain ⟨rfl, hf⟩ := needValue_spec h₁
  cases f with
  | true =>
      obtain ⟨rfl, rfl⟩ := pure_eq_ok.1 h
      exact ⟨rfl, fun h => absurd h (by simp)⟩
  | false =>
      obtain ⟨rfl, ht⟩ := needValue_spec h
      refine ⟨rfl, fun hb x hx i hi => ?_⟩
      rcases List.mem_append.1 hx with hm | hm
      · exact ht hb x hm i hi
      · exact hf rfl x hm i hi

theorem emitSkip_spec {skip : Bool} {o : Option ℕ} (h : emitSkip skip c = Except.ok (o, c')) :
    o = (if skip then some c.chunk.tape.length else none) ∧
      Appends c (if skip then [Instruction.jmp 0] else []) c' := by
  unfold emitSkip at h
  cases skip with
  | true =>
      obtain ⟨j, c₁, h₁, h⟩ := bind_eq_ok.1 h
      obtain ⟨rfl, rfl⟩ := pure_eq_ok.1 h
      obtain ⟨rfl, happ⟩ := appends_emitUnfilledJmp h₁
      exact ⟨rfl, happ⟩
  | false =>
      obtain ⟨rfl, rfl⟩ := pure_eq_ok.1 h
      exact ⟨rfl, (Quiet.refl c).appends⟩

theorem emitFixup_spec {tail : Bool} {dst : ℕ} {targets : ℕ × ℕ}
    (hroom : c.chunk.constants.length < 2 ^ 16)
    (h : emitFixup tail dst c = Except.ok (targets, c')) :
    ∃ idx,
      Appends c
        (if tail then [Instruction.lfalseskip dst, Instruction.load dst idx] else []) c' ∧
      (tail = true → c'.chunk.constants[idx]? = some (Value.boolean true) ∧
        targets = (c.chunk.tape.length, c.chunk.tape.length + 1)) := by
  unfold emitFixup at h
  cases tail with
  | true =>
      obtain ⟨ft, c₁, h₁, h⟩ := bind_eq_ok.1 h
      obtain ⟨rfl, rfl⟩ := nextOffset_eq_ok.1 h₁
      obtain ⟨u₂, c₂, h₂, h⟩ := bind_eq_ok.1 h
      have happ₂ := appends_emit h₂
      obtain ⟨tt, c₃, h₃, h⟩ := bind_eq_ok.1 h
      obtain ⟨rfl, rfl⟩ := nextOffset_eq_ok.1 h₃
      obtain ⟨idx, c₄, h₄, h⟩ := bind_eq_ok.1 h
      obtain ⟨hquiet, hidx, -⟩ := allocConstant_spec h₄ (happ₂.room hroom)
      obtain ⟨u₅, c₅, h₅, h⟩ := bind_eq_ok.1 h
      obtain ⟨rfl, rfl⟩ := pure_eq_ok.1 h
      have happ₅ := appends_emit h₅
      refine ⟨idx, (happ₂.trans hquiet.appends).trans happ₅, fun _ => ⟨?_, ?_⟩⟩
      · obtain ⟨u, hu⟩ := happ₅.constants
        rw [← hu, List.getElem?_append_left (List.getElem?_eq_some_iff.1 hidx).1, hidx]
      · rw [happ₂.tape, List.length_append, List.length_singleton]
  | false =>
      obtain ⟨rfl, rfl⟩ := pure_eq_ok.1 h
      exact ⟨0, (Quiet.refl c).appends, fun h => absurd h (by simp)⟩

theorem closeSkip_spec {skip : Bool} {p : ℕ} {u : Unit} {o : ℤ}
    (hjmp : skip = true → c.chunk.tape[p]? = some (Instruction.jmp o))
    (h : closeSkip (if skip then some p else none) c = Except.ok (u, c')) :
    Rewrites c (if skip then [Event.patched p c.chunk.tape.length] else []) c' ∧
      c'.chunk.tape = if skip then
        c.chunk.tape.set p (Instruction.jmp (jumpOffset p c.chunk.tape.length))
          else c.chunk.tape := by
  cases skip with
  | true =>
      obtain ⟨stop, c₁, h₁, h⟩ := bind_eq_ok.1 h
      obtain ⟨rfl, rfl⟩ := nextOffset_eq_ok.1 h₁
      exact retarget_spec (hjmp rfl) h
  | false =>
      obtain ⟨-, rfl⟩ := pure_eq_ok.1 h
      exact ⟨Rewrites.refl c, rfl⟩

/-- The emitted tail, once its skip is aimed. -/
theorem withTail_eq (T : List Instruction) (dst idx : ℕ) {tail skip : Bool}
    (hle : skip = true → tail = true) :
    withTail T dst idx tail skip =
      if skip then
        ((T ++ [Instruction.jmp 0]) ++ [Instruction.lfalseskip dst, Instruction.load dst idx]).set
          T.length (Instruction.jmp (jumpOffset T.length (T.length + 3)))
      else T ++ if tail then [Instruction.lfalseskip dst, Instruction.load dst idx] else [] := by
  cases skip with
  | true =>
      obtain rfl := hle rfl
      simp [withTail, fixupTail]
  | false => cases tail <;> simp [withTail, fixupTail]

/-! ### Aiming the exits -/

/-- The position that an exit is aimed at: the end of the code, or the load of its constant. -/
def exitAim (T : List Instruction) (d : ExprDesc) (stop : ℕ) (targets : ℕ × ℕ) (x : ℕ) : ℕ :=
  valueTarget T stop (if x ∈ d.trueList then targets.2 else targets.1) x

theorem Separate.trueList (h : Separate d.jumps) : Separate d.trueList :=
  h.sub (List.nodup_append.1 h.nodup).1 fun _ hx => List.mem_append_left _ hx

theorem Separate.falseList (h : Separate d.jumps) : Separate d.falseList :=
  h.sub (List.nodup_append.1 h.nodup).2.1 fun _ hx => List.mem_append_right _ hx

theorem Separate.disjoint (h : Separate d.jumps) {x : ℕ} (hx : x ∈ d.trueList)
    (hx' : x ∈ d.falseList) : False :=
  (List.nodup_append.1 h.nodup).2.2 x hx x hx' rfl

theorem exitAim_true {T : List Instruction} {stop x : ℕ} {targets : ℕ × ℕ}
    (hx : x ∈ d.trueList) : exitAim T d stop targets x = valueTarget T stop targets.2 x := by
  rw [exitAim, if_pos hx]

theorem exitAim_false (hsep : Separate d.jumps) {T : List Instruction} {stop x : ℕ}
    {targets : ℕ × ℕ} (hx : x ∈ d.falseList) :
    exitAim T d stop targets x = valueTarget T stop targets.1 x := by
  rw [exitAim, if_neg fun hm => hsep.disjoint hm hx]

theorem patches_congr {l : List ℕ} {τ τ' : ℕ → ℕ} (hτ : ∀ x ∈ l, τ x = τ' x) :
    patches l τ = patches l τ' :=
  List.map_congr_left fun x hx => by rw [hτ x hx]

/-- Both lists are patched, one after the other. -/
theorem patchExits_spec {dst stop : ℕ} {targets : ℕ × ℕ} {u₁ u₂ : Unit} {T : List Instruction}
    (hsep : Separate d.jumps)
    (hjmp : ∀ x ∈ d.jumps, ∃ o, c.chunk.tape[x]? = some (Instruction.jmp o))
    (hctrl : ∀ x ∈ d.jumps, c.chunk.tape[x - 1]? = T[x - 1]?)
    (hpend : ∀ x ∈ d.jumps, ∀ i, T[x - 1]? = some i → i.Pending)
    (h₁ : patchListAux stop dst targets.1 d.falseList c = Except.ok (u₁, c'))
    (h₂ : patchListAux stop dst targets.2 d.trueList c' = Except.ok (u₂, c'')) :
    Rewrites c (patches d.falseList (exitAim T d stop targets) ++
        patches d.trueList (exitAim T d stop targets)) c'' ∧
      Rewire c.chunk.tape d.jumps (exitAim T d stop targets) (Instruction.aim dst)
        c''.chunk.tape := by
  have hsubf : ∀ x ∈ d.falseList, x ∈ d.jumps := fun x hx => List.mem_append_right _ hx
  have hsubt : ∀ x ∈ d.trueList, x ∈ d.jumps := fun x hx => List.mem_append_left _ hx
  obtain ⟨hrw₁, hw₁⟩ := patchListAux_spec hsep.falseList (fun x hx => hjmp x (hsubf x hx))
    (fun x hx => hctrl x (hsubf x hx)) (fun x hx => hpend x (hsubf x hx)) h₁
  -- the holes of the second list have not been touched
  have hkeep : ∀ x ∈ d.trueList, c'.chunk.tape[x]? = c.chunk.tape[x]? ∧
      c'.chunk.tape[x - 1]? = c.chunk.tape[x - 1]? := by
    intro x hx
    have hpos := hsep.trueList.pos x hx
    refine ⟨hw₁.rest x (hsep.disjoint hx) fun hm => ?_, hw₁.rest _ (fun hm => ?_) ?_⟩
    · exact hsep.apart (x + 1) (hsubf _ hm) (hsubt x hx)
    · exact hsep.apart x (hsubt x hx) (hsubf _ hm)
    · rw [Nat.sub_add_cancel hpos]
      exact hsep.disjoint hx
  obtain ⟨hrw₂, hw₂⟩ := patchListAux_spec hsep.trueList
    (fun x hx => by rw [(hkeep x hx).1]; exact hjmp x (hsubt x hx))
    (fun x hx => by rw [(hkeep x hx).2]; exact hctrl x (hsubt x hx))
    (fun x hx => hpend x (hsubt x hx)) h₂
  have hτf : ∀ x ∈ d.falseList, valueTarget T stop targets.1 x = exitAim T d stop targets x :=
    fun x hx => (exitAim_false hsep hx).symm
  have hτt : ∀ x ∈ d.trueList, valueTarget T stop targets.2 x = exitAim T d stop targets x :=
    fun x hx => (exitAim_true hx).symm
  have hsep' : Separate (d.falseList ++ d.trueList) :=
    hsep.sub (List.perm_append_comm.nodup_iff.1 hsep.nodup) fun x hx =>
      List.mem_append.2 ((List.mem_append.1 hx).symm)
  refine ⟨?_, ((hw₁.congr hτf).append (hw₂.congr hτt) hsep').of_mem fun x => ?_⟩
  · rw [← patches_congr hτf, ← patches_congr hτt]
    exact hrw₁.trans hrw₂
  · rw [ExprDesc.jumps, List.mem_append, List.mem_append, or_comm]

/-- What is appended is behind every hole. -/
theorem Appends.keepsHoles {u : List Instruction} (hc : Code c₀ n c holes val Q)
    (happ : Appends c u c') : ∀ x ∈ holes,
    (∃ o, c'.chunk.tape[x]? = some (Instruction.jmp o)) ∧
      c'.chunk.tape[x - 1]? = c.chunk.tape[x - 1]? := by
  have hget : ∀ (k : ℕ) (i : Instruction), c.chunk.tape[k]? = some i →
      c'.chunk.tape[k]? = some i := by
    intro k i hi
    rw [happ.tape, List.getElem?_append_left (List.getElem?_eq_some_iff.1 hi).1, hi]
  intro x hx
  obtain ⟨o, ho⟩ := (hc.frag.shape.hole x hx).jmp
  obtain ⟨i, hi, -⟩ := (hc.frag.shape.hole x hx).control
  exact ⟨⟨o, hget _ _ ho⟩, by rw [hget _ _ hi, hi]⟩

/-- Where the code ends once the tail has been emitted. -/
theorem length_appended {T : List Instruction} {dst idx : ℕ} {tail skip : Bool}
    (hle : skip = true → tail = true) :
    (T ++ ((if skip then [Instruction.jmp 0] else []) ++
      if tail then [Instruction.lfalseskip dst, Instruction.load dst idx] else [])).length =
        if tail then tailStart T skip + 2 else T.length := by
  cases skip with
  | true =>
      obtain rfl := hle rfl
      simp [tailStart]
  | false => cases tail <;> simp [tailStart]

/-- The skip over the tail is aimed behind it. -/
theorem closeTail_spec {T : List Instruction} {l : List ℕ} {τ : ℕ → ℕ}
    {f : Instruction → Instruction} {dst idx : ℕ} {tail skip : Bool} {u : Unit}
    (hle : skip = true → tail = true) (hout : ∀ x, T.length ≤ x → x ∉ l) (hpos : ∀ x ∈ l, 0 < x)
    (hwire : Rewire (T ++ ((if skip then [Instruction.jmp 0] else []) ++
      if tail then [Instruction.lfalseskip dst, Instruction.load dst idx] else [])) l τ f
        c.chunk.tape)
    (h : closeSkip (if skip then some T.length else none) c = Except.ok (u, c')) :
    Rewrites c (tailEvents T tail skip) c' ∧
      Rewire (withTail T dst idx tail skip) l τ f c'.chunk.tape := by
  cases skip with
  | false =>
      obtain ⟨hrw, htape⟩ := closeSkip_spec (o := 0) (fun hs => absurd hs (by simp)) h
      rw [htape]
      refine ⟨by simpa [tailEvents] using hrw, ?_⟩
      simpa [withTail_eq T dst idx hle] using hwire
  | true =>
      obtain rfl := hle rfl
      have hlen : c.chunk.tape.length = T.length + 3 := by
        rw [hwire.length]
        simp
      have hat : c.chunk.tape[T.length]? = some (Instruction.jmp 0) := by
        rw [hwire.rest _ (hout _ (Nat.le_refl _)) (hout _ (by omega))]
        simp
      obtain ⟨hrw, htape⟩ := closeSkip_spec (fun _ => hat) h
      rw [htape, withTail_eq T dst idx hle, hlen]
      rw [hlen] at hrw
      refine ⟨by simpa [tailEvents] using hrw, ?_⟩
      have hset := hwire.set (hout _ (Nat.le_refl _)) (hout _ (by omega)) hpos
        (Instruction.jmp (jumpOffset T.length (T.length + 3)))
      simpa using hset

/-- Whether a tail is needed, and whether the code has to skip it. -/
theorem tail_of_needed {T : List Instruction} {isJump tail skip : Bool} {dst : ℕ}
    (hskip : (!isJump && tail) = skip)
    (hkept : tail = false → ∀ x ∈ d.jumps, ∀ i, T[x - 1]? = some i → i.isTestset = true)
    (hvalue : isJump = false → ∀ v R, P v R → R dst = v)
    (hfalls : isJump = true → ∀ v R, P v R → v = Value.boolean false)
    (hjump : isJump = true → ∃ x ∈ d.jumps, ∃ i, T[x - 1]? = some i ∧ i.isTestset = false) :
    Tail T d.jumps dst P tail skip := by
  cases isJump with
  | false =>
      obtain rfl : tail = skip := by simpa using hskip
      refine ⟨hkept, fun ht hs => ?_, fun _ => hvalue rfl⟩
      rw [ht] at hs
      exact absurd hs (by simp)
  | true =>
      obtain rfl : false = skip := by simpa using hskip
      refine ⟨hkept, fun _ _ => hfalls rfl, fun hor => ?_⟩
      obtain ⟨x, hx, i, hi, hni⟩ := hjump rfl
      rcases hor with ht | hs
      · exact absurd (hkept ht x hx i hi) (by simp [hni])
      · exact absurd hs (by simp)

theorem targets_exitAim (hsep : Separate d.jumps) {T : List Instruction} {stop : ℕ}
    {targets : ℕ × ℕ} {tail skip : Bool}
    (hstop : stop = if tail then tailStart T skip + 2 else T.length)
    (htargets : tail = true → targets = (tailStart T skip, tailStart T skip + 1)) :
    Targets T d skip tail (exitAim T d stop targets) := by
  constructor
  · intro x hx i hi ht
    simp only [exitAim, valueTarget, hi, ht, if_true]
    exact hstop
  · intro ht b x hx i hi hni
    obtain rfl := htargets ht
    cases b with
    | true =>
        have hm : x ∈ d.trueList := hx
        simp only [exitAim, valueTarget, hi, hni, hm, Bool.false_eq_true, if_false, if_true]
    | false =>
        have hm : x ∉ d.trueList := fun hm => hsep.disjoint hm hx
        simp only [exitAim, valueTarget, hi, hni, hm, Bool.false_eq_true, if_false,
          Nat.add_zero]

/-- Discharge the exits into `dst`: without a pending head the code falls through with its value in
`dst`, with a pending head it falls through with `false`. -/
theorem dischargeJumps_spec {isJump : Bool} {dst : ℕ} {u : Unit}
    (hc : Code c₀ n c d.jumps val fun T => Leaves T d P)
    (hroom : c.chunk.constants.length < 2 ^ 16) (hsmall : c.chunk.tape.length + 3 ≤ 2 ^ 31)
    (hdst : c₀.chunk.nactvar ≤ dst) (hreg : dst ≠ noReg)
    (hvalue : isJump = false → ∀ v R, P v R → R dst = v)
    (hfalls : isJump = true → ∀ v R, P v R → v = Value.boolean false)
    (hjump : isJump = true →
      ∃ x ∈ d.jumps, ∃ i, c.chunk.tape[x - 1]? = some i ∧ i.isTestset = false)
    (h : dischargeJumps d isJump dst c = Except.ok (u, c')) :
    Code c₀ (n + 3) c' [] val fun T => Leaves T (ExprDesc.fromReg dst) fun v R => R dst = v := by
  unfold dischargeJumps at h
  obtain ⟨tail, c₁, h₁, h⟩ := bind_eq_ok.1 h
  obtain ⟨rfl, hkept⟩ := needTail_spec h₁
  obtain ⟨o, c₂, h₂, h⟩ := bind_eq_ok.1 h
  obtain ⟨rfl, happ₂⟩ := emitSkip_spec h₂
  obtain ⟨targets, c₃, h₃, h⟩ := bind_eq_ok.1 h
  obtain ⟨idx, happ₃, htargets⟩ := emitFixup_spec (happ₂.room hroom) h₃
  obtain ⟨stop, c₄, h₄, h⟩ := bind_eq_ok.1 h
  obtain ⟨rfl, rfl⟩ := nextOffset_eq_ok.1 h₄
  obtain ⟨u₅, c₅, h₅, h⟩ := bind_eq_ok.1 h
  obtain ⟨u₆, c₆, h₆, h₇⟩ := bind_eq_ok.1 h
  generalize hskip : (!isJump && tail) = skip at h₂ happ₂ h₇
  have hle : skip = true → tail = true := by
    rintro rfl
    simp only [Bool.and_eq_true] at hskip
    exact hskip.2
  have happ := happ₂.trans happ₃
  have hshape := hc.frag.shape
  have hsep := hshape.separate
  have hpend : ∀ x ∈ d.jumps, ∀ i, c.chunk.tape[x - 1]? = some i → i.Pending := by
    intro x hx i hi
    obtain ⟨j, hj, -, hp⟩ := (hshape.hole x hx).control
    obtain rfl := Option.some.inj (hi.symm.trans hj)
    exact hp
  have hout : ∀ x, c.chunk.tape.length ≤ x → x ∉ d.jumps := by
    intro x hx hm
    have := (hshape.hole x hm).lt_length
    omega
  -- the exits are aimed, and then the skip
  obtain ⟨hrw, hwire⟩ := patchExits_spec hsep (fun x hx => (happ.keepsHoles hc x hx).1)
    (fun x hx => (happ.keepsHoles hc x hx).2) hpend h₅ h₆
  generalize hend : c₃.chunk.tape.length = stop at hrw hwire
  rw [happ.tape] at hwire
  obtain ⟨hrw', hfinal⟩ := closeTail_spec hle hout hsep.pos hwire h₇
  have hlog := hrw.trans hrw'
  have hstop : stop =
      if tail then tailStart c.chunk.tape skip + 2 else c.chunk.tape.length := by
    rw [← hend, happ.tape]
    exact length_appended hle
  have hstart : tail = true →
      targets = (tailStart c.chunk.tape skip, tailStart c.chunk.tape skip + 1) := by
    intro ht
    have hlen₂ : c₂.chunk.tape.length = tailStart c.chunk.tape skip := by
      rw [happ₂.tape]
      cases skip <;> simp [tailStart]
    rw [(htargets ht).2, hlen₂]
  have hK : c.chunk.constants <+: c'.chunk.constants := by
    rw [hlog.constants]
    exact happ.constants
  refine ⟨?_, ?_, ?_⟩
  · refine ((hc.toKeeps.trans happ.toKeeps).trans hlog.keeps).mono ?_
    have hlen : ((if skip then [Instruction.jmp 0] else []) ++
        if tail then [Instruction.lfalseskip dst, Instruction.load dst idx]
          else []).length ≤ 3 := by
      cases tail <;> cases skip <;> simp
    omega
  · rw [List.prefix_iff_getElem?]
    intro k hk
    have hlt : c₀.chunk.tape.length ≤ c.chunk.tape.length := hshape.le
    have hbelow : ∀ x ∈ d.jumps, c₀.chunk.tape.length < x := fun x hx => (hshape.hole x hx).lt
    rw [hfinal.rest, withTail, List.getElem?_append_left (by omega)]
    · exact (List.prefix_iff_getElem?.1 hc.tape) k hk
    · intro hm
      have := hbelow k hm
      omega
    · intro hm
      have := hbelow _ hm
      omega
  · refine hc.frag.discharge hK (tail_of_needed hskip hkept hvalue hfalls hjump) hdst hreg ?_
      hsmall (targets_exitAim hsep hstop hstart) hfinal ?_
    · intro ht
      rw [hlog.constants]
      exact (htargets ht).1
    · intro k t
      rw [hlog.since (hc.events.trans happ.events), happ.since]
      simp only [List.mem_append, mem_patches, ExprDesc.jumps]
      constructor
      · rintro (h | (⟨hx, ht⟩ | ⟨hx, ht⟩) | h)
        · exact Or.inl (Or.inl h)
        · exact Or.inr ⟨Or.inr hx, ht⟩
        · exact Or.inr ⟨Or.inl hx, ht⟩
        · exact Or.inl (Or.inr h)
      · rintro ((h | h) | ⟨hx | hx, ht⟩)
        · exact Or.inl h
        · exact Or.inr (Or.inr h)
        · exact Or.inr (Or.inl (Or.inr ⟨hx, ht⟩))
        · exact Or.inr (Or.inl (Or.inl ⟨hx, ht⟩))

/-! ### Discharging an expression -/

/-- The pending head of a descriptor stands at the end of the code, and its register is a local or a
temp. -/
structure Fit (c₀ c : Ctx) (d : ExprDesc) : Prop where
  head : Head c.chunk.tape d (c.since c₀)
  placed : ∀ r, d.kind = ExprKind.reg r → c₀.chunk.nactvar ≤ r → r ≠ noReg

theorem fit_fromReg {r : ℕ} (h : c₀.chunk.nactvar ≤ r → r ≠ noReg) :
    Fit c₀ c (ExprDesc.fromReg r) := by
  refine ⟨⟨fun hk => ?_, fun idx hk => ?_⟩, fun r' hk hle => ?_⟩
  · exact absurd hk (by simp [ExprDesc.fromReg])
  · exact absurd hk (by simp [ExprDesc.fromReg])
  · obtain rfl := ExprKind.reg.inj hk
    exact h hle

theorem pending_of_reg {r : ℕ} (hk : d.kind = ExprKind.reg r) : d.pending = d.jumps := by
  rw [ExprDesc.pending, ExprDesc.head, hk, List.nil_append]

theorem pending_of_const {v : Value} (hv : constKindToValue d.kind = some v) :
    d.pending = d.jumps := by
  unfold ExprDesc.pending ExprDesc.head
  cases hk : d.kind with
  | jump p => rw [hk] at hv; exact absurd hv (by simp [constKindToValue])
  | _ => rfl

theorem pending_of_jump {idx : ℕ} (hk : d.kind = ExprKind.jump (some idx)) :
    d.pending = idx :: d.jumps := by
  rw [ExprDesc.pending, ExprDesc.head, hk, List.singleton_append]

theorem absorbHead_jump {idx : ℕ} (hk : d.kind = ExprKind.jump (some idx)) :
    d.absorbHead = d.setExits true (d.exits true ++ [idx]) := by
  obtain ⟨kind, trueList, falseList⟩ := d
  obtain rfl : kind = ExprKind.jump (some idx) := hk
  rfl

theorem evaluates_reg {T : List Instruction} {r : ℕ} (hk : d.kind = ExprKind.reg r) :
    Evaluates T d = Leaves T d fun v R => R r = v := by
  unfold Evaluates
  rw [hk]
  rfl

theorem evaluates_const {T : List Instruction} {w : Value} (hw : constKindToValue d.kind = some w) :
    Evaluates T d = Leaves T d fun v _ => w = v := by
  unfold Evaluates
  cases hk : d.kind with
  | jump p => rw [hk] at hw; exact absurd hw (by simp [constKindToValue])
  | reg r => rw [hk] at hw; exact absurd hw (by simp [constKindToValue])
  | _ =>
      rw [hk] at hw
      refine congrArg (Leaves T d) (funext fun v => funext fun R => ?_)
      show (constKindToValue _ = some v) = _
      rw [hw, Option.some.injEq]

theorem evaluates_jump {T : List Instruction} {idx : ℕ} (hk : d.kind = ExprKind.jump (some idx)) :
    Evaluates T d = LeavesAtHead T d idx false := by
  unfold Evaluates
  rw [hk]

theorem Code.emit {i : Instruction} {u : Unit} (hc : Code c₀ n c holes val fun T => Leaves T d P)
    (hplain : i.isPlain = true)
    (hexec : ∀ env : CodeEnv, c.chunk.constants <+: env.constants → ∀ v R, P v R → ∃ R',
      i.exec env c.chunk.tape.length R = some (c.chunk.tape.length + 1, R') ∧
        (∀ r < c₀.chunk.nactvar, R' r = R r) ∧ P' v R')
    (h : emit i c = Except.ok (u, c')) :
    Code c₀ (n + 1) c' holes val fun T => Leaves T d P' := by
  have happ := appends_emit h
  refine hc.append happ (hc.frag.emit happ.constants hplain fun env henv v R hp => ?_)
  exact hexec env (happ.constants.trans henv) v R hp

/-- The value is moved to a fresh register. -/
theorem Code.move {r fresh : ℕ} {u : Unit}
    (hc : Code c₀ n c holes val fun T => Leaves T d fun v R => R r = v)
    (hfresh : c₀.chunk.nactvar ≤ fresh)
    (h : Tcvm.emit (Instruction.move fresh r) c = Except.ok (u, c')) :
    Code c₀ (n + 1) c' holes val fun T => Leaves T d fun v R => R fresh = v := by
  refine hc.emit rfl (fun env _ v R hv => ⟨Function.update R fresh (R r), rfl, ?_, ?_⟩) h
  · intro x hx
    exact Function.update_of_ne (by omega) _ _
  · simpa using hv

/-- A constant is loaded into a fresh register. -/
theorem Code.load {dst idx : ℕ} {w : Value} {u : Unit}
    (hc : Code c₀ n c holes val fun T => Leaves T d fun v _ => w = v)
    (hidx : c.chunk.constants[idx]? = some w) (hdst : c₀.chunk.nactvar ≤ dst)
    (h : Tcvm.emit (Instruction.load dst idx) c = Except.ok (u, c')) :
    Code c₀ (n + 1) c' holes val fun T => Leaves T d fun v R => R dst = v := by
  refine hc.emit rfl (fun env henv v R hv => ⟨Function.update R dst w, ?_, ?_, ?_⟩) h
  · obtain ⟨u, hu⟩ := henv
    simp only [Instruction.exec, ← hu,
      List.getElem?_append_left (List.getElem?_eq_some_iff.1 hidx).1, hidx]
    rfl
  · intro x hx
    exact Function.update_of_ne (by omega) _ _
  · simpa using hv

theorem materializeConst_spec {e : ExprDesc} {w : Value} (hw : constKindToValue d.kind = some w)
    (hc : Code c₀ n c d.pending val fun T => Evaluates T d)
    (hroom : c.chunk.constants.length < 2 ^ 16)
    (h : materializeConst d none c = Except.ok (e, c')) :
    Keeps c 1 c' ∧ ∃ dst, e.kind = ExprKind.reg dst ∧ dst ≠ noReg ∧
      Code c₀ (n + 1) c' e.jumps val fun T => Leaves T e fun v R => R dst = v := by
  unfold materializeConst at h
  rw [hw] at h
  obtain ⟨idx, c₁, h₁, h⟩ := bind_eq_ok.1 h
  obtain ⟨hquiet₁, hidx, -⟩ := allocConstant_spec h₁ hroom
  obtain ⟨dst, c₂, h₂, h⟩ := bind_eq_ok.1 h
  obtain ⟨hquiet₂, hdst, hreg, -, -⟩ := reserveReg_spec h₂
  obtain ⟨u, c₃, h₃, h⟩ := bind_eq_ok.1 h
  obtain ⟨rfl, rfl⟩ := pure_eq_ok.1 h
  have hc₂ := (hc.quiet hquiet₁).quiet hquiet₂
  rw [pending_of_const hw] at hc₂
  simp only [evaluates_const hw] at hc₂
  have hnact : c₁.chunk.nactvar = c₀.chunk.nactvar := hquiet₁.nactvar.trans hc.nactvar
  have hdst' : c₀.chunk.nactvar ≤ dst := by
    rw [← hnact]
    exact hdst
  have hkeep := ((hquiet₁.trans hquiet₂).appends.trans (appends_emit h₃)).toKeeps
  refine ⟨hkeep, dst, rfl, hreg, hc₂.load ?_ hdst' h₃⟩
  obtain ⟨u, hu⟩ := hquiet₂.constants
  rw [← hu, List.getElem?_append_left (List.getElem?_eq_some_iff.1 hidx).1, hidx]

theorem dischargeDst_spec {r dst : ℕ}
    (hc : Code c₀ n c holes val fun T => Leaves T d fun v R => R r = v)
    (hplaced : c₀.chunk.nactvar ≤ r → r ≠ noReg)
    (h : dischargeDst (ExprKind.reg r) none c = Except.ok (dst, c')) :
    c₀.chunk.nactvar ≤ dst ∧ dst ≠ noReg ∧ Keeps c 1 c' ∧
      Code c₀ (n + 1) c' holes val fun T => Leaves T d fun v R => R dst = v := by
  unfold dischargeDst at h
  obtain ⟨ch, c₁, h₁, h⟩ := bind_eq_ok.1 h
  obtain ⟨rfl, rfl⟩ := getChunk_eq_ok.1 h₁
  simp only at h
  split at h
  · obtain ⟨fresh, c₂, h₂, h⟩ := bind_eq_ok.1 h
    obtain ⟨hquiet, hfresh, hreg, -, -⟩ := reserveReg_spec h₂
    obtain ⟨u, c₃, h₃, h⟩ := bind_eq_ok.1 h
    obtain ⟨rfl, rfl⟩ := pure_eq_ok.1 h
    rw [hc.nactvar] at hfresh
    have happ := hquiet.appends.trans (appends_emit h₃)
    exact ⟨hfresh, hreg, happ.toKeeps, (hc.quiet hquiet).move hfresh h₃⟩
  · rename_i hge
    obtain ⟨rfl, rfl⟩ := pure_eq_ok.1 h
    rw [hc.nactvar] at hge
    exact ⟨by omega, hplaced (by omega), (Keeps.refl c).mono (by omega), hc.mono (by omega)⟩

/-- Code that falls through with its value in a register. -/
theorem dischargeSettled_reg {r dst : ℕ} {d' : ExprDesc} (hk : d.kind = ExprKind.reg r)
    (hc : Code c₀ n c d.jumps val fun T => Leaves T d fun v R => R r = v)
    (hplaced : c₀.chunk.nactvar ≤ r → r ≠ noReg)
    (hroom : c.chunk.constants.length < 2 ^ 16) (hsmall : c.chunk.tape.length + 4 ≤ 2 ^ 31)
    (h : dischargeSettled d none c = Except.ok ((d', dst), c')) :
    d' = ExprDesc.fromReg dst ∧ Fit c₀ c' (ExprDesc.fromReg dst) ∧
      Code c₀ (n + 4) c' [] val fun T => Evaluates T (ExprDesc.fromReg dst) := by
  -- no jumps are left
  have hplain : ∀ {reg : ℕ} {c₁ : Ctx} {m : ℕ}, d.trueList = [] → d.falseList = [] →
      (Code c₀ m c₁ d.jumps val fun T => Leaves T d fun v R => R reg = v) → m ≤ n + 4 →
      { d with kind := ExprKind.reg reg } = ExprDesc.fromReg reg ∧
        Code c₀ (n + 4) c₁ [] val fun T => Evaluates T (ExprDesc.fromReg reg) := by
    intro reg c₁ m ht hf hcode hm
    have hj : d.jumps = [] := by rw [ExprDesc.jumps, ht, hf, List.append_nil]
    rw [hj] at hcode
    refine ⟨by rw [ht, hf]; rfl, (hcode.weaken fun env v s hq => ?_).mono hm⟩
    rcases hq with hq | ⟨b, hq⟩
    · exact Or.inl hq
    · exact absurd hq.mem_jumps (by rw [hj]; exact List.not_mem_nil)
  have habs : d.absorbHead = d := by rw [ExprDesc.absorbHead, hk]
  have heta : { d with kind := ExprKind.reg r } = d := by rw [← hk]
  unfold dischargeSettled at h
  cases hj : d.hasJumps with
  | false =>
      simp only [hk, hj] at h
      obtain ⟨hpair, rfl⟩ := pure_eq_ok.1 h
      obtain ⟨rfl, rfl⟩ := Prod.mk.inj hpair
      simp only [ExprDesc.hasJumps, hk, Bool.or_false, Bool.or_eq_false_iff, Bool.not_eq_false',
        List.isEmpty_iff] at hj
      obtain ⟨hd, hcode⟩ := hplain hj.1 hj.2 hc (by omega)
      rw [heta] at hd
      exact ⟨hd, fit_fromReg hplaced, hcode⟩
  | true =>
      simp only [hk, hj, habs] at h
      obtain ⟨dst', c₁, h₁, h⟩ := bind_eq_ok.1 h
      obtain ⟨hle, hreg, hkeep, hc₁⟩ := dischargeDst_spec hc hplaced h₁
      split at h
      · rename_i hempty
        simp only [Bool.and_eq_true, List.isEmpty_iff] at hempty
        obtain ⟨hpair, rfl⟩ := pure_eq_ok.1 h
        obtain ⟨rfl, rfl⟩ := Prod.mk.inj hpair
        obtain ⟨hd, hcode⟩ := hplain hempty.1 hempty.2 hc₁ (by omega)
        exact ⟨hd, fit_fromReg fun _ => hreg, hcode⟩
      · obtain ⟨u, c₂, h₂, h⟩ := bind_eq_ok.1 h
        obtain ⟨hpair, rfl⟩ := pure_eq_ok.1 h
        obtain ⟨rfl, rfl⟩ := Prod.mk.inj hpair
        have hlen := hkeep.length
        refine ⟨rfl, fit_fromReg fun _ => hreg, ?_⟩
        exact dischargeJumps_spec hc₁ (hkeep.room hroom) (by omega) hle hreg (fun _ v R hv => hv)
          (fun h => absurd h (by simp [ExprKind.isJump]))
          (fun h => absurd h (by simp [ExprKind.isJump])) h₂

/-- Code that ends in front of a pending head: falling through means `false`. -/
theorem dischargeSettled_jump {idx dst : ℕ} {d' : ExprDesc} (hk : d.kind = ExprKind.jump (some idx))
    (hc : Code c₀ n c (idx :: d.jumps) val fun T => LeavesAtHead T d idx false)
    (hfit : Fit c₀ c d) (hroom : c.chunk.constants.length < 2 ^ 16)
    (hsmall : c.chunk.tape.length + 4 ≤ 2 ^ 31)
    (h : dischargeSettled d none c = Except.ok ((d', dst), c')) :
    d' = ExprDesc.fromReg dst ∧ Fit c₀ c' (ExprDesc.fromReg dst) ∧
      Code c₀ (n + 4) c' [] val fun T => Evaluates T (ExprDesc.fromReg dst) := by
  obtain ⟨hidx, hpatch, i, hi, hic, hni⟩ := hfit.head.2 idx hk
  have habs : d.absorbHead = d.setExits true (d.exits true ++ [idx]) := absorbHead_jump hk
  have hperm : (idx :: d.jumps).Perm d.absorbHead.jumps := by
    rw [habs]
    simp only [ExprDesc.jumps, ExprDesc.setExits, ExprDesc.exits, if_true, List.append_assoc]
    exact List.perm_middle.symm
  have hcode : Code c₀ n c d.absorbHead.jumps val fun T =>
      Leaves T d.absorbHead fun v _ => v = Value.boolean false := by
    have hf := hc.frag.branch_head hidx ⟨i, hi, hni⟩
    rw [habs]
    exact { hc with frag := hf.perm (by rw [← habs]; exact hperm) }
  unfold dischargeSettled at h
  simp only [hk] at h
  obtain ⟨dst', c₁, h₁, h⟩ := bind_eq_ok.1 h
  obtain ⟨hquiet, hle, hreg, -, -⟩ := reserveReg_spec h₁
  rw [hc.nactvar] at hle
  have hmem : idx ∈ d.absorbHead.jumps := hperm.mem_iff.1 List.mem_cons_self
  split at h
  · rename_i hempty
    simp only [Bool.and_eq_true, List.isEmpty_iff] at hempty
    rw [ExprDesc.jumps, hempty.1, hempty.2] at hmem
    exact absurd hmem List.not_mem_nil
  · obtain ⟨u, c₂, h₂, h⟩ := bind_eq_ok.1 h
    obtain ⟨hpair, rfl⟩ := pure_eq_ok.1 h
    obtain ⟨rfl, rfl⟩ := Prod.mk.inj hpair
    have htape := hquiet.tape
    refine ⟨rfl, fit_fromReg fun _ => hreg, ?_⟩
    refine (dischargeJumps_spec (hcode.quiet hquiet) (hquiet.room hroom) ?_ hle hreg
      (fun h => absurd h (by simp [ExprKind.isJump])) (fun _ v R hv => hv) (fun _ => ?_) h₂).mono
      (by omega)
    · rw [htape]
      omega
    · refine ⟨idx, hmem, i, by rw [htape]; exact hi, ?_⟩
      cases i with
      | testset dst src c => exact absurd rfl (hni dst src c)
      | _ => rfl

/-- What is not a constant is in a register, or decided by a jump. -/
theorem Fit.settled (hfit : Fit c₀ c d) (hw : constKindToValue d.kind = none) :
    (∃ r, d.kind = ExprKind.reg r) ∨ ∃ idx, d.kind = ExprKind.jump (some idx) := by
  cases hk : d.kind with
  | reg r => exact Or.inl ⟨r, rfl⟩
  | jump p =>
      cases p with
      | none => exact absurd hk hfit.head.1
      | some idx => exact Or.inr ⟨idx, rfl⟩
  | numeral m => rw [hk] at hw; cases m <;> exact absurd hw (by simp [constKindToValue])
  | bool m => rw [hk] at hw; exact absurd hw (by simp [constKindToValue])
  | nil => rw [hk] at hw; exact absurd hw (by simp [constKindToValue])

/-- A discharged value is in the register, and no jump is pending. -/
theorem dischargeToRegMut_spec {d' : ExprDesc} {r : ℕ}
    (hc : Code c₀ n c d.pending val fun T => Evaluates T d) (hfit : Fit c₀ c d)
    (hroom : c.chunk.constants.length < 2 ^ 16) (hsmall : c.chunk.tape.length + 5 ≤ 2 ^ 31)
    (h : dischargeToRegMut d none c = Except.ok ((d', r), c')) :
    d' = ExprDesc.fromReg r ∧ Fit c₀ c' (ExprDesc.fromReg r) ∧
      Code c₀ (n + 5) c' [] val fun T => Evaluates T (ExprDesc.fromReg r) := by
  unfold dischargeToRegMut at h
  obtain ⟨e, c₁, h₁, h⟩ := bind_eq_ok.1 h
  cases hw : constKindToValue d.kind with
  | some w =>
      obtain ⟨hkeep, dst, hk, hreg, hc₁⟩ := materializeConst_spec hw hc hroom h₁
      have hlen := hkeep.length
      exact dischargeSettled_reg hk hc₁ (fun _ => hreg) (hkeep.room hroom) (by omega) h
  | none =>
      have hmat : materializeConst d none c = Except.ok (d, c) := by
        unfold materializeConst
        rw [hw]
        rfl
      rw [hmat] at h₁
      obtain ⟨rfl, rfl⟩ := Prod.mk.inj (Except.ok.inj h₁)
      rcases hfit.settled hw with ⟨reg, hk⟩ | ⟨idx, hk⟩
      · rw [pending_of_reg hk] at hc
        simp only [evaluates_reg hk] at hc
        obtain ⟨hd, hf, hres⟩ := dischargeSettled_reg hk hc (hfit.placed reg hk) hroom (by omega) h
        exact ⟨hd, hf, hres.mono (by omega)⟩
      · rw [pending_of_jump hk] at hc
        simp only [evaluates_jump hk] at hc
        obtain ⟨hd, hf, hres⟩ := dischargeSettled_jump hk hc hfit hroom (by omega) h
        exact ⟨hd, hf, hres.mono (by omega)⟩

end Tcvm
