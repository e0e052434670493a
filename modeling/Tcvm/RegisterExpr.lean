/-
The code of an expression stays in its region.

Every rule of the expression compiler, and with them the recursion, keeps to the region it is
started in: what is emitted and patched lies behind what was there, and writes temps and the
destination hint only.

* `Region.Desc`, `Region.Result` — descriptors whose registers and jumps lie in a region;
* `Region.stays_dischargeToRegMut`, `Region.stays_goiftrue` — discharging and branching;
* `Region.stays_arithDesc`, `Region.stays_callResults`, … — the rules, given their operands;
* `Region.stays_compileExpr` — **the code of an expression writes temps only**.
-/

import Tcvm.RegisterRegion

namespace Tcvm

open CompileM StateExcept

namespace Region

variable {α β : Type} {b : Region} {c c' : Ctx}

/-- The registers and the jumps of a descriptor belong to the region. -/
structure Desc (b : Region) (d : ExprDesc) : Prop where
  reg : ∀ r, d.kind = ExprKind.reg r → b.Owns r
  head : ∀ j, d.kind = ExprKind.jump (some j) → b.code.length < j
  trueList : b.Exits d.trueList
  falseList : b.Exits d.falseList

/-- A local, or a temp below the cursor. -/
def Top (b : Region) (r : ℕ) (c : Ctx) : Prop := r < b.locals ∨ r < c.chunk.freereg

/-- A descriptor, and that its register is reserved. -/
def Result (b : Region) (d : ExprDesc) (c : Ctx) : Prop :=
  b.Desc d ∧ ∀ r, d.kind = ExprKind.reg r → b.Top r c

/-- A register with a value, and that it is reserved. -/
def Reserved (b : Region) (r : ℕ) (c : Ctx) : Prop := b.Owns r ∧ b.Top r c

theorem Desc.ofReg {r : ℕ} (h : b.Owns r) : b.Desc (ExprDesc.fromReg r) where
  reg r' hr := by
    obtain rfl := ExprKind.reg.inj hr
    exact h
  head j hj := absurd hj (by simp [ExprDesc.fromReg])
  trueList := exits_nil
  falseList := exits_nil

/-- A constant without jumps. -/
theorem Desc.ofConst {kind : ExprKind} (hreg : ∀ r, kind ≠ ExprKind.reg r)
    (hjump : ∀ p, kind ≠ ExprKind.jump p) : b.Desc ⟨kind, [], []⟩ where
  reg r hr := absurd hr (hreg r)
  head j hj := absurd hj (hjump _)
  trueList := exits_nil
  falseList := exits_nil

theorem Result.ofReg {r : ℕ} (h : b.Owns r) (ht : b.Top r c) : b.Result (ExprDesc.fromReg r) c := by
  refine ⟨Desc.ofReg h, fun r' hr => ?_⟩
  obtain rfl := ExprKind.reg.inj hr
  exact ht

theorem Result.ofConst {kind : ExprKind} (hreg : ∀ r, kind ≠ ExprKind.reg r)
    (hjump : ∀ p, kind ≠ ExprKind.jump p) : b.Result ⟨kind, [], []⟩ c :=
  ⟨Desc.ofConst hreg hjump, fun r hr => absurd hr (hreg r)⟩

/-! ### Discharging -/

theorem stays_materializeConst {d : ExprDesc} {hint : Option ℕ} {d' : ExprDesc} (hd : b.Desc d)
    (hh : b.Hint hint) (hc : b.Holds c) (h : materializeConst d hint c = Except.ok (d', c')) :
    b.Holds c' ∧ b.Desc d' ∧
      ((∀ r, d.kind = ExprKind.reg r → b.Top r c) → ∀ r, d'.kind = ExprKind.reg r →
        b.Top r c') := by
  unfold materializeConst at h
  cases hv : constKindToValue d.kind with
  | none =>
      rw [hv] at h
      obtain ⟨rfl, rfl⟩ := pure_eq_ok.1 h
      exact ⟨hc, hd, id⟩
  | some v =>
      rw [hv] at h
      obtain ⟨idx, c₁, h₁, h⟩ := bind_eq_ok.1 h
      obtain ⟨hc₁, -⟩ := stays_allocConstant v c idx c₁ hc h₁
      obtain ⟨dst, c₂, h₂, h⟩ := bind_eq_ok.1 h
      obtain ⟨hc₂, hdst, htop⟩ := stays_dstOrAlloc hh c₁ dst c₂ hc₁ h₂
      obtain ⟨u, c₃, h₃, h⟩ := bind_eq_ok.1 h
      obtain ⟨hc₃, -⟩ := stays_emit hdst.allows c₂ u c₃ hc₂ h₃
      have hcur := cursor_emit _ c₂ u c₃ h₃
      obtain ⟨rfl, rfl⟩ := pure_eq_ok.1 h
      refine ⟨hc₃, ⟨fun r hr => ?_, fun j hj => absurd hj (by simp), hd.trueList, hd.falseList⟩,
        fun _ r hr => ?_⟩
      · obtain rfl := ExprKind.reg.inj hr
        exact hdst.owns
      · obtain rfl := ExprKind.reg.inj hr
        exact Or.inr (by rw [hcur]; exact htop)

theorem dstOrAlloc_some {reg r : ℕ}
    (h : dstOrAlloc (some reg) c = Except.ok (r, c')) : r = reg := by
  unfold dstOrAlloc at h
  obtain ⟨ch, c₁, h₁, h⟩ := bind_eq_ok.1 h
  split at h
  · obtain ⟨n, c₂, h₂, h⟩ := bind_eq_ok.1 h
    obtain ⟨v, c₃, h₃, h⟩ := bind_eq_ok.1 h
    exact (pure_eq_ok.1 h).1.symm
  · exact (pure_eq_ok.1 h).1.symm

theorem stays_dischargeDst {kind : ExprKind} {hint : Option ℕ} {dst : ℕ}
    (hk : ∀ r, kind = ExprKind.reg r → b.Owns r) (hh : b.Hint hint) (hc : b.Holds c)
    (h : dischargeDst kind hint c = Except.ok (dst, c')) :
    b.Holds c' ∧ b.Hint (some dst) ∧
      ((∀ r, kind = ExprKind.reg r → b.Top r c) → b.Top dst c') := by
  unfold dischargeDst at h
  cases kind with
  | reg reg =>
      obtain ⟨ch, c₁, h₁, h⟩ := bind_eq_ok.1 h
      obtain ⟨rfl, rfl⟩ := getChunk_eq_ok.1 h₁
      cases hint with
      | some hr =>
          simp only at h
          split at h
          · obtain ⟨r', c₂, h₂, h⟩ := bind_eq_ok.1 h
            obtain ⟨hc₂, -, htop⟩ := stays_dstOrAlloc hh c r' c₂ hc h₂
            obtain ⟨u, c₃, h₃, h⟩ := bind_eq_ok.1 h
            obtain ⟨hc₃, -⟩ := stays_emit (i := Instruction.move hr reg) hh.allows c₂ u c₃ hc₂ h₃
            have hcur := cursor_emit _ c₂ u c₃ h₃
            obtain ⟨rfl, rfl⟩ := pure_eq_ok.1 h
            obtain rfl := dstOrAlloc_some h₂
            exact ⟨hc₃, hh, fun _ => Or.inr (by rw [hcur]; exact htop)⟩
          · rename_i heq
            obtain rfl : hr = reg := by simpa using heq
            obtain ⟨rfl, rfl⟩ := pure_eq_ok.1 h
            exact ⟨hc, hh, fun ht => ht _ rfl⟩
      | none =>
          simp only at h
          split at h
          · obtain ⟨r', c₂, h₂, h⟩ := bind_eq_ok.1 h
            obtain ⟨hc₂, hfloor, hfree⟩ := stays_reserveReg c r' c₂ hc h₂
            obtain ⟨u, c₃, h₃, h⟩ := bind_eq_ok.1 h
            obtain ⟨hc₃, -⟩ := stays_emit (i := Instruction.move r' reg) (Or.inl hfloor)
              c₂ u c₃ hc₂ h₃
            have hcur := cursor_emit _ c₂ u c₃ h₃
            obtain ⟨rfl, rfl⟩ := pure_eq_ok.1 h
            exact ⟨hc₃, Hint.of_floor hfloor, fun _ => Or.inr (by rw [hcur]; omega)⟩
          · obtain ⟨rfl, rfl⟩ := pure_eq_ok.1 h
            exact ⟨hc, Hint.of_owns (hk _ rfl), fun ht => ht _ rfl⟩
  | jump p =>
      obtain ⟨hc', hdst, htop⟩ := stays_dstOrAlloc hh c dst c' hc h
      exact ⟨hc', hdst, fun _ => Or.inr htop⟩
  | _ => exact absurd h (by simp [throw_eq_ok])

theorem Desc.absorbHead {d : ExprDesc} (hd : b.Desc d) : b.Desc d.absorbHead := by
  unfold ExprDesc.absorbHead
  split
  · rename_i idx hkind
    refine ⟨hd.reg, hd.head, exits_append.2 ⟨hd.trueList, ?_⟩, hd.falseList⟩
    intro j hj
    rw [List.mem_singleton.1 hj]
    exact hd.head idx hkind
  · exact hd

theorem stays_dischargeJumps {d : ExprDesc} (isJump : Bool) {dst : ℕ} (hd : b.Desc d)
    (hdst : b.Hint (some dst)) : b.Stays (dischargeJumps d isJump dst) fun _ _ => True := by
  have htail : b.Stays (needTail d) fun _ _ => True :=
    Stays.andThen (stays_needValue _) fun _ =>
      Stays.ite (fun _ => Stays.pure fun _ _ => trivial) fun _ => stays_needValue _
  have hskip : ∀ p, b.Stays (emitSkip p) fun o _ => ∀ idx, o = some idx → b.code.length ≤ idx := by
    intro p
    refine Stays.ite (fun _ => ?_) fun _ => Stays.pure fun _ _ idx ho => absurd ho (by simp)
    refine Stays.bind stays_emitUnfilledJmp fun j hj => Stays.pure fun _ _ idx ho => ?_
    obtain rfl := Option.some.inj ho
    exact hj
  have hfixup : ∀ p, b.Stays (emitFixup p dst) fun _ _ => True := by
    intro p
    have hemit : ∀ {i : Instruction}, b.Allows i.touches → b.Stays (emit i) fun _ _ => True :=
      fun hi => (stays_emit hi).weaken fun _ _ _ _ => trivial
    have hnext : b.Stays nextOffset fun _ _ => True :=
      stays_nextOffset.weaken fun _ _ _ _ => trivial
    refine Stays.ite (fun _ => ?_) fun _ => Stays.pure fun _ _ => trivial
    refine Stays.andThen hnext fun _ => ?_
    refine Stays.andThen (hemit hdst.allows) fun _ => ?_
    refine Stays.andThen hnext fun _ => ?_
    refine Stays.andThen (stays_allocConstant _) fun _ => ?_
    exact Stays.andThen (hemit hdst.allows) fun _ =>
      Stays.pure fun _ _ => trivial
  refine Stays.andThen htail fun tail => ?_
  refine Stays.bind (hskip _) fun skip hidx => ?_
  refine Stays.andThen (hfixup _) fun targets => ?_
  refine Stays.andThen stays_nextOffset fun finalPos => ?_
  refine Stays.andThen (stays_patchListAux _ _ hdst hd.falseList) fun _ => ?_
  refine Stays.andThen (stays_patchListAux _ _ hdst hd.trueList) fun _ => ?_
  cases skip with
  | none => exact Stays.pure fun _ _ => trivial
  | some idx =>
      exact Stays.andThen stays_nextOffset fun _ => stays_retarget _ (hidx idx rfl)

/-- Discharging leaves the value in a register of the region; a reserved register stays reserved. -/
theorem stays_dischargeSettled {d d' : ExprDesc} {hint : Option ℕ} {r : ℕ} (hd : b.Desc d)
    (hh : b.Hint hint) (hc : b.Holds c)
    (h : dischargeSettled d hint c = Except.ok ((d', r), c')) :
    b.Holds c' ∧ b.Desc d' ∧ b.Owns r ∧
      ((∀ x, d.kind = ExprKind.reg x → b.Top x c) → b.Top r c') := by
  have hrest : ∀ kind, d.kind = kind → (do
      let dst ← dischargeDst kind hint
      let expr := d.absorbHead
      if expr.trueList.isEmpty && expr.falseList.isEmpty then
        return ({ expr with kind := ExprKind.reg dst }, dst)
      else
        dischargeJumps expr kind.isJump dst
        return (ExprDesc.fromReg dst, dst) : CompileM (ExprDesc × ℕ)) c = Except.ok ((d', r), c') →
      b.Holds c' ∧ b.Desc d' ∧ b.Owns r ∧
        ((∀ x, d.kind = ExprKind.reg x → b.Top x c) → b.Top r c') := by
    rintro kind rfl h
    obtain ⟨dst, c₁, h₁, h⟩ := bind_eq_ok.1 h
    obtain ⟨hc₁, hdst, htop⟩ := stays_dischargeDst hd.reg hh hc h₁
    have habs := hd.absorbHead
    split at h
    · obtain ⟨heq, rfl⟩ := pure_eq_ok.1 h
      obtain ⟨rfl, rfl⟩ := Prod.mk.inj heq
      refine ⟨hc₁, ⟨fun x hx => ?_, fun j hj => absurd hj (by simp), habs.trueList, habs.falseList⟩,
        hdst.owns, htop⟩
      obtain rfl := ExprKind.reg.inj hx
      exact hdst.owns
    · obtain ⟨u, c₂, h₂, h⟩ := bind_eq_ok.1 h
      obtain ⟨hc₂, -⟩ := stays_dischargeJumps _ habs hdst c₁ u c₂ hc₁ h₂
      have hcur := cursor_dischargeJumps _ _ _ c₁ u c₂ h₂
      obtain ⟨heq, rfl⟩ := pure_eq_ok.1 h
      obtain ⟨rfl, rfl⟩ := Prod.mk.inj heq
      refine ⟨hc₂, Desc.ofReg hdst.owns, hdst.owns, fun ht => ?_⟩
      rw [Top, hcur]
      exact htop ht
  have hsplit : (∃ reg, d.kind = ExprKind.reg reg ∧ dischargeSettled d hint = pure (d, reg)) ∨
      dischargeSettled d hint = (do
        let dst ← dischargeDst d.kind hint
        let expr := d.absorbHead
        if expr.trueList.isEmpty && expr.falseList.isEmpty then
          return ({ expr with kind := ExprKind.reg dst }, dst)
        else
          dischargeJumps expr d.kind.isJump dst
          return (ExprDesc.fromReg dst, dst)) := by
    unfold dischargeSettled
    split
    · rename_i reg hkind _
      exact Or.inl ⟨reg, hkind, rfl⟩
    · exact Or.inr rfl
  rcases hsplit with ⟨reg, hkind, heq⟩ | heq
  · rw [heq] at h
    obtain ⟨heq, rfl⟩ := pure_eq_ok.1 h
    obtain ⟨rfl, rfl⟩ := Prod.mk.inj heq
    exact ⟨hc, hd, hd.reg _ hkind, fun ht => ht _ hkind⟩
  · rw [heq] at h
    exact hrest _ rfl h

theorem stays_dischargeToRegMut {d : ExprDesc} {hint : Option ℕ} (hd : b.Desc d)
    (hh : b.Hint hint) :
    b.Stays (dischargeToRegMut d hint) fun p _ => b.Desc p.1 ∧ b.Owns p.2 := by
  intro c p c' hc h
  obtain ⟨d₁, c₁, h₁, h⟩ := bind_eq_ok.1 h
  obtain ⟨hc₁, hd₁, -⟩ := stays_materializeConst hd hh hc h₁
  obtain ⟨hc', hd', hr, -⟩ := stays_dischargeSettled hd₁ hh hc₁ h
  exact ⟨hc', hd', hr⟩

/-- What has just been compiled is discharged into a reserved register. -/
theorem discharge_result {d : ExprDesc} {hint : Option ℕ} {p : ExprDesc × ℕ} (hc : b.Holds c)
    (hd : b.Result d c) (hh : b.Hint hint) (h : dischargeToRegMut d hint c = Except.ok (p, c')) :
    b.Holds c' ∧ b.Desc p.1 ∧ b.Reserved p.2 c' := by
  obtain ⟨d₁, c₁, h₁, h⟩ := bind_eq_ok.1 h
  obtain ⟨hc₁, hd₁, ht₁⟩ := stays_materializeConst hd.1 hh hc h₁
  obtain ⟨hc', hd', hr, ht⟩ := stays_dischargeSettled hd₁ hh hc₁ h
  exact ⟨hc', hd', hr, ht (ht₁ hd.2)⟩

theorem stays_toReg {m : CompileM ExprDesc} {dst : Option ℕ} (hm : b.Stays m b.Result)
    (hh : b.Hint dst) : b.Stays (toReg m dst) b.Reserved := by
  intro c r c' hc h
  obtain ⟨d, c₁, h₁, h⟩ := bind_eq_ok.1 h
  obtain ⟨hc₁, hd⟩ := hm c d c₁ hc h₁
  obtain ⟨p, c₂, h₂, h⟩ := bind_eq_ok.1 h
  obtain ⟨hc₂, -, hv⟩ := discharge_result hc₁ hd hh h₂
  obtain ⟨rfl, rfl⟩ := pure_eq_ok.1 h
  exact ⟨hc₂, hv⟩

/-! ### Branching -/

theorem stays_codenot {d : ExprDesc} {kind : ExprKind} (hd : b.Desc d)
    (hreg : ∀ r, kind = ExprKind.reg r → b.Owns r)
    (hhead : ∀ j, kind = ExprKind.jump (some j) → b.code.length < j) :
    b.Stays (codenot d kind) fun d' _ => b.Desc d' ∧ d'.kind = kind := by
  refine Stays.andThen (stays_downgradeTestsets hd.trueList) fun _ => ?_
  refine Stays.andThen (stays_downgradeTestsets hd.falseList) fun _ => ?_
  exact Stays.pure fun _ _ => ⟨⟨hreg, hhead, hd.falseList, hd.trueList⟩, rfl⟩

theorem stays_negateCond {d : ExprDesc} (hd : b.Desc d) :
    b.Stays (negateCond d) fun d' _ => b.Desc d' := by
  refine Stays.andThen (stays_ensure _) fun _ => ?_
  refine Stays.andThen (Stays.forM fun j hj => ?_) fun _ => ?_
  · exact stays_flipControlPolarity (exits_append.2 ⟨hd.trueList, hd.falseList⟩ j hj)
  · exact Stays.pure fun _ _ => ⟨hd.reg, hd.head, hd.falseList, hd.trueList⟩

theorem exits_concat {l : List ℕ} {j : ℕ} (hl : b.Exits l) (hj : b.code.length < j) :
    b.Exits (l ++ [j]) :=
  exits_append.2 ⟨hl, fun k hk => by rw [List.mem_singleton.1 hk]; exact hj⟩

/-- A test of a register, whose value may be dropped. -/
theorem stays_emitTestJump {r : ℕ} (jumpIfTruthy : Bool) :
    b.Stays (emitTestJump r jumpIfTruthy) fun j _ => b.code.length < j := by
  intro c j c' hc h
  have hallows : b.Allows (Instruction.testset noReg r (!jumpIfTruthy)).touches :=
    Or.inl (Nat.le_trans hc.floor hc.top)
  obtain ⟨u, c₁, h₁, h⟩ := bind_eq_ok.1 h
  obtain ⟨hc₁, hlen⟩ := stays_emit hallows c u c₁ hc h₁
  obtain ⟨hc', -⟩ := stays_emitUnfilledJmp c₁ j c' hc₁ h
  obtain ⟨n, c₃, h₃, h⟩ := bind_eq_ok.1 h
  obtain ⟨rfl, rfl⟩ := nextOffset_eq_ok.1 h₃
  obtain ⟨u₄, c₄, h₄, h₅⟩ := bind_eq_ok.1 h
  obtain ⟨rfl, rfl⟩ := pure_eq_ok.1 h₅
  exact ⟨hc', hlen⟩

theorem stays_branchTrue {d : ExprDesc} (hd : b.Desc d) :
    b.Stays (branchTrue d) fun d' _ => b.Desc d' := by
  unfold branchTrue
  split
  · rename_i idx hkind
    have hidx := hd.head idx hkind
    refine Stays.andThen (stays_flipControlPolarity hidx) fun _ => ?_
    exact Stays.pure fun _ _ => ⟨fun r hr => absurd hr (by simp), fun j hj => absurd hj (by simp),
      hd.trueList, exits_concat hd.falseList hidx⟩
  · exact Stays.ite (fun _ => stays_negateCond hd) fun _ => Stays.pure fun _ _ => hd
  · rename_i reg hkind
    refine Stays.andThen (stays_freeReg (hd.reg reg hkind)) fun _ => ?_
    refine Stays.bind (stays_emitTestJump _) fun jmp hjmp => Stays.pure fun _ _ => ?_
    exact ⟨hd.reg, hd.head, hd.trueList, exits_concat hd.falseList hjmp⟩
  · exact Stays.throw _

theorem stays_branchFalse {d : ExprDesc} (hd : b.Desc d) :
    b.Stays (branchFalse d) fun d' _ => b.Desc d' := by
  unfold branchFalse
  split
  · rename_i idx hkind
    exact Stays.pure fun _ _ => ⟨fun r hr => absurd hr (by simp), fun j hj => absurd hj (by simp),
      exits_concat hd.trueList (hd.head idx hkind), hd.falseList⟩
  · exact Stays.ite (fun _ => stays_negateCond hd) fun _ => Stays.pure fun _ _ => hd
  · rename_i reg hkind
    refine Stays.andThen (stays_freeReg (hd.reg reg hkind)) fun _ => ?_
    refine Stays.bind (stays_emitTestJump _) fun jmp hjmp => Stays.pure fun _ _ => ?_
    exact ⟨hd.reg, hd.head, exits_concat hd.trueList hjmp, hd.falseList⟩
  · exact Stays.throw _

theorem stays_goiftrue {d : ExprDesc} (hd : b.Desc d) :
    b.Stays (goiftrue d) fun d' _ => b.Desc d' := by
  have hload : b.Stays (do
      let r ← dischargeToRegMut d none
      branchTrue r.1) fun d' _ => b.Desc d' :=
    Stays.bind (stays_dischargeToRegMut hd Hint.none) fun _ hp => stays_branchTrue hp.1
  unfold goiftrue
  split
  · exact Stays.pure fun _ _ => hd
  · exact Stays.pure fun _ _ => hd
  · exact hload
  · exact hload
  · exact stays_branchTrue hd

theorem stays_goiffalse {d : ExprDesc} (hd : b.Desc d) :
    b.Stays (goiffalse d) fun d' _ => b.Desc d' := by
  have hload : b.Stays (do
      let r ← dischargeToRegMut d none
      branchFalse r.1) fun d' _ => b.Desc d' :=
    Stays.bind (stays_dischargeToRegMut hd Hint.none) fun _ hp => stays_branchFalse hp.1
  unfold goiffalse
  split
  · exact Stays.pure fun _ _ => hd
  · exact Stays.pure fun _ _ => hd
  · exact hload
  · exact hload
  · exact stays_branchFalse hd

/-! ### Names and literals -/

theorem stays_resolveOrCapture (name : Name) : b.Stays (resolveOrCapture name) fun _ _ => True := by
  intro c a c' hc h
  unfold resolveOrCapture at h
  obtain ⟨x, c₁, h₁, h⟩ := bind_eq_ok.1 h
  obtain ⟨rfl, rfl⟩ := get_eq_ok.1 h₁
  refine ⟨?_, trivial⟩
  cases hup : upvalueIndex c.upvalues name with
  | some i =>
      simp only [hup] at h
      rw [← (pure_eq_ok.1 h).2]
      exact hc
  | none =>
      simp only [hup] at h
      generalize resolveForChild name c.capture = r at h
      rcases r with ⟨_ | v | desc, capture⟩
      all_goals
        obtain ⟨u, c₂, h₂, h⟩ := bind_eq_ok.1 h
        rw [← (pure_eq_ok.1 h).2, ← set_eq_ok.1 h₂]
        exact hc.congr rfl rfl rfl rfl rfl

theorem cursor_resolveEnvUpvalue : KeepsCursor resolveEnvUpvalue := by
  refine KeepsCursor.bind (fun c a c' h => ?_) fun r => ?_
  · unfold resolveOrCapture at h
    obtain ⟨x, c₁, h₁, h⟩ := bind_eq_ok.1 h
    obtain ⟨rfl, rfl⟩ := get_eq_ok.1 h₁
    cases hup : upvalueIndex c.upvalues envName with
    | some i =>
        simp only [hup] at h
        rw [← (pure_eq_ok.1 h).2]
    | none =>
        simp only [hup] at h
        generalize resolveForChild envName c.capture = r at h
        rcases r with ⟨_ | v | desc, capture⟩
        all_goals
          obtain ⟨u, c₂, h₂, h⟩ := bind_eq_ok.1 h
          rw [← (pure_eq_ok.1 h).2, ← set_eq_ok.1 h₂]
  · rcases r with _ | v | idx
    · exact KeepsCursor.throw _
    · exact KeepsCursor.throw _
    · exact KeepsCursor.pure _

theorem stays_resolveEnvUpvalue : b.Stays resolveEnvUpvalue fun _ _ => True := by
  refine Stays.andThen (stays_resolveOrCapture _) fun r => ?_
  rcases r with _ | v | idx
  · exact Stays.throw _
  · exact Stays.throw _
  · exact Stays.pure fun _ _ => trivial

/-- The result of an instruction in the destination. -/
theorem stays_result {dst : Option ℕ} {f : ℕ → Instruction} (hdst : b.Hint dst)
    (hf : ∀ r, (f r).touches = Writes.register r) :
    b.Stays (do
      let dst ← dstOrAlloc dst
      emit (f dst)
      return ExprDesc.fromReg dst) b.Result := by
  intro c d c' hc h
  obtain ⟨r, c₁, h₁, h⟩ := bind_eq_ok.1 h
  obtain ⟨hc₁, hr, htop⟩ := stays_dstOrAlloc hdst c r c₁ hc h₁
  obtain ⟨u, c₂, h₂, h⟩ := bind_eq_ok.1 h
  obtain ⟨hc₂, -⟩ := stays_emit (by rw [hf]; exact hr.allows) c₁ u c₂ hc₁ h₂
  have hcur := cursor_emit _ c₁ u c₂ h₂
  obtain ⟨rfl, rfl⟩ := pure_eq_ok.1 h
  exact ⟨hc₂, Result.ofReg hr.owns (Or.inr (by rw [hcur]; exact htop))⟩

theorem stays_readGlobal (name : Name) {dst : Option ℕ} (hdst : b.Hint dst) :
    b.Stays (readGlobal name dst) b.Result := by
  refine Stays.andThen stays_get fun c => ?_
  refine Stays.ite (fun _ => stays_err _) fun _ => ?_
  refine Stays.andThen (stays_allocFieldKey _) fun key => ?_
  intro c d c' hc h
  obtain ⟨r, c₁, h₁, h⟩ := bind_eq_ok.1 h
  obtain ⟨hc₁, hr, htop⟩ := stays_dstOrAlloc hdst c r c₁ hc h₁
  obtain ⟨env, c₂, h₂, h⟩ := bind_eq_ok.1 h
  obtain ⟨hc₂, -⟩ := stays_resolveEnvUpvalue c₁ env c₂ hc₁ h₂
  have hcur₂ := cursor_resolveEnvUpvalue c₁ env c₂ h₂
  obtain ⟨u, c₃, h₃, h⟩ := bind_eq_ok.1 h
  obtain ⟨hc₃, -⟩ := stays_emit
    (i := Instruction.gettabup r env key.2 key.1) hr.allows c₂ u c₃ hc₂ h₃
  have hcur₃ := cursor_emit _ c₂ u c₃ h₃
  obtain ⟨rfl, rfl⟩ := pure_eq_ok.1 h
  exact ⟨hc₃, Result.ofReg hr.owns (Or.inr (by rw [hcur₃, hcur₂]; exact htop))⟩

theorem Result.ofConstVal (v : ConstVal) : b.Result v.toExprDesc c := by
  cases v with
  | numeral n => exact Result.ofConst (fun _ => by simp) fun _ => by simp
  | bool p => exact Result.ofConst (fun _ => by simp) fun _ => by simp
  | nil => exact Result.ofConst (fun _ => by simp) fun _ => by simp

theorem stays_compileExprIdent (hb : b.LocalsBelow) (name : Name) {dst : Option ℕ}
    (hdst : b.Hint dst) : b.Stays (compileExprIdent name dst) b.Result := by
  refine Stays.bind (P := fun r => ∀ d, r = some d → resolveLocalIn b.scope name = some d) ?_
    fun r hr => ?_
  · refine Stays.bind stays_get fun c hc => Stays.pure fun _ _ d hd => ?_
    rw [← hc.scope]
    exact hd
  · have hlocal : ∀ d, r = some d → d.kind ≠ VarKind.global → ∀ c : Ctx,
        b.Result (ExprDesc.fromReg d.register) c := by
      intro d hd hkind c
      have hlt := hb name d (hr d hd) hkind
      exact Result.ofReg (Or.inl hlt) (Or.inl hlt)
    cases r with
    | some data =>
        obtain ⟨reg, kind⟩ := data
        have hlocal := hlocal _ rfl
        cases kind with
        | const v =>
            cases v with
            | some v => exact Stays.pure fun _ _ => Result.ofConstVal v
            | none => exact Stays.pure fun c _ => hlocal (by simp) c
        | varargParam =>
            refine Stays.andThen (stays_modifyChunk (fun _ => rfl)
              (fun _ => rfl) (fun _ => rfl) fun _ => rfl) fun _ => ?_
            exact Stays.pure fun c _ => hlocal (by simp) c
        | global => exact stays_readGlobal name hdst
        | reg => exact Stays.pure fun c _ => hlocal (by simp) c
        | toClose => exact Stays.pure fun c _ => hlocal (by simp) c
    | none =>
        refine Stays.andThen (stays_resolveOrCapture name) fun r => ?_
        rcases r with _ | v | idx
        · exact stays_readGlobal name hdst
        · exact Stays.pure fun _ _ => Result.ofConstVal v
        · exact stays_result hdst fun _ => rfl

theorem stays_compileExprLiteral (value : LiteralValue) {dst : Option ℕ} (hdst : b.Hint dst) :
    b.Stays (compileExprLiteral value dst) b.Result := by
  have hconst : ∀ {kind : ExprKind}, (∀ r, kind ≠ ExprKind.reg r) → (∀ p, kind ≠ ExprKind.jump p) →
      b.Stays (Pure.pure ⟨kind, [], []⟩ : CompileM ExprDesc) b.Result :=
    fun hreg hjump => Stays.pure fun _ _ => Result.ofConst hreg hjump
  cases value with
  | int n => exact hconst (fun _ => by simp) fun _ => by simp
  | float f => exact hconst (fun _ => by simp) fun _ => by simp
  | bool p => exact hconst (fun _ => by simp) fun _ => by simp
  | nil => exact hconst (fun _ => by simp) fun _ => by simp
  | string s =>
      exact Stays.andThen (stays_allocConstant _) fun _ =>
        stays_result hdst fun _ => rfl

/-! ### Operators -/

variable {m n : CompileM ExprDesc} {r s : CompileM ℕ} {dst : Option ℕ}

theorem stays_compileNot {d : ExprDesc} (hd : b.Desc d) (hdst : b.Hint dst) :
    b.Stays (compileNot d dst) b.Result := by
  have hconst : ∀ {kind : ExprKind}, (∀ r, kind ≠ ExprKind.reg r) → (∀ p, kind ≠ ExprKind.jump p) →
      b.Stays (codenot d kind) b.Result := by
    intro kind hreg hjump
    refine (stays_codenot hd (fun r hr => absurd hr (hreg r))
      fun j hj => absurd hj (hjump _)).weaken ?_
    rintro d' c - ⟨hd', rfl⟩
    exact ⟨hd', fun r hr => absurd hr (hreg r)⟩
  unfold compileNot
  split
  · rename_i idx hkind
    have hidx := hd.head idx hkind
    refine Stays.andThen (stays_flipControlPolarity hidx) fun _ => ?_
    refine (stays_codenot hd (fun r hr => absurd hr (by simp)) fun j hj => ?_).weaken ?_
    · obtain rfl : idx = j := by simpa using hj
      exact hidx
    · rintro d' c - ⟨hd', hk⟩
      exact ⟨hd', fun r hr => absurd (hk.symm.trans hr) (by simp)⟩
  · exact Stays.throw _
  · rename_i src hkind
    refine Stays.andThen (stays_freeReg (hd.reg src hkind)) fun _ => ?_
    intro c d' c' hc h
    obtain ⟨reg, c₁, h₁, h⟩ := bind_eq_ok.1 h
    obtain ⟨hc₁, hreg, htop⟩ := stays_dstOrAlloc hdst c reg c₁ hc h₁
    obtain ⟨u, c₂, h₂, h⟩ := bind_eq_ok.1 h
    obtain ⟨hc₂, -⟩ := stays_emit (i := Instruction.not reg src) hreg.allows c₁ u c₂ hc₁ h₂
    have hcur₂ := cursor_emit _ c₁ u c₂ h₂
    have hcur := cursor_codenot _ _ c₂ d' c' h
    obtain ⟨hc', hd', hk⟩ := stays_codenot hd (fun x hx => by
      obtain rfl := ExprKind.reg.inj hx
      exact hreg.owns) (fun j hj => absurd hj (by simp)) c₂ d' c' hc₂ h
    refine ⟨hc', hd', fun x hx => Or.inr ?_⟩
    obtain rfl := ExprKind.reg.inj (hk.symm.trans hx)
    rw [hcur, hcur₂]
    exact htop
  · exact hconst (fun _ => by simp) fun _ => by simp
  · exact hconst (fun _ => by simp) fun _ => by simp
  · exact hconst (fun _ => by simp) fun _ => by simp

/-- A folded operand is a constant. -/
theorem Result.ofFold {num : NumOps} {op : PrefixOperator} {kind : ExprKind} {d : ExprDesc}
    (h : prefixFold num op kind = some d) : b.Result d c := by
  have hsome : ∀ {kind : ExprKind}, (∀ r, kind ≠ ExprKind.reg r) → (∀ p, kind ≠ ExprKind.jump p) →
      some (⟨kind, [], []⟩ : ExprDesc) = some d → b.Result d c := by
    intro kind hreg hjump h
    obtain rfl := Option.some.inj h
    exact Result.ofConst hreg hjump
  cases op with
  | neg =>
      cases kind with
      | numeral n => cases n <;> exact hsome (fun _ => by simp) (fun _ => by simp) h
      | _ => exact (nomatch h)
  | bitNot =>
      cases kind with
      | numeral n =>
          cases n with
          | int i => exact hsome (fun _ => by simp) (fun _ => by simp) h
          | float f =>
              obtain ⟨i, -, rfl⟩ := Option.map_eq_some_iff.1 h
              exact Result.ofConst (fun _ => by simp) fun _ => by simp
      | _ => exact (nomatch h)
  | not =>
      cases kind with
      | reg r => exact (nomatch h)
      | jump p => exact (nomatch h)
      | _ => exact hsome (fun _ => by simp) (fun _ => by simp) h
  | _ => exact (nomatch h)

theorem stays_prefixOpDesc (op : PrefixOperator) (hm : b.Stays m b.Result) (hdst : b.Hint dst) :
    b.Stays (prefixOpDesc op m dst) b.Result := by
  intro c d c' hc h
  obtain ⟨inner, c₁, h₁, h⟩ := bind_eq_ok.1 h
  obtain ⟨hc₁, hinner⟩ := hm c inner c₁ hc h₁
  obtain ⟨x, c₂, h₂, h⟩ := bind_eq_ok.1 h
  obtain ⟨rfl, rfl⟩ := get_eq_ok.1 h₂
  cases hfold : (if inner.hasJumps then none else prefixFold c₁.num op inner.kind) with
  | some e =>
      simp only [hfold] at h
      obtain ⟨rfl, rfl⟩ := pure_eq_ok.1 h
      split at hfold
      · exact absurd hfold (by simp)
      · exact ⟨hc₁, Result.ofFold hfold⟩
  | none =>
      have hrest : ∀ op, b.Stays (do
          let r ← dischargeToRegMut inner none
          freeReg r.2
          let dst ← dstOrAlloc dst
          let instr ← unwrap (unaryInstr op dst r.2)
          emit instr
          return ExprDesc.fromReg dst) b.Result := by
        intro op
        refine Stays.bind (stays_dischargeToRegMut hinner.1 Hint.none) fun p hp => ?_
        refine Stays.andThen (stays_freeReg hp.2) fun _ => ?_
        intro c d c' hc h
        obtain ⟨reg, c₁, h₁, h⟩ := bind_eq_ok.1 h
        obtain ⟨hc₁, hreg, htop⟩ := stays_dstOrAlloc hdst c reg c₁ hc h₁
        obtain ⟨instr, c₂, h₂, h⟩ := bind_eq_ok.1 h
        obtain ⟨hinstr, rfl⟩ := unwrap_eq_ok.1 h₂
        have hout : instr.touches = Writes.register reg := by
          cases op with
          | neg | len | bitNot =>
              obtain rfl := Option.some.inj hinstr
              rfl
          | _ => exact absurd hinstr (by simp [unaryInstr])
        obtain ⟨u, c₃, h₃, h⟩ := bind_eq_ok.1 h
        obtain ⟨hc₃, -⟩ := stays_emit (by rw [hout]; exact hreg.allows) c₁ u c₃ hc₁ h₃
        have hcur := cursor_emit _ c₁ u c₃ h₃
        obtain ⟨rfl, rfl⟩ := pure_eq_ok.1 h
        exact ⟨hc₃, Result.ofReg hreg.owns (Or.inr (by rw [hcur]; exact htop))⟩
      simp only [hfold] at h
      cases op with
      | not => exact stays_compileNot hinner.1 hdst c₁ d c' hc₁ h
      | none =>
          obtain ⟨p, c₂, h₂, h⟩ := bind_eq_ok.1 h
          obtain ⟨hc₂, -, hp⟩ := discharge_result hc₁ hinner Hint.none h₂
          obtain ⟨rfl, rfl⟩ := pure_eq_ok.1 h
          exact ⟨hc₂, Result.ofReg hp.1 hp.2⟩
      | neg => exact hrest _ c₁ d c' hc₁ h
      | len => exact hrest _ c₁ d c' hc₁ h
      | bitNot => exact hrest _ c₁ d c' hc₁ h

/-- What a register was reserved for no longer matters. -/
theorem Stays.owned (hr : b.Stays r b.Reserved) : b.Stays r fun x _ => b.Owns x :=
  hr.weaken fun _ _ _ h => h.1

theorem Stays.desc (hm : b.Stays m b.Result) : b.Stays m fun d _ => b.Desc d :=
  hm.weaken fun _ _ _ h => h.1

theorem stays_comparisonDesc (op : BinaryOperator) (hr : b.Stays r b.Reserved)
    (hs : b.Stays s b.Reserved) : b.Stays (comparisonDesc op r s) b.Result := by
  refine Stays.bind hr.owned fun lhs hl => Stays.bind hs.owned fun rhs hr => ?_
  cases hop : comparisonInstr op lhs rhs with
  | some instr =>
      have hout : instr.touches = Writes.nothing := by
        cases op with
        | eq | nEq | lt | gt | lEq | gEq =>
            obtain rfl := Option.some.inj hop
            rfl
        | _ => exact absurd hop (by simp [comparisonInstr])
      refine stays_control (by rw [hout]; trivial) fun jmp hjmp => ?_
      refine Stays.andThen (stays_freeRegs hl hr) fun _ => ?_
      refine Stays.pure fun _ _ => ⟨⟨fun r hr => absurd hr (by simp), fun j hj => ?_, exits_nil,
        exits_nil⟩, fun r hr => absurd hr (by simp)⟩
      obtain rfl : jmp = j := by simpa using hj
      exact hjmp
  | none => exact Stays.throw _

theorem stays_logicalAnd (hm : b.Stays m b.Result) (hn : b.Stays n b.Result) :
    b.Stays (logicalAnd m n) b.Result := by
  refine Stays.bind hm.desc fun lhs hl => Stays.bind (stays_goiftrue hl) fun lhs hl => ?_
  refine Stays.andThen (stays_patchToHere hl.trueList) fun _ => ?_
  intro c d c' hc h
  obtain ⟨rhs, c₁, h₁, h⟩ := bind_eq_ok.1 h
  obtain ⟨hc₁, hr, htop⟩ := hn c rhs c₁ hc h₁
  obtain ⟨rfl, rfl⟩ := pure_eq_ok.1 h
  exact ⟨hc₁, ⟨hr.reg, hr.head, hr.trueList, exits_append.2 ⟨hr.falseList, hl.falseList⟩⟩, htop⟩

theorem stays_logicalOr (hm : b.Stays m b.Result) (hn : b.Stays n b.Result) :
    b.Stays (logicalOr m n) b.Result := by
  refine Stays.bind hm.desc fun lhs hl => Stays.bind (stays_goiffalse hl) fun lhs hl => ?_
  refine Stays.andThen (stays_patchToHere hl.falseList) fun _ => ?_
  intro c d c' hc h
  obtain ⟨rhs, c₁, h₁, h⟩ := bind_eq_ok.1 h
  obtain ⟨hc₁, hr, htop⟩ := hn c rhs c₁ hc h₁
  obtain ⟨rfl, rfl⟩ := pure_eq_ok.1 h
  exact ⟨hc₁, ⟨hr.reg, hr.head, exits_append.2 ⟨hr.trueList, hl.trueList⟩, hr.falseList⟩, htop⟩

/-! ### Tables and fields -/

/-- A register behind an instruction of the region. -/
theorem stays_resultReg {dst : Option ℕ} {f : ℕ → Instruction} (hdst : b.Hint dst)
    (hf : ∀ r, (f r).touches = Writes.register r) :
    b.Stays (do
      let dst ← dstOrAlloc dst
      emit (f dst)
      return dst) b.Reserved := by
  intro c d c' hc h
  obtain ⟨r, c₁, h₁, h⟩ := bind_eq_ok.1 h
  obtain ⟨hc₁, hr, htop⟩ := stays_dstOrAlloc hdst c r c₁ hc h₁
  obtain ⟨u, c₂, h₂, h⟩ := bind_eq_ok.1 h
  obtain ⟨hc₂, -⟩ := stays_emit (by rw [hf]; exact hr.allows) c₁ u c₂ hc₁ h₂
  have hcur := cursor_emit _ c₁ u c₂ h₂
  obtain ⟨rfl, rfl⟩ := pure_eq_ok.1 h
  exact ⟨hc₂, hr.owns, Or.inr (by rw [hcur]; exact htop)⟩

theorem stays_propertyDesc (varargBase : Option ℕ) (field : Option Name)
    (hr : b.Stays r b.Reserved) (hs : b.Stays s b.Reserved) (hdst : b.Hint dst) :
    b.Stays (propertyDesc varargBase field r s dst) b.Result := by
  unfold propertyDesc
  cases varargBase with
  | some argsReg =>
      cases field with
      | some name =>
          refine Stays.andThen (stays_allocConstant _) fun key => ?_
          refine Stays.bind stays_reserveReg' fun keyReg hkey => ?_
          refine Stays.andThen
            (stays_emit (i := Instruction.load keyReg key) (Or.inl hkey)) fun _ => ?_
          refine Stays.andThen (stays_freeReg (Or.inr hkey)) fun _ => ?_
          exact stays_result hdst fun _ => rfl
      | none => exact Stays.throw _
  | none =>
      refine Stays.bind hr.owned fun table ht => ?_
      cases field with
      | some name =>
          refine Stays.andThen (stays_allocFieldKey _) fun key => ?_
          refine Stays.andThen (stays_freeReg ht) fun _ => ?_
          exact stays_result hdst fun _ => rfl
      | none =>
          refine Stays.bind hs.owned fun key hk => ?_
          refine Stays.andThen (stays_freeRegs ht hk) fun _ => ?_
          exact stays_result hdst fun _ => rfl

theorem stays_indexReg (varargBase : Option ℕ) (hr : b.Stays r b.Reserved)
    (hs : b.Stays s b.Reserved) (hdst : b.Hint dst) :
    b.Stays (indexReg varargBase r s dst) b.Reserved := by
  unfold indexReg
  cases varargBase with
  | some argsReg =>
      refine Stays.bind hs.owned fun key hk => ?_
      refine Stays.andThen (stays_freeReg hk) fun _ => ?_
      exact stays_resultReg hdst fun _ => rfl
  | none =>
      refine Stays.bind hr.owned fun table ht => Stays.bind hs.owned fun key hk => ?_
      refine Stays.andThen (stays_freeRegs ht hk) fun _ => ?_
      exact stays_resultReg hdst fun _ => rfl

theorem touches_binaryInstr {op : BinaryOperator} {dst lhs rhs : ℕ} {i : Instruction}
    (h : binaryInstr op dst lhs rhs = some i) : i.touches = Writes.register dst := by
  cases op with
  | add | sub | mul | div | intDiv | mod | exp | bitAnd | bitOr | bitXor
  | lShift | rShift | concat =>
      obtain rfl := Option.some.inj h
      rfl
  | _ => exact absurd h (by simp [binaryInstr])

theorem Result.ofBinaryFold {num : NumOps} {op : BinaryOperator} {lhs rhs d : ExprDesc}
    (h : binaryFold num op lhs rhs = some d) : b.Result d c := by
  unfold binaryFold at h
  split at h
  · exact absurd h (by simp)
  · split at h
    · obtain ⟨i, -, rfl⟩ := Option.map_eq_some_iff.1 h
      exact Result.ofConst (fun _ => by simp) fun _ => by simp
    · exact absurd h (by simp)

theorem stays_arithDesc (op : BinaryOperator) (hm : b.Stays m b.Result) (hn : b.Stays n b.Result)
    (hdst : b.Hint dst) : b.Stays (arithDesc op m n dst) b.Result := by
  have hsettle : ∀ {d : ExprDesc}, b.Desc d →
      b.Stays (dischargeToRegMut d none) fun p _ => b.Desc p.1 ∧ b.Owns p.2 :=
    fun hd => stays_dischargeToRegMut hd Hint.none
  -- both operands are in registers
  have hinstr : ∀ lhs rhs : ℕ, b.Owns lhs → b.Owns rhs → b.Stays (do
      freeRegs lhs rhs
      let dst ← dstOrAlloc dst
      let instr ← unwrap (binaryInstr op dst lhs rhs)
      emit instr
      return ExprDesc.fromReg dst) b.Result := by
    intro lhs rhs hl hr
    refine Stays.andThen (stays_freeRegs hl hr) fun _ => ?_
    intro c d c' hc h
    obtain ⟨reg, c₁, h₁, h⟩ := bind_eq_ok.1 h
    obtain ⟨hc₁, hreg, htop⟩ := stays_dstOrAlloc hdst c reg c₁ hc h₁
    obtain ⟨instr, c₂, h₂, h⟩ := bind_eq_ok.1 h
    obtain ⟨hinstr, rfl⟩ := unwrap_eq_ok.1 h₂
    obtain ⟨u, c₃, h₃, h⟩ := bind_eq_ok.1 h
    obtain ⟨hc₃, -⟩ := stays_emit (by rw [touches_binaryInstr hinstr]; exact hreg.allows)
      c₁ u c₃ hc₁ h₃
    have hcur := cursor_emit _ c₁ u c₃ h₃
    obtain ⟨rfl, rfl⟩ := pure_eq_ok.1 h
    exact ⟨hc₃, Result.ofReg hreg.owns (Or.inr (by rw [hcur]; exact htop))⟩
  have hrest : ∀ (early : Bool) (lhsDesc rhsDesc : ExprDesc), b.Desc lhsDesc → b.Desc rhsDesc →
      b.Stays (arithOperands op early lhsDesc rhsDesc dst) b.Result := by
    intro early lhsDesc rhsDesc hl hr
    refine Stays.andThen stays_get fun c => ?_
    dsimp only
    cases hfold : binaryFold c.num op lhsDesc rhsDesc with
    | some e => exact Stays.pure fun _ _ => Result.ofBinaryFold hfold
    | none =>
        refine Stays.ite (fun _ => ?_) fun _ => ?_
        · exact Stays.bind (hsettle hr) fun p hp => Stays.bind (hsettle hl) fun q hq =>
            hinstr _ _ hq.2 hp.2
        · exact Stays.bind (hsettle hl) fun p hp => Stays.bind (hsettle hr) fun q hq =>
            hinstr _ _ hp.2 hq.2
  have hpure : ∀ {d : ExprDesc}, b.Desc d →
      b.Stays (Pure.pure d : CompileM ExprDesc) fun d _ => b.Desc d :=
        fun hd => Stays.pure fun _ _ => hd
  refine Stays.bind hm.desc fun lhs hl => Stays.ite (fun _ => ?_) fun _ => ?_
  · exact Stays.bind (hsettle hl) fun p hp => Stays.bind (hpure hp.1) fun lhs hl =>
      Stays.bind hn.desc fun rhs hr => hrest _ _ _ hl hr
  · exact Stays.bind (hpure hl) fun lhs hl => Stays.bind hn.desc fun rhs hr => hrest _ _ _ hl hr

theorem stays_binaryOpDesc (op : BinaryOperator) (varargBase : Option ℕ) (field : Option Name)
    {lhs rhs : Option ℕ → CompileM ExprDesc}
    (hl : ∀ hint, b.Hint hint → b.Stays (lhs hint) b.Result)
    (hr : ∀ hint, b.Hint hint → b.Stays (rhs hint) b.Result) (hdst : b.Hint dst) :
    b.Stays (binaryOpDesc op varargBase field lhs rhs dst) b.Result := by
  have hl' := stays_toReg (hl none Hint.none) Hint.none
  have hr' := stays_toReg (hr none Hint.none) Hint.none
  have hcmp := fun op => stays_comparisonDesc op hl' hr'
  have harith := fun op => stays_arithDesc op (hl none Hint.none) (hr none Hint.none) hdst
  cases op with
  | and => exact stays_logicalAnd (hl dst hdst) (hr dst hdst)
  | or => exact stays_logicalOr (hl dst hdst) (hr dst hdst)
  | property => exact stays_propertyDesc varargBase field hl' hr' hdst
  | method => exact Stays.throw _
  | eq => exact hcmp BinaryOperator.eq
  | nEq => exact hcmp BinaryOperator.nEq
  | lt => exact hcmp BinaryOperator.lt
  | gt => exact hcmp BinaryOperator.gt
  | lEq => exact hcmp BinaryOperator.lEq
  | gEq => exact hcmp BinaryOperator.gEq
  | _ => exact harith _

/-! ### Calls -/

/-- The setup of a call: its function is a temp of the region. -/
def Setup (b : Region) (setup : CompileM (ℕ × ℕ)) : Prop :=
  b.Stays setup fun p _ => b.floor ≤ p.1

/-- The setups of the calls among the forms. -/
def Multi (b : Region) : Multires → Prop
  | Multires.funcCall setup => b.Setup setup
  | Multires.method setup => b.Setup setup
  | _ => True

theorem stays_moveInto {reg target : ℕ} (ht : b.floor ≤ target) :
    b.Stays (moveInto reg target) fun _ _ => True := by
  refine Stays.ite (fun _ => ?_) fun _ => Stays.pure fun _ _ => trivial
  refine Stays.andThen (stays_allocUpTo _) fun _ => ?_
  exact (stays_emit (i := Instruction.move target reg) (Or.inl ht)).weaken fun _ _ _ _ => trivial

theorem stays_funcCallSetup {args : ℕ → CompileM ℕ} (hr : b.Stays r b.Reserved)
    (hargs : ∀ func, b.floor ≤ func → b.Stays (args func) fun _ _ => True) :
    b.Setup (funcCallSetup r args) := by
  intro c p c' hc h
  have hlast : ∀ func c, b.floor ≤ func → b.Holds c → (do
      let argsWire ← args func
      return (func, argsWire) : CompileM (ℕ × ℕ)) c = Except.ok (p, c') →
        b.Holds c' ∧ b.floor ≤ p.1 := by
    intro func c hfunc hc h
    obtain ⟨wire, c₁, h₁, h⟩ := bind_eq_ok.1 h
    obtain ⟨hc₁, -⟩ := hargs func hfunc c wire c₁ hc h₁
    obtain ⟨rfl, rfl⟩ := pure_eq_ok.1 h
    exact ⟨hc₁, hfunc⟩
  obtain ⟨func, c₁, h₁, h⟩ := bind_eq_ok.1 h
  obtain ⟨hc₁, hfunc, -⟩ := hr c func c₁ hc h₁
  obtain ⟨ch, c₂, h₂, h⟩ := bind_eq_ok.1 h
  obtain ⟨rfl, rfl⟩ := getChunk_eq_ok.1 h₂
  obtain ⟨next, c₃, h₃, h⟩ := bind_eq_ok.1 h
  obtain ⟨-, rfl, rfl⟩ := addU8_eq_ok.1 h₃
  split at h
  · obtain ⟨top, c₄, h₄, h⟩ := bind_eq_ok.1 h
    obtain ⟨hc₄, htop⟩ := stays_reserveReg' c₁ top c₄ hc₁ h₄
    obtain ⟨u, c₅, h₅, h⟩ := bind_eq_ok.1 h
    obtain ⟨hc₅, -⟩ := stays_emit (i := Instruction.move top func) (Or.inl htop) c₄ u c₅ hc₄ h₅
    obtain ⟨x, c₆, h₆, h⟩ := bind_eq_ok.1 h
    obtain ⟨rfl, rfl⟩ := pure_eq_ok.1 h₆
    exact hlast _ _ htop hc₅ h
  · rename_i hcond
    obtain ⟨x, c₆, h₆, h⟩ := bind_eq_ok.1 h
    obtain ⟨rfl, rfl⟩ := pure_eq_ok.1 h₆
    have hge : ¬ func < b.nactvar := by
      rw [← hc₁.nactvar]
      intro hlt
      exact hcond (by simp [hlt])
    have hnext : func + 1 = c₁.chunk.freereg := by
      by_contra hne
      exact hcond (by simp [hne])
    exact hlast _ _ (hc₁.floor_of_top hfunc hge hnext) hc₁ h

theorem stays_methodCallSetup (method : Name) {args : ℕ → CompileM ℕ} (hr : b.Stays r b.Reserved)
    (hargs : ∀ func, b.floor ≤ func → b.Stays (args func) fun _ _ => True) :
    b.Setup (methodCallSetup r method args) := by
  refine Stays.andThen hr fun object => ?_
  refine Stays.andThen (stays_allocConstant _) fun key => ?_
  refine Stays.bind stays_reserveReg' fun func hfunc => ?_
  refine Stays.andThen (stays_emit (i := Instruction.self func object key) hfunc) fun _ => ?_
  refine Stays.andThen (stays_addU8 _ _) fun selfReg => ?_
  refine Stays.andThen (stays_allocUpTo _) fun _ => ?_
  exact Stays.bind (hargs func hfunc) fun _ _ => Stays.pure fun _ _ => hfunc

/-- The results of a call are temps of the region below the cursor. -/
theorem stays_callResults {setup : CompileM (ℕ × ℕ)} (hs : b.Setup setup) (want : Want) :
    b.Stays (callResults setup want) fun regs c =>
      ∀ r ∈ regs, b.floor ≤ r ∧ r < c.chunk.freereg := by
  refine Stays.bind hs fun p hp => ?_
  obtain ⟨func, wire⟩ := p
  cases want with
  | exact n =>
      refine Stays.andThen (stays_addU8 _ _) fun returns => ?_
      refine Stays.andThen (stays_emit (i := Instruction.call func wire returns) hp) fun _ => ?_
      refine Stays.bind (stays_addU8 func n) fun stop hstop => ?_
      obtain ⟨rfl, htop⟩ := hstop
      have hle : b.floor ≤ func + n := Nat.le_trans hp (Nat.le_add_right _ _)
      refine Stays.carry (P := fun _ free => free = func + n) (stays_setFreereg hle htop)
        (Q := fun regs _ => regs = (List.range n).map fun i => func + i)
        (fun _ => Stays.pure fun _ _ => rfl) (fun _ => KeepsCursor.pure _) ?_
      rintro - regs c hfree rfl r hr
      obtain ⟨i, hi, rfl⟩ := List.mem_map.1 hr
      have := List.mem_range.1 hi
      exact ⟨Nat.le_trans hp (Nat.le_add_right _ _), by omega⟩
  | multRet =>
      refine Stays.andThen (stays_emit (i := Instruction.call func wire 0) hp)
        fun _ => Stays.pure fun _ _ r hr => absurd hr List.not_mem_nil

/-- A call as an expression: its first result. -/
theorem stays_callResult {setup : CompileM (ℕ × ℕ)} (hs : b.Setup setup) :
    b.Stays (do
      let regs ← callResults setup (Want.exact 1)
      return ExprDesc.fromReg (← unwrap regs[0]?)) b.Result := by
  intro c d c' hc h
  obtain ⟨regs, c₁, h₁, h⟩ := bind_eq_ok.1 h
  obtain ⟨hc₁, hregs⟩ := stays_callResults hs _ c regs c₁ hc h₁
  obtain ⟨r, c₂, h₂, h⟩ := bind_eq_ok.1 h
  obtain ⟨hr, rfl⟩ := unwrap_eq_ok.1 h₂
  obtain ⟨rfl, rfl⟩ := pure_eq_ok.1 h
  obtain ⟨hfloor, hlt⟩ := hregs r (List.mem_of_getElem? hr)
  exact ⟨hc₁, Result.ofReg (Or.inr hfloor) (Or.inr hlt)⟩

theorem stays_trailingMultires {multi : Multires} {target : ℕ} (hm : b.Multi multi)
    (hs : b.Stays s b.Reserved) (ht : b.floor ≤ target) :
    b.Stays (trailingMultires multi s target) fun _ _ => True := by
  have hcall : ∀ setup, b.Setup setup → b.Stays (do
      allocUpTo target
      let _ ← callResults setup Want.multRet
      return true) fun _ _ => True := by
    intro setup hsetup
    refine Stays.andThen (stays_allocUpTo _) fun _ => ?_
    exact Stays.andThen (stays_callResults hsetup _) fun _ =>
        Stays.pure fun _ _ => trivial
  cases multi with
  | funcCall setup => exact hcall setup hm
  | method setup => exact hcall setup hm
  | varArg =>
      refine Stays.andThen (stays_allocUpTo _) fun _ => ?_
      exact Stays.andThen (stays_emit (i := Instruction.vararg target 0) ht)
        fun _ => Stays.pure fun _ _ => trivial
  | single =>
      refine Stays.andThen hs fun reg => ?_
      exact Stays.andThen (stays_moveInto ht) fun _ =>
        Stays.pure fun _ _ => trivial

theorem stays_callArgs (k offset : ℕ) {window : CompileM Bool}
    (hw : b.Stays window fun _ _ => True) : b.Stays (callArgs k offset window) fun _ _ => True := by
  refine Stays.andThen (stays_addU8 _ _) fun total => ?_
  refine Stays.bind hw fun multi _ => Stays.ite (fun _ => Stays.pure fun _ _ => trivial) fun _ => ?_
  exact (stays_addU8 _ _).weaken fun _ _ _ _ => trivial

/-! ### Table constructors -/

theorem stays_flushArray {table base : ℕ} (count pending : ℕ)
    (htable : b.Allows (Writes.register table)) (hbase : b.floor ≤ base) (htop : base ≤ noReg) :
    b.Stays (flushArray table base count pending) fun _ _ => True := by
  refine Stays.ite (fun _ => ?_) fun _ => Stays.pure fun _ _ => trivial
  refine Stays.andThen
    (stays_emit (i := Instruction.setlist table pending (count - pending)) htable) fun _ => ?_
  exact (stays_setFreereg hbase htop).weaken fun _ _ _ _ => trivial

theorem stays_arrayItem (isLast : Bool) {multi : Multires} {value : Option ℕ → CompileM ℕ}
    {table base : ℕ} (count pending : ℕ) (hm : b.Multi multi)
    (hv : ∀ hint, b.Hint hint → b.Stays (value hint) b.Reserved)
    (htable : b.Allows (Writes.register table)) (hbase : b.floor ≤ base) (htop : base ≤ noReg) :
    b.Stays (arrayItem isLast multi value table base count pending) fun _ _ => True := by
  refine Stays.bind (stays_addU8 base pending) fun slot hslot => ?_
  have hfloor : b.floor ≤ slot := by
    rw [hslot.1]
    exact Nat.le_trans hbase (Nat.le_add_right _ _)
  have hdone : ∀ val : ℕ, b.Stays (do
      ensure (count + 1 < 2 ^ 16)
      if 50 ≤ pending + 1 then
        flushArray table base (count + 1) (pending + 1)
        return (count + 1, 0)
      else return (count + 1, pending + 1)) fun _ _ => True := by
    intro val
    refine Stays.andThen (stays_ensure _)
      fun _ => Stays.ite (fun _ => ?_) fun _ => Stays.pure fun _ _ => trivial
    exact Stays.andThen (stays_flushArray _ _ htable hbase htop) fun _ =>
      Stays.pure fun _ _ => trivial
  refine Stays.ite (fun _ => ?_) fun _ => ?_
  · refine Stays.andThen (stays_trailingMultires hm (Stays.throw _) hfloor) fun _ => ?_
    refine Stays.andThen
      (stays_emit (i := Instruction.setlist table 0 (count - pending)) htable) fun _ => ?_
    exact Stays.andThen (stays_setFreereg hbase htop) fun _ =>
        Stays.pure fun _ _ => trivial
  · refine Stays.bind (hv _ (Hint.of_floor hfloor)).owned fun val hval => ?_
    refine Stays.ite (fun _ => ?_) fun _ => hdone val
    refine Stays.andThen (stays_allocUpTo _) fun _ => ?_
    refine Stays.andThen (stays_emit (i := Instruction.move slot val) (Or.inl hfloor)) fun _ => ?_
    exact Stays.andThen (stays_freeReg hval) fun _ => hdone val

theorem stays_mapItem (field : Name) {table base : ℕ} (count pending : ℕ)
    (hr : b.Stays r b.Reserved) (htable : b.Allows (Writes.register table))
    (hbase : b.floor ≤ base) (htop : base ≤ noReg) :
    b.Stays (mapItem field r table base count pending) fun _ _ => True := by
  refine Stays.andThen (stays_flushArray _ _ htable hbase htop) fun _ => ?_
  refine Stays.andThen (stays_allocFieldKey _) fun key => ?_
  refine Stays.bind hr.owned fun val hval => ?_
  refine Stays.andThen
    (stays_emit (i := Instruction.setfield val table key.2 key.1) htable) fun _ => ?_
  exact stays_freeReg hval

theorem stays_genericItem {table base : ℕ} (count pending : ℕ) (hr : b.Stays r b.Reserved)
    (hs : b.Stays s b.Reserved) (htable : b.Allows (Writes.register table))
    (hbase : b.floor ≤ base) (htop : base ≤ noReg) :
    b.Stays (genericItem r s table base count pending) fun _ _ => True := by
  refine Stays.andThen (stays_flushArray _ _ htable hbase htop) fun _ => ?_
  refine Stays.bind hr.owned fun key hkey => Stays.bind hs.owned fun val hval => ?_
  refine Stays.andThen (stays_emit (i := Instruction.settable val table key) htable) fun _ => ?_
  exact stays_freeRegs hval hkey

/-! ### Regions inside regions -/

end Region

/-- The region from the present instruction and from `floor` on, and a register it may touch. -/
def Ctx.regionWith (c : Ctx) (locals floor : ℕ) (target : Option ℕ) : Region where
  scope := c.scope
  nactvar := c.chunk.nactvar
  locals := locals
  constants := c.chunk.constants
  code := c.chunk.tape
  floor := floor
  target := target

/-- The region from the present instruction and from `floor` on. -/
def Ctx.region (c : Ctx) (locals floor : ℕ) : Region := c.regionWith locals floor none

namespace Region

variable {b : Region} {c c' : Ctx} {r : CompileM ℕ} {dst : Option ℕ}

theorem holds_regionWith {locals floor : ℕ} {target : Option ℕ}
    (hlocals : c.chunk.nactvar ≤ locals) (hapart : locals < floor ∨ locals = c.chunk.nactvar)
    (hfloor : floor ≤ c.chunk.freereg) (htop : c.chunk.freereg ≤ noReg)
    (hroom : c.chunk.constants.length < 2 ^ 16) : (c.regionWith locals floor target).Holds c where
  scope := rfl
  nactvar := rfl
  active := hlocals
  apart := hapart
  floor := hfloor
  top := htop
  constants := List.prefix_refl _
  room := hroom
  code := List.take_length
  writes k i hk hi := by
    have hk : c.chunk.tape.length ≤ k := hk
    rw [List.getElem?_eq_none hk] at hi
    exact absurd hi (by simp)

theorem holds_region {locals floor : ℕ} (hlocals : c.chunk.nactvar ≤ locals)
    (hapart : locals < floor ∨ locals = c.chunk.nactvar) (hfloor : floor ≤ c.chunk.freereg)
    (htop : c.chunk.freereg ≤ noReg) (hroom : c.chunk.constants.length < 2 ^ 16) :
    (c.region locals floor).Holds c :=
  holds_regionWith hlocals hapart hfloor htop hroom

/-- What stays in a region inside stays in the region. -/
theorem Holds.of_regionWith {floor : ℕ} {target : Option ℕ} (h : b.Holds c)
    (hfloor : b.floor ≤ floor) (htarget : ∀ r, target = some r → b.Allows (Writes.register r))
    (h' : (c.regionWith b.locals floor target).Holds c') : b.Holds c' where
  scope := h'.scope.trans h.scope
  nactvar := h'.nactvar.trans h.nactvar
  active := h.active
  apart := h.apart
  floor := Nat.le_trans hfloor h'.floor
  top := h'.top
  constants := h.constants.trans h'.constants
  room := h'.room
  code := by
    have hcode : c'.chunk.tape.take c.chunk.tape.length = c.chunk.tape := h'.code
    have hshort := List.take_take (l := c'.chunk.tape) (i := b.code.length)
      (j := c.chunk.tape.length)
    rw [hcode, Nat.min_eq_left h.length] at hshort
    exact hshort.symm.trans h.code
  writes k i hk hi := by
    rcases Nat.lt_or_ge k c.chunk.tape.length with hlt | hge
    · have hcode : c'.chunk.tape.take c.chunk.tape.length = c.chunk.tape := h'.code
      have hi' : (c'.chunk.tape.take c.chunk.tape.length)[k]? = some i := by
        rw [List.getElem?_take, if_pos hlt]
        exact hi
      rw [hcode] at hi'
      exact h.writes k i hk hi'
    · have := h'.writes k i hge hi
      cases hout : i.touches with
      | nothing => trivial
      | register r =>
          rw [hout] at this
          rcases this with hle | hlt | ht
          · exact Or.inl (Nat.le_trans hfloor hle)
          · exact Or.inr (Or.inl hlt)
          · exact htarget r ht
      | above r =>
          rw [hout] at this
          exact Nat.le_trans hfloor this

theorem Holds.of_region {floor : ℕ} (h : b.Holds c) (hfloor : b.floor ≤ floor)
    (h' : (c.region b.locals floor).Holds c') : b.Holds c' :=
  h.of_regionWith hfloor (fun r hr => absurd hr (by simp)) h'

theorem stays_tableDesc {entries : ℕ → ℕ → CompileM Unit}
    (he : ∀ (b : Region) (dst base : ℕ), b.LocalsBelow → b.Allows (Writes.register dst) →
      b.floor ≤ base → base ≤ noReg → b.Stays (entries dst base) fun _ _ => True)
    (hb : b.LocalsBelow) :
    b.Stays (tableDesc entries) b.Result := by
  intro c d c' hc h
  obtain ⟨dst, c₁, h₁, h⟩ := bind_eq_ok.1 h
  obtain ⟨hc₁, hdst, hfree⟩ := stays_reserveReg c dst c₁ hc h₁
  obtain ⟨u, c₂, h₂, h⟩ := bind_eq_ok.1 h
  obtain ⟨hc₂, -⟩ := stays_emit (i := Instruction.newtable dst) (Or.inl hdst) c₁ u c₂ hc₁ h₂
  have hcur := cursor_emit _ c₁ u c₂ h₂
  obtain ⟨ch, c₃, h₃, h⟩ := bind_eq_ok.1 h
  obtain ⟨rfl, rfl⟩ := getChunk_eq_ok.1 h₃
  obtain ⟨v, c₄, h₄, h⟩ := bind_eq_ok.1 h
  obtain ⟨rfl, rfl⟩ := pure_eq_ok.1 h
  have hlocals : (c₂.regionWith b.locals c₂.chunk.freereg (some dst)).LocalsBelow := by
    intro name data hname hkind
    have hname : resolveLocalIn c₂.scope name = some data := hname
    rw [hc₂.scope] at hname
    exact hb name data hname hkind
  have hactive : c₂.chunk.nactvar ≤ b.locals := by
    rw [hc₂.nactvar]
    exact hc₂.active
  have hapart : b.locals < c₂.chunk.freereg := by
    obtain ⟨-, hle, -, -, -⟩ := reserveReg_spec h₁
    rw [hc.nactvar] at hle
    have := hc.apart
    omega
  obtain ⟨hin, -⟩ := he _ dst _ hlocals (Or.inr (Or.inr rfl)) (Nat.le_refl _) hc₂.top c₂ v c₄
    (holds_regionWith hactive (Or.inl hapart) (Nat.le_refl _) hc₂.top hc₂.room) h₄
  have hinside : b.Holds c₄ := by
    refine hc₂.of_regionWith hc₂.floor (fun r hr => ?_) hin
    obtain rfl := Option.some.inj hr
    exact Or.inl hdst
  refine ⟨hinside, Result.ofReg (Or.inr hdst) (Or.inr ?_)⟩
  have := hin.floor
  have hreg : c₂.chunk.freereg ≤ c₄.chunk.freereg := this
  omega

/-! ### Function literals -/

theorem stays_compileNested (params : List Name) (vararg : Option (Option Name))
    (body : CompileM Unit) : b.Stays (compileNested params vararg body) fun _ _ => True := by
  intro c p c' hc h
  obtain ⟨x, c₁, h₁, h⟩ := bind_eq_ok.1 h
  obtain ⟨rfl, rfl⟩ := get_eq_ok.1 h₁
  obtain ⟨child, c₂, h₂, h⟩ := bind_eq_ok.1 h
  obtain ⟨child', -, hpair⟩ := except_bind_eq_ok.1 h₂
  obtain ⟨rfl, rfl⟩ := Prod.mk.inj (Except.ok.inj hpair)
  refine ⟨?_, trivial⟩
  cases hca : child'.capture with
  | nil =>
      simp only [hca] at h
      exact absurd h (by simp [throw_eq_ok])
  | cons f capture =>
      simp only [hca] at h
      obtain ⟨u, c₃, h₃, h⟩ := bind_eq_ok.1 h
      obtain ⟨proto, -, hpair⟩ := except_bind_eq_ok.1 h
      obtain ⟨-, rfl⟩ := Prod.mk.inj (Except.ok.inj hpair)
      rw [← set_eq_ok.1 h₃]
      exact hc.congr rfl rfl rfl rfl rfl

theorem stays_funcReg (params : List Name) (vararg : Option (Option Name)) (body : CompileM Unit)
    (hdst : b.Hint dst) : b.Stays (funcReg params vararg body dst) b.Reserved := by
  refine Stays.andThen (stays_compileNested params vararg body) fun proto => ?_
  refine Stays.andThen stays_getChunk fun ch => ?_
  refine Stays.andThen (stays_modifyChunk (fun _ => rfl) (fun _ => rfl)
    (fun _ => rfl) fun _ => rfl) fun _ => ?_
  exact stays_resultReg hdst fun _ => rfl

/-! ### The recursion -/

mutual

/-- **The code of an expression stays in its region**: it is emitted behind what was there, and
writes temps from the floor on and the destination hint only. -/
theorem stays_compileExpr :
    ∀ (e : Expr) (b : Region) (dst : Option ℕ), b.LocalsBelow → b.Hint dst →
      b.Stays (compileExpr e dst) b.Result
  | Expr.prefixOp op rhs, b, dst, hb, hdst => by
      rw [compileExpr]
      exact stays_prefixOpDesc op (stays_compileExpr rhs b none hb Hint.none) hdst
  | Expr.binaryOp op lhs rhs, b, dst, hb, hdst => by
      rw [compileExpr]
      refine Stays.andThen stays_get fun c => ?_
      exact stays_binaryOpDesc op _ _ (fun hint hh => stays_compileExpr lhs b hint hb hh)
        (fun hint hh => stays_compileExpr rhs b hint hb hh) hdst
  | Expr.method object method args, b, _, hb, _ => by
      rw [compileExpr]
      refine stays_callResult (stays_methodCallSetup method
        (stays_toReg (stays_compileExpr object b none hb Hint.none) Hint.none) fun func hfunc => ?_)
      exact stays_callArgs _ _ (stays_compileWindow args b func 2 0 hb hfunc)
  | Expr.ident name, b, dst, hb, hdst => by
      rw [compileExpr]
      exact stays_compileExprIdent hb name hdst
  | Expr.literal value, b, dst, _, hdst => by
      rw [compileExpr]
      exact stays_compileExprLiteral value hdst
  | Expr.func (FuncBody.mk params vararg block), b, dst, _, hdst => by
      rw [compileExpr]
      intro c d c' hc h
      obtain ⟨r, c₁, h₁, h⟩ := bind_eq_ok.1 h
      obtain ⟨hc₁, hr⟩ := stays_funcReg params vararg (compileBlock block) hdst c r c₁ hc h₁
      obtain ⟨rfl, rfl⟩ := pure_eq_ok.1 h
      exact ⟨hc₁, Result.ofReg hr.1 hr.2⟩
  | Expr.table entries, b, _, hb, _ => by
      rw [compileExpr]
      refine stays_tableDesc (fun b' dst base hb' htable hbase htop => ?_) hb
      exact stays_compileEntries entries b' dst base 0 0 hb' htable hbase htop
  | Expr.funcCall target args, b, _, hb, _ => by
      rw [compileExpr]
      refine stays_callResult (stays_funcCallSetup
        (stays_toReg (stays_compileExpr target b none hb Hint.none) Hint.none) fun func hfunc => ?_)
      exact stays_callArgs _ _ (stays_compileWindow args b func 1 0 hb hfunc)
  | Expr.index target index, b, dst, hb, hdst => by
      rw [compileExpr]
      refine Stays.andThen stays_get fun c => ?_
      intro c d c' hc h
      obtain ⟨r, c₁, h₁, h⟩ := bind_eq_ok.1 h
      obtain ⟨hc₁, hr⟩ := stays_indexReg _
        (stays_toReg (stays_compileExpr target b none hb Hint.none) Hint.none)
        (stays_toReg (stays_compileExpr index b none hb Hint.none) Hint.none) hdst c r c₁ hc h₁
      obtain ⟨rfl, rfl⟩ := pure_eq_ok.1 h
      exact ⟨hc₁, Result.ofReg hr.1 hr.2⟩
  | Expr.varArg, b, dst, _, hdst => by
      rw [compileExpr]
      exact stays_result hdst fun _ => rfl
  | Expr.paren inner, b, dst, hb, hdst => by
      rw [compileExpr]
      exact stays_compileExpr inner b dst hb hdst

theorem multi_compileMultires :
    ∀ (e : Expr) (b : Region), b.LocalsBelow → b.Multi (compileMultires e)
  | Expr.funcCall target args, b, hb => by
      rw [compileMultires]
      refine stays_funcCallSetup
        (stays_toReg (stays_compileExpr target b none hb Hint.none) Hint.none) fun func hfunc => ?_
      exact stays_callArgs _ _ (stays_compileWindow args b func 1 0 hb hfunc)
  | Expr.method object method args, b, hb => by
      rw [compileMultires]
      refine stays_methodCallSetup method
        (stays_toReg (stays_compileExpr object b none hb Hint.none) Hint.none) fun func hfunc => ?_
      exact stays_callArgs _ _ (stays_compileWindow args b func 2 0 hb hfunc)
  | Expr.varArg, _, _ => trivial
  | Expr.prefixOp _ _, _, _ => trivial
  | Expr.binaryOp _ _ _, _, _ => trivial
  | Expr.ident _, _, _ => trivial
  | Expr.literal _, _, _ => trivial
  | Expr.func _, _, _ => trivial
  | Expr.table _, _, _ => trivial
  | Expr.index _ _, _, _ => trivial
  | Expr.paren _, _, _ => trivial

theorem stays_compileWindow :
    ∀ (es : List Expr) (b : Region) (base offset i : ℕ), b.LocalsBelow → b.floor ≤ base →
      b.Stays (compileWindow es base offset i) fun _ _ => True
  | [], b, base, offset, i, _, _ => by
      rw [compileWindow]
      exact Stays.pure fun _ _ => trivial
  | e :: rest, b, base, offset, i, hb, hbase => by
      rw [compileWindow]
      refine Stays.bind (stays_addU8 _ _) fun first hfirst => ?_
      refine Stays.bind (stays_addU8 _ _) fun target htarget => ?_
      have hle : b.floor ≤ target := by
        rw [htarget.1, hfirst.1]
        omega
      have hvalue := stays_toReg (stays_compileExpr e b (some target) hb (Hint.of_floor hle))
        (Hint.of_floor hle)
      refine Stays.ite (fun _ => ?_) fun _ => ?_
      · exact stays_trailingMultires (multi_compileMultires e b hb) hvalue hle
      · refine Stays.andThen hvalue fun reg => ?_
        exact Stays.andThen (stays_moveInto hle) fun _ =>
          stays_compileWindow rest b base offset (i + 1) hb hbase

theorem stays_compileEntries :
    ∀ (es : List TableEntry) (b : Region) (table base count pending : ℕ), b.LocalsBelow →
      b.Allows (Writes.register table) → b.floor ≤ base → base ≤ noReg →
        b.Stays (compileEntries es table base count pending) fun _ _ => True
  | [], b, table, base, count, pending, _, htable, hbase, htop => by
      rw [compileEntries]
      exact stays_flushArray _ _ htable hbase htop
  | TableEntry.array value :: rest, b, table, base, count, pending, hb, htable, hbase, htop => by
      rw [compileEntries]
      refine Stays.andThen (stays_arrayItem _ _ _ (multi_compileMultires value b hb)
        (fun hint hh => stays_toReg (stays_compileExpr value b hint hb hh) hh) htable hbase htop)
        fun next => ?_
      exact stays_compileEntries rest b table base next.1 next.2 hb htable hbase htop
  | TableEntry.map field value :: rest, b, table, base, count, pending, hb, htable,
      hbase, htop => by
      rw [compileEntries]
      refine Stays.andThen (stays_mapItem field _ _
        (stays_toReg (stays_compileExpr value b none hb Hint.none) Hint.none) htable hbase htop)
        fun _ => ?_
      exact stays_compileEntries rest b table base count 0 hb htable hbase htop
  | TableEntry.generic index value :: rest, b, table, base, count, pending, hb, htable,
      hbase, htop => by
      rw [compileEntries]
      refine Stays.andThen (stays_genericItem _ _
        (stays_toReg (stays_compileExpr index b none hb Hint.none) Hint.none)
        (stays_toReg (stays_compileExpr value b none hb Hint.none) Hint.none) htable hbase htop)
        fun _ => ?_
      exact stays_compileEntries rest b table base count 0 hb htable hbase htop

end

end Region

end Tcvm
