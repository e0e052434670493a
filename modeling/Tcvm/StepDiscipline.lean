/-
Step disciplines.

Most steps of a compilation concern the code of the function only.  They put instructions behind the
code, change controls and jumps in place, cut a control off together with its jump, or change what
is beside the code.  A discipline is a relation between the contexts before and after that survives
each of these; every helper of the compiler that is built out of them then obeys it.

* `Instruction.access` — the inline-cache slot and the key of an access;
* `Replaces` — what may be put in the place of an instruction;
* `Discipline` — a relation that survives the elementary steps;
* `Discipline.Obeys.bind`, `Discipline.obeys_emit`, `Discipline.obeys_control` — composition;
* `Discipline.obeys_patchToHere`, `Discipline.obeys_dischargeToRegMut`, … — the helpers;
* `uncutSteps` — the discipline of the steps that cut nothing off.
-/

import Tcvm.CompilerSteps

namespace Tcvm

open CompileM StateExcept

variable {α β : Type}

/-! ### Elementary changes -/

/-- The inline-cache slot and the key of an access. -/
def Instruction.access : Instruction → Option (ℕ × ℕ)
  | gettabup _ _ icIdx key => some (icIdx, key)
  | settabup _ _ icIdx key => some (icIdx, key)
  | getfield _ _ icIdx keyIdx => some (icIdx, keyIdx)
  | setfield _ _ icIdx keyIdx => some (icIdx, keyIdx)
  | _ => none

/-- The second instruction may be put in the place of the first one: no access is touched, a control
is only put in the place of a control, and a jump remains a jump. -/
structure Replaces (i j : Instruction) : Prop where
  before : i.access = none
  after : j.access = none
  control : j.isControl = true → i.isControl = true
  jump : ∀ o, i = Instruction.jmp o → ∃ o', j = Instruction.jmp o'

theorem replaces_jmp (o o' : ℤ) : Replaces (Instruction.jmp o) (Instruction.jmp o') :=
  ⟨rfl, rfl, id, fun _ _ => ⟨o', rfl⟩⟩

theorem replaces_test (src : ℕ) (b : Bool) (dst src' : ℕ) (b' : Bool) :
    Replaces (Instruction.testset dst src' b') (Instruction.test src b) :=
  ⟨rfl, rfl, fun _ => rfl, fun o h => by cases h⟩

theorem replaces_testset (dst src : ℕ) (b : Bool) (dst' src' : ℕ) (b' : Bool) :
    Replaces (Instruction.testset dst' src' b') (Instruction.testset dst src b) :=
  ⟨rfl, rfl, fun _ => rfl, fun o h => by cases h⟩

/-- A control, whatever it becomes. -/
theorem replaces_control {i j : Instruction} (hi : i.isControl = true)
    (hj : j.access = none) : Replaces i j := by
  cases i
  case eq | lt | le | test | testset => exact ⟨rfl, hj, fun _ => rfl, fun o h => by cases h⟩
  all_goals cases hi

theorem Instruction.access_downgrade {i : Instruction} (hi : i.isControl = true) :
    i.downgrade.access = none := by
  cases i
  case testset dst src inverted =>
    rw [Instruction.downgrade]
    split <;> rfl
  case eq | lt | le | test => rfl
  all_goals cases hi

theorem Instruction.access_flip {i j : Instruction} (h : i.flip = some j) :
    i.isControl = true ∧ j.access = none := by
  cases i
  case eq | lt | le | test | testset =>
    obtain rfl := Option.some.inj h
    exact ⟨rfl, rfl⟩
  all_goals cases h

theorem Instruction.isControl_of_isElidable {i : Instruction} (h : i.isElidable = true) :
    i.isControl = true := by
  cases i
  case test | testset => rfl
  all_goals cases h

/-- The constants have only grown, and are not more than an operand can name. -/
structure GrowConstants (K K' : List Value) : Prop where
  grown : K <+: K'
  bounded : K.length < 2 ^ 16 → K'.length < 2 ^ 16

theorem GrowConstants.refl (K : List Value) : GrowConstants K K := ⟨List.prefix_refl K, id⟩

theorem GrowConstants.trans {K K' K'' : List Value} (h : GrowConstants K K')
    (h' : GrowConstants K' K'') : GrowConstants K K'' :=
  ⟨h.grown.trans h'.grown, fun hb => h'.bounded (h.bounded hb)⟩

/-- A constant stays where it is. -/
theorem GrowConstants.getElem? {K K' : List Value} (h : GrowConstants K K') {i : ℕ} {v : Value}
    (hi : K[i]? = some v) : K'[i]? = some v := by
  obtain ⟨rest, rfl⟩ := h.grown
  obtain ⟨hlt, -⟩ := List.getElem?_eq_some_iff.1 hi
  exact (List.getElem?_append_left hlt).trans hi

/-- The log has grown, and the code has not been cut. -/
def Ctx.Uncut (c c' : Ctx) : Prop :=
  ∃ log, c'.events = c.events ++ log ∧ ∀ len, Event.elided len ∉ log

namespace Ctx.Uncut

variable {c c' c'' : Ctx}

theorem of_same (h : c'.events = c.events) : c.Uncut c' :=
  ⟨[], h.trans (List.append_nil _).symm, fun _ => List.not_mem_nil⟩

theorem trans (h : c.Uncut c') (h' : c'.Uncut c'') : c.Uncut c'' := by
  obtain ⟨log, hlog, hno⟩ := h
  obtain ⟨log', hlog', hno'⟩ := h'
  refine ⟨log ++ log', by rw [hlog', hlog, List.append_assoc], fun len hm => ?_⟩
  rcases List.mem_append.1 hm with hm | hm
  · exact hno len hm
  · exact hno' len hm

theorem grown (h : c.Uncut c') : c.events <+: c'.events := by
  obtain ⟨log, hlog, -⟩ := h
  exact ⟨log, hlog.symm⟩

end Ctx.Uncut

/-- The names are the same, and the log and the constants have only grown. -/
structure Ctx.Aside (c c' : Ctx) : Prop where
  scope : c'.scope = c.scope
  scopeGlobals : c'.scopeGlobals = c.scopeGlobals
  globals : c'.globals = c.globals
  upvalues : c'.upvalues = c.upvalues
  capture : c'.capture = c.capture
  events : c.Uncut c'
  constants : GrowConstants c.chunk.constants c'.chunk.constants

theorem Ctx.Aside.chunk (c : Ctx) {ch : Chunk} (h : GrowConstants c.chunk.constants ch.constants) :
    c.Aside { c with chunk := ch } :=
  ⟨rfl, rfl, rfl, rfl, rfl, Ctx.Uncut.of_same rfl, h⟩

/-- A step beside the code and its constants. -/
theorem Ctx.Aside.same (c : Ctx) {c' : Ctx} (hs : c'.scope = c.scope)
    (hg : c'.scopeGlobals = c.scopeGlobals) (hg' : c'.globals = c.globals)
    (hu : c'.upvalues = c.upvalues) (hc : c'.capture = c.capture) (he : c.Uncut c')
    (hk : c'.chunk.constants = c.chunk.constants) : c.Aside c' :=
  ⟨hs, hg, hg', hu, hc, he, by rw [hk]; exact GrowConstants.refl _⟩

/-- A relation that survives the elementary steps. -/
structure Discipline where
  R : Ctx → Ctx → Prop
  /-- May code be cut off? -/
  cuts : Prop
  refl : ∀ c, R c c
  trans : ∀ {c c' c''}, R c c' → R c' c'' → R c c''
  /-- Something beside the code has changed. -/
  aside : ∀ {c c'}, c.Aside c' → c'.chunk.tape = c.chunk.tape →
    c'.chunk.nextIcIdx = c.chunk.nextIcIdx → c'.chunk.prototypes = c.chunk.prototypes → R c c'
  /-- An instruction behind the code. -/
  appended : ∀ {c i}, i.access = none → i.isControl = false →
    R c { c with chunk := { c.chunk with tape := c.chunk.tape ++ [i] } }
  /-- A control with its jump behind the code. -/
  controlled : ∀ {c i}, i.isControl = true →
    R c { c with chunk := { c.chunk with tape := c.chunk.tape ++ [i, Instruction.jmp 0] } }
  /-- An instruction in place. -/
  replaced : ∀ {c k i j}, c.chunk.tape[k]? = some i → Replaces i j →
    R c { c with chunk := { c.chunk with tape := c.chunk.tape.set k j } }
  /-- The last control and the jump behind it are cut off. -/
  cut : cuts → ∀ {c k i}, c.chunk.tape[k]? = some i → i.isControl = true →
    k + 2 = c.chunk.tape.length →
    R c { c with
      chunk := { c.chunk with tape := c.chunk.tape.take k }
      events := c.events ++ [Event.elided k] }

namespace Discipline

variable {D : Discipline} {m : CompileM α} {f : α → CompileM β} {c : Ctx}

/-- Every run of the step that returns is related. -/
def Obeys (D : Discipline) (m : CompileM α) : Prop := Moves D.R m

/-- The same for the runs from one context. -/
def ObeysAt (D : Discipline) (c : Ctx) (m : CompileM α) : Prop :=
  ∀ a c', m c = Except.ok (a, c') → D.R c c'

theorem Obeys.at (h : D.Obeys m) (c : Ctx) : D.ObeysAt c m := h c

theorem Obeys.pure (a : α) : D.Obeys (Pure.pure a : CompileM α) := Moves.pure D.refl a

theorem Obeys.bind (hm : D.Obeys m) (hf : ∀ a, D.Obeys (f a)) : D.Obeys (m >>= f) :=
  Moves.bind (fun _ _ _ => D.trans) hm hf

/-- The result is all that changes. -/
theorem Obeys.map {g : α → β} (hm : D.Obeys m) : D.Obeys (m >>= fun a => Pure.pure (g a)) :=
  Obeys.bind hm fun _ => Obeys.pure _

theorem Obeys.throw (e : Fault) : D.Obeys (MonadExcept.throw e : CompileM α) := Moves.throw e

theorem Obeys.ite {p : Prop} [Decidable p] {n : CompileM α} (hm : D.Obeys m) (hn : D.Obeys n) :
    D.Obeys (if p then m else n) := by
  split
  · exact hm
  · exact hn

theorem Obeys.forM {γ : Type} {list : List γ} {g : γ → CompileM Unit}
    (h : ∀ x ∈ list, D.Obeys (g x)) : D.Obeys (list.forM g) := by
  induction list with
  | nil => exact Obeys.pure _
  | cons x rest ih =>
      refine Obeys.bind (h x List.mem_cons_self) fun _ => ih fun y hy => ?_
      exact h y (List.mem_cons_of_mem _ hy)

theorem ObeysAt.bind (hm : D.ObeysAt c m) (hf : ∀ a, D.Obeys (f a)) : D.ObeysAt c (m >>= f) := by
  intro b c'' h
  obtain ⟨a, c', h₁, h₂⟩ := bind_eq_ok.1 h
  exact D.trans (hm a c' h₁) (hf a c' b c'' h₂)

/-! ### Elementary steps -/

theorem obeys_getChunk : D.Obeys getChunk := by
  intro c x c' h
  rw [← (getChunk_eq_ok.1 h).2]
  exact D.refl c

theorem obeys_get : D.Obeys (get : CompileM Ctx) := by
  intro c x c' h
  rw [← (get_eq_ok.1 h).2]
  exact D.refl c

theorem obeys_err (e : CompileError) : D.Obeys (err e : CompileM α) := Obeys.throw _

theorem obeys_ensure (b : Bool) : D.Obeys (ensure b) := Obeys.ite (Obeys.pure _) (Obeys.throw _)

theorem obeys_unwrap (o : Option α) : D.Obeys (unwrap o) := by
  cases o with
  | none => exact Obeys.throw _
  | some a => exact Obeys.pure a

/-- What is unwrapped is known behind it. -/
theorem obeys_unwrap_of {o : Option α} (h : ∀ a, o = some a → D.Obeys (f a)) :
    D.Obeys (unwrap o >>= f) := by
  intro c b c' hm
  obtain ⟨a, c₁, h₁, h₂⟩ := bind_eq_ok.1 hm
  obtain ⟨ho, rfl⟩ := unwrap_eq_ok.1 h₁
  exact h a ho c b c' h₂

theorem obeys_addU8 (a b : ℕ) : D.Obeys (addU8 a b) := Obeys.ite (Obeys.pure _) (Obeys.throw _)

theorem obeys_modify {f : Ctx → Ctx} (ha : ∀ c : Ctx, c.Aside (f c))
    (hc : ∀ c, (f c).chunk = c.chunk) : D.Obeys (modify f : CompileM Unit) := by
  intro c u c' h
  obtain rfl := modify_eq_ok.1 h
  exact D.aside (ha c) (by rw [hc]) (by rw [hc]) (by rw [hc])

/-- A change beside the code. -/
theorem obeys_modifyChunk {f : Chunk → Chunk}
    (hf : ∀ ch, (f ch).tape = ch.tape ∧ (f ch).nextIcIdx = ch.nextIcIdx ∧
      (f ch).prototypes = ch.prototypes ∧ (f ch).constants = ch.constants) :
    D.Obeys (modifyChunk f) := by
  intro c u c' h
  obtain rfl := modifyChunk_eq_ok.1 h
  obtain ⟨ht, hn, hp, hk⟩ := hf c.chunk
  refine D.aside (Ctx.Aside.chunk c ?_) ht hn hp
  rw [hk]
  exact GrowConstants.refl _

theorem obeys_record {e : Event} (he : ∀ len, Event.elided len ≠ e) : D.Obeys (record e) := by
  intro c u c' h
  obtain rfl := record_eq_ok.1 h
  have hevents : c.Uncut { c with events := c.events ++ [e] } :=
    ⟨[e], rfl, fun len hm => he len (List.mem_singleton.1 hm)⟩
  exact D.aside (Ctx.Aside.same c rfl rfl rfl rfl rfl hevents rfl) rfl rfl rfl

theorem obeys_tapeAt (idx : ℕ) : D.Obeys (tapeAt idx) :=
  Obeys.bind obeys_getChunk fun _ => obeys_unwrap _

/-- A step that looks at an instruction. -/
theorem obeys_read {idx : ℕ} {f : Instruction → CompileM β}
    (h : ∀ (c : Ctx) i, c.chunk.tape[idx]? = some i → D.ObeysAt c (f i)) :
    D.Obeys (tapeAt idx >>= f) := by
  intro c b c'' hm
  obtain ⟨i, c', h₁, h₂⟩ := bind_eq_ok.1 hm
  obtain ⟨hi, rfl⟩ := tapeAt_eq_ok.1 h₁
  exact h c i hi b c'' h₂

theorem obeysAt_setTape {idx : ℕ} {i j : Instruction} (hi : c.chunk.tape[idx]? = some i)
    (hr : Replaces i j) : D.ObeysAt c (setTape idx j) := by
  intro u c' h
  obtain rfl := setTape_eq_ok.1 h
  exact D.replaced hi hr

theorem obeys_nextOffset : D.Obeys nextOffset := Obeys.map obeys_getChunk

theorem obeys_emit {i : Instruction} (ha : i.access = none) (hc : i.isControl = false) :
    D.Obeys (emit i) := by
  intro c u c' h
  obtain rfl := emit_eq_ok.1 h
  exact D.appended ha hc

theorem obeys_emitUnfilledJmp : D.Obeys emitUnfilledJmp :=
  Obeys.bind obeys_nextOffset fun _ => Obeys.map (obeys_emit rfl rfl)

/-- A control and the jump behind it. -/
theorem obeys_control {i : Instruction} (hi : i.isControl = true) {f : ℕ → CompileM β}
    (hf : ∀ jmp, D.Obeys (f jmp)) :
    D.Obeys (do
      emit i
      let jmp ← emitUnfilledJmp
      f jmp) := by
  intro c b c' h
  obtain ⟨u₁, c₁, h₁, h⟩ := bind_eq_ok.1 h
  obtain ⟨jmp, c₂, h₂, h⟩ := bind_eq_ok.1 h
  obtain ⟨n, c₃, h₃, h₂⟩ := bind_eq_ok.1 h₂
  obtain ⟨u₂, c₄, h₄, h₂⟩ := bind_eq_ok.1 h₂
  obtain rfl := emit_eq_ok.1 h₁
  obtain ⟨-, rfl⟩ := nextOffset_eq_ok.1 h₃
  obtain rfl := emit_eq_ok.1 h₄
  obtain ⟨-, rfl⟩ := pure_eq_ok.1 h₂
  refine D.trans (?_ : D.R c _) (hf jmp _ b c' h)
  have hcontrol := @D.controlled c i hi
  rw [List.append_assoc]
  exact hcontrol

/-! ### Registers and constants -/

theorem obeys_setFreereg (n : ℕ) : D.Obeys (setFreereg n) :=
  obeys_modifyChunk fun _ => ⟨rfl, rfl, rfl, rfl⟩

theorem obeys_setFreeregPeak (n : ℕ) : D.Obeys (setFreeregPeak n) :=
  obeys_modifyChunk fun _ => ⟨rfl, rfl, rfl, rfl⟩

theorem obeys_reserveReg : D.Obeys reserveReg := by
  refine Obeys.bind obeys_getChunk fun c => Obeys.bind (obeys_ensure _) fun _ => ?_
  exact Obeys.ite (obeys_err _) (Obeys.map (obeys_setFreeregPeak _))

theorem obeys_reserveRegs (n : ℕ) : D.Obeys (reserveRegs n) := by
  refine Obeys.bind obeys_getChunk fun _ => Obeys.bind (obeys_ensure _) fun _ => ?_
  exact Obeys.ite (Obeys.map (obeys_setFreeregPeak _)) (obeys_err _)

theorem obeys_dstOrAlloc (dst : Option ℕ) : D.Obeys (dstOrAlloc dst) := by
  cases dst with
  | none => exact obeys_reserveReg
  | some reg =>
      refine Obeys.bind obeys_getChunk fun c => Obeys.ite ?_ (Obeys.pure _)
      exact Obeys.bind (obeys_addU8 _ _) fun _ => Obeys.map (obeys_setFreeregPeak _)

theorem obeys_freeReg (reg : ℕ) : D.Obeys (freeReg reg) := by
  refine Obeys.bind obeys_getChunk fun c => Obeys.ite ?_ (Obeys.pure _)
  exact Obeys.bind (obeys_addU8 _ _) fun _ =>
    Obeys.bind (obeys_ensure _) fun _ => obeys_setFreereg _

theorem obeys_freeRegs (r₁ r₂ : ℕ) : D.Obeys (freeRegs r₁ r₂) :=
  Obeys.ite (Obeys.bind (obeys_freeReg _) fun _ => obeys_freeReg _)
    (Obeys.bind (obeys_freeReg _) fun _ => obeys_freeReg _)

theorem obeys_allocUpTo (n : ℕ) : D.Obeys (allocUpTo n) :=
  Obeys.bind obeys_getChunk fun _ => Obeys.forM fun _ _ =>
    Obeys.map obeys_reserveReg

theorem obeys_adjustLocals (n : ℕ) : D.Obeys (adjustLocals n) :=
  Obeys.bind obeys_getChunk fun _ => Obeys.bind (obeys_ensure _) fun _ =>
    Obeys.bind (obeys_addU8 _ _) fun _ =>
      obeys_modifyChunk fun _ => ⟨rfl, rfl, rfl, rfl⟩

/-- **A constant** is where the index says, as long as the constants are not too many. -/
theorem allocConstant_grows {v : Value} {idx : ℕ} {c c' : Ctx}
    (h : allocConstant v c = Except.ok (idx, c')) :
    ∃ K, c' = { c with chunk := { c.chunk with constants := K } } ∧
      GrowConstants c.chunk.constants K ∧
      (c.chunk.constants.length < 2 ^ 16 → K[idx]? = some v) := by
  obtain ⟨x, c₁, h₁, h⟩ := bind_eq_ok.1 h
  obtain ⟨rfl, rfl⟩ := getChunk_eq_ok.1 h₁
  cases hfind : c.chunk.constants.findIdx? (· = v) with
  | some i =>
      rw [hfind] at h
      obtain ⟨rfl, rfl⟩ := pure_eq_ok.1 h
      refine ⟨_, rfl, GrowConstants.refl _, fun hb => ?_⟩
      obtain ⟨hlt, hv, -⟩ := List.findIdx?_eq_some_iff_getElem.1 hfind
      have hmod : i % 2 ^ 16 = i := Nat.mod_eq_of_lt (Nat.lt_trans hlt hb)
      rw [hmod, List.getElem?_eq_getElem hlt, of_decide_eq_true hv]
  | none =>
      rw [hfind] at h
      dsimp only at h
      split at h
      · exact absurd h (by simp [err_eq_ok])
      · rename_i hroom
        obtain ⟨u, c₂, h₂, h⟩ := bind_eq_ok.1 h
        obtain rfl := modifyChunk_eq_ok.1 h₂
        obtain ⟨rfl, rfl⟩ := pure_eq_ok.1 h
        refine ⟨_, rfl, ⟨List.prefix_append _ _, fun _ => ?_⟩, fun hb => ?_⟩
        · rw [List.length_append, List.length_singleton]
          omega
        · rw [Nat.mod_eq_of_lt hb, List.getElem?_concat_length]

theorem obeys_allocConstant (v : Value) : D.Obeys (allocConstant v) := by
  intro c idx c' h
  obtain ⟨K, rfl, hk, -⟩ := allocConstant_grows h
  exact D.aside (Ctx.Aside.chunk c hk) rfl rfl rfl

/-! ### Labels -/

theorem obeys_newLabel : D.Obeys newLabel :=
  Obeys.bind obeys_getChunk fun _ => Obeys.map (obeys_modifyChunk fun _ => ⟨rfl, rfl, rfl, rfl⟩)

theorem obeys_setLabel (label offset : ℕ) : D.Obeys (setLabel label offset) :=
  Obeys.bind obeys_getChunk fun _ => Obeys.bind (obeys_ensure _) fun _ =>
    obeys_modifyChunk fun _ => ⟨rfl, rfl, rfl, rfl⟩

theorem obeys_emitJumpInstr (label : ℕ) {i : Instruction} (ha : i.access = none)
    (hc : i.isControl = false) : D.Obeys (emitJumpInstr label i) :=
  Obeys.bind obeys_nextOffset fun _ =>
    Obeys.bind (obeys_modifyChunk fun _ => ⟨rfl, rfl, rfl, rfl⟩) fun _ =>
      obeys_emit ha hc

theorem obeys_emitJump (label : ℕ) : D.Obeys (emitJump label) := obeys_emitJumpInstr _ rfl rfl

/-- A jump to the label behind the loop, if there is one. -/
theorem obeys_compileBreak : D.Obeys compileBreak := by
  refine Obeys.bind obeys_get fun c => ?_
  cases c.controlEndLabel with
  | nil => exact obeys_err _
  | cons label rest => exact obeys_emitJump _

theorem obeys_compileLabel (name : Name) : D.Obeys (compileLabel name) := by
  refine Obeys.bind obeys_get fun c => ?_
  cases c.gotoLabels.lookup name with
  | some label => exact Obeys.bind (obeys_setLabel _ _) fun _ => obeys_record fun _ => by simp
  | none =>
      refine Obeys.bind obeys_newLabel fun _ => Obeys.bind (obeys_setLabel _ _) fun _ => ?_
      refine Obeys.bind (obeys_modify (fun c => ?_) fun _ => rfl) fun _ =>
        obeys_record fun _ => by simp
      exact Ctx.Aside.same c rfl rfl rfl rfl rfl (Ctx.Uncut.of_same rfl) rfl

theorem obeys_compileGoto (name : Name) : D.Obeys (compileGoto name) := by
  refine Obeys.bind obeys_get fun c => ?_
  cases c.gotoLabels.lookup name with
  | some label => exact Obeys.bind (obeys_emitJump _) fun _ => obeys_record fun _ => by simp
  | none =>
      refine Obeys.bind obeys_newLabel fun _ =>
        Obeys.bind (obeys_modify (fun c => ?_) fun _ => rfl) fun _ =>
          Obeys.bind (obeys_emitJump _) fun _ => obeys_record fun _ => by simp
      exact Ctx.Aside.same c rfl rfl rfl rfl rfl (Ctx.Uncut.of_same rfl) rfl

theorem obeys_markClose (register : ℕ) : D.Obeys (markClose register) := by
  intro c u c' h
  obtain ⟨x, c₁, h₁, h⟩ := bind_eq_ok.1 h
  obtain ⟨rfl, rfl⟩ := get_eq_ok.1 h₁
  cases hclose : c.scopeClose with
  | nil =>
      simp only [hclose] at h
      exact absurd h (by simp [ice, err_eq_ok])
  | cons close rest =>
      simp only [hclose] at h
      rw [← set_eq_ok.1 h]
      exact D.aside (Ctx.Aside.same c rfl rfl rfl rfl rfl (Ctx.Uncut.of_same rfl) rfl) rfl rfl rfl

/-! ### Patching -/

theorem obeys_assertCtrlPredecessor (j : ℕ) : D.Obeys (assertCtrlPredecessor j) :=
  Obeys.ite (Obeys.pure _) (Obeys.bind (obeys_tapeAt _) fun _ => obeys_ensure _)

/-- The instruction in front of a jump has been checked to be a control. -/
theorem obeys_checkedControl {j : ℕ} (hj : j ≠ 0) {f : Instruction → CompileM β}
    (h : ∀ (c : Ctx) i, c.chunk.tape[j - 1]? = some i → i.isControl = true → D.ObeysAt c (f i)) :
    D.Obeys (assertCtrlPredecessor j >>= fun _ => tapeAt (j - 1) >>= f) := by
  intro c b c' hm
  obtain ⟨u, c₁, h₁, hm⟩ := bind_eq_ok.1 hm
  obtain ⟨i, c₂, h₂, hm⟩ := bind_eq_ok.1 hm
  rw [assertCtrlPredecessor, if_neg hj] at h₁
  obtain ⟨i', c₃, h₃, h₁⟩ := bind_eq_ok.1 h₁
  obtain ⟨hi', rfl⟩ := tapeAt_eq_ok.1 h₃
  obtain ⟨hcontrol, rfl⟩ := ensure_eq_ok.1 h₁
  obtain ⟨hi, rfl⟩ := tapeAt_eq_ok.1 h₂
  obtain rfl := Option.some.inj (hi'.symm.trans hi)
  exact h c i' hi hcontrol b c' hm

theorem obeys_downgradeTestsets (list : List ℕ) : D.Obeys (downgradeTestsets list) := by
  induction list with
  | nil => exact Obeys.pure _
  | cons j rest ih =>
      unfold downgradeTestsets
      by_cases hj : j = 0
      · rw [if_pos hj]
        exact ih
      · rw [if_neg hj]
        refine obeys_checkedControl hj fun c i hi hcontrol => ObeysAt.bind ?_ fun _ => ih
        exact obeysAt_setTape hi (replaces_control hcontrol (Instruction.access_downgrade hcontrol))

theorem obeys_patchJmp (idx target : ℕ) : D.Obeys (patchJmp idx target) := by
  refine obeys_read fun c i hi => ?_
  cases i
  case jmp o =>
    refine ObeysAt.bind (obeysAt_setTape hi (replaces_jmp _ _)) fun _ => ?_
    exact obeys_record fun _ => by simp
  all_goals exact (Obeys.throw _).at c

theorem obeys_patchTo (list : List ℕ) (target : ℕ) : D.Obeys (patchTo list target) :=
  Obeys.bind (obeys_downgradeTestsets _) fun _ =>
    Obeys.bind (Obeys.forM fun _ _ => obeys_patchJmp _ _) fun _ =>
      obeys_modifyChunk fun _ => ⟨rfl, rfl, rfl, rfl⟩

theorem obeys_elideTail (hcuts : D.cuts) (fuel : ℕ) (list : List ℕ) :
    D.Obeys (elideTail fuel list) := by
  induction fuel generalizing list with
  | zero => exact Obeys.pure _
  | succ fuel ih =>
      intro c rest c' h
      obtain ⟨stop, c₁, h₁, h⟩ := bind_eq_ok.1 h
      obtain ⟨rfl, rfl⟩ := nextOffset_eq_ok.1 h₁
      cases hfind : list.find? fun j => j + 1 = c.chunk.tape.length with
      | none =>
          simp only [hfind] at h
          exact Obeys.pure _ c _ c' h
      | some j =>
          have hstop : j + 1 = c.chunk.tape.length := by
            simpa using List.find?_some hfind
          simp only [hfind] at h
          by_cases hj : j = 0
          · rw [if_pos hj] at h
            exact Obeys.pure _ c _ c' h
          · rw [if_neg hj] at h
            obtain ⟨ctrl, c₂, h₂, h⟩ := bind_eq_ok.1 h
            obtain ⟨hctrl, rfl⟩ := tapeAt_eq_ok.1 h₂
            by_cases helide : ctrl.isElidable = true
            · rw [if_pos helide] at h
              obtain ⟨u, c₃, h₃, h⟩ := bind_eq_ok.1 h
              obtain rfl := modifyChunk_eq_ok.1 h₃
              have hcontrol := Instruction.isControl_of_isElidable helide
              obtain ⟨u, c₄, h₄, h⟩ := bind_eq_ok.1 h
              obtain rfl := record_eq_ok.1 h₄
              exact D.trans (D.cut hcuts hctrl hcontrol (by omega)) (ih _ _ rest c' h)
            · rw [if_neg helide] at h
              exact Obeys.pure _ c _ c' h

theorem obeys_patchToHere (hcuts : D.cuts) (list : List ℕ) : D.Obeys (patchToHere list) :=
  Obeys.bind (obeys_elideTail hcuts _ _) fun _ =>
    Obeys.bind obeys_nextOffset fun _ => obeys_patchTo _ _

theorem obeys_needValue (list : List ℕ) : D.Obeys (needValue list) := by
  induction list with
  | nil => exact Obeys.pure _
  | cons j rest ih =>
      refine Obeys.ite (Obeys.pure _) (Obeys.bind (obeys_assertCtrlPredecessor _) fun _ => ?_)
      refine Obeys.bind (obeys_tapeAt _) fun i => ?_
      cases i with
      | testset dst src inverted => exact Obeys.ite ih (Obeys.pure _)
      | _ => exact Obeys.pure _

theorem obeys_exitTarget (vtarget reg dtarget j : ℕ) :
    D.Obeys (exitTarget vtarget reg dtarget j) := by
  refine Obeys.ite (Obeys.pure _) (Obeys.bind (obeys_assertCtrlPredecessor _) fun _ => ?_)
  refine obeys_read fun c i hi => ?_
  cases i
  case testset dst src inverted =>
    dsimp only
    split
    · split
      · exact ObeysAt.bind (obeysAt_setTape hi (replaces_test _ _ _ _ _)) fun _ => Obeys.pure _
      · exact ObeysAt.bind (obeysAt_setTape hi (replaces_testset _ _ _ _ _ _)) fun _ => Obeys.pure _
    · exact (Obeys.pure _).at c
  all_goals exact (Obeys.pure _).at c

theorem obeys_retarget (idx target : ℕ) : D.Obeys (retarget idx target) := by
  refine obeys_read fun c i hi => ?_
  cases i
  case jmp o =>
    refine ObeysAt.bind (obeysAt_setTape hi (replaces_jmp _ _)) fun _ => ?_
    exact obeys_record fun _ => by simp
  all_goals exact (Obeys.pure _).at c

theorem obeys_patchListAux (vtarget reg dtarget : ℕ) (list : List ℕ) :
    D.Obeys (patchListAux vtarget reg dtarget list) := by
  induction list with
  | nil => exact Obeys.pure _
  | cons j rest ih =>
      exact Obeys.bind (obeys_exitTarget _ _ _ _) fun _ =>
        Obeys.bind (obeys_retarget _ _) fun _ => ih

theorem obeys_emitTestJump (src : ℕ) (b : Bool) : D.Obeys (emitTestJump src b) := by
  rw [emitTestJump, ← bind_pure emitUnfilledJmp]
  exact obeys_control rfl fun _ => Obeys.pure _

theorem obeys_flipControlPolarity (j : ℕ) : D.Obeys (flipControlPolarity j) := by
  refine Obeys.ite (Obeys.pure _) (obeys_read fun c ctrl hctrl => ?_)
  cases hflip : ctrl.flip with
  | none => exact (Obeys.throw _).at c
  | some flipped =>
      obtain ⟨hcontrol, haccess⟩ := Instruction.access_flip hflip
      exact obeysAt_setTape hctrl (replaces_control hcontrol haccess)

theorem obeys_codenot (operand : ExprDesc) (kind : ExprKind) : D.Obeys (codenot operand kind) :=
  Obeys.bind (obeys_downgradeTestsets _) fun _ => Obeys.map (obeys_downgradeTestsets _)

theorem obeys_negateCond (expr : ExprDesc) : D.Obeys (negateCond expr) :=
  Obeys.bind (obeys_ensure _) fun _ => Obeys.map (Obeys.forM fun _ _ => obeys_flipControlPolarity _)

/-! ### Discharging -/

theorem obeys_dischargeDst (kind : ExprKind) (hint : Option ℕ) :
    D.Obeys (dischargeDst kind hint) := by
  cases kind with
  | reg reg =>
      refine Obeys.bind obeys_getChunk fun c => ?_
      cases hint with
      | some h =>
          refine Obeys.ite (Obeys.bind (obeys_dstOrAlloc _) fun _ => ?_) (Obeys.pure _)
          exact Obeys.map (obeys_emit rfl rfl)
      | none =>
          refine Obeys.ite (Obeys.bind obeys_reserveReg fun _ => ?_) (Obeys.pure _)
          exact Obeys.map (obeys_emit rfl rfl)
  | jump p => exact obeys_dstOrAlloc _
  | _ => exact Obeys.throw _

theorem obeys_dischargeJumps (expr : ExprDesc) (isJump : Bool) (dst : ℕ) :
    D.Obeys (dischargeJumps expr isJump dst) := by
  have htail : D.Obeys (needTail expr) := Obeys.bind (obeys_needValue _) fun _ =>
    Obeys.ite (Obeys.pure _) (obeys_needValue _)
  have hskip : ∀ b, D.Obeys (emitSkip b) := fun b =>
    Obeys.ite (Obeys.map obeys_emitUnfilledJmp) (Obeys.pure _)
  have hfixup : ∀ b, D.Obeys (emitFixup b dst) := fun b => by
    refine Obeys.ite (Obeys.bind obeys_nextOffset fun _ => ?_) (Obeys.pure _)
    refine Obeys.bind (obeys_emit rfl rfl) fun _ => Obeys.bind obeys_nextOffset fun _ => ?_
    exact Obeys.bind (obeys_allocConstant _) fun _ => Obeys.map (obeys_emit rfl rfl)
  have hclose : ∀ o, D.Obeys (closeSkip o) := fun o => by
    cases o with
    | some idx => exact Obeys.bind obeys_nextOffset fun _ => obeys_retarget _ _
    | none => exact Obeys.pure _
  refine Obeys.bind htail fun _ => Obeys.bind (hskip _) fun _ => Obeys.bind (hfixup _) fun _ => ?_
  refine Obeys.bind obeys_nextOffset fun _ => Obeys.bind (obeys_patchListAux _ _ _ _) fun _ => ?_
  exact Obeys.bind (obeys_patchListAux _ _ _ _) fun _ => hclose _

theorem obeys_materializeConst (expr : ExprDesc) (hint : Option ℕ) :
    D.Obeys (materializeConst expr hint) := by
  unfold materializeConst
  cases constKindToValue expr.kind with
  | some v =>
      refine Obeys.bind (obeys_allocConstant _) fun _ => Obeys.bind (obeys_dstOrAlloc _) fun _ => ?_
      exact Obeys.map (obeys_emit rfl rfl)
  | none => exact Obeys.pure _

theorem obeys_dischargeSettled (e : ExprDesc) (hint : Option ℕ) :
    D.Obeys (dischargeSettled e hint) := by
  have hrest : ∀ kind : ExprKind, D.Obeys (do
      let dst ← dischargeDst kind hint
      if e.absorbHead.trueList.isEmpty && e.absorbHead.falseList.isEmpty then
        return ({ e.absorbHead with kind := ExprKind.reg dst }, dst)
      else
        dischargeJumps e.absorbHead kind.isJump dst
        return (ExprDesc.fromReg dst, dst)) := fun kind => by
    refine Obeys.bind (obeys_dischargeDst _ _) fun _ => Obeys.ite (Obeys.pure _) ?_
    exact Obeys.map (obeys_dischargeJumps _ _ _)
  unfold dischargeSettled
  split
  · exact Obeys.pure _
  · exact hrest _

theorem obeys_dischargeToRegMut (expr : ExprDesc) (hint : Option ℕ) :
    D.Obeys (dischargeToRegMut expr hint) :=
  Obeys.bind (obeys_materializeConst _ _) fun _ => obeys_dischargeSettled _ _

theorem obeys_branchTrue (expr : ExprDesc) : D.Obeys (branchTrue expr) := by
  unfold branchTrue
  split
  · exact Obeys.map (obeys_flipControlPolarity _)
  · exact Obeys.ite (obeys_negateCond _) (Obeys.pure _)
  · refine Obeys.bind (obeys_freeReg _) fun _ => ?_
    exact Obeys.map (obeys_emitTestJump _ _)
  · exact Obeys.throw _

theorem obeys_branchFalse (expr : ExprDesc) : D.Obeys (branchFalse expr) := by
  unfold branchFalse
  split
  · exact Obeys.pure _
  · exact Obeys.ite (obeys_negateCond _) (Obeys.pure _)
  · refine Obeys.bind (obeys_freeReg _) fun _ => ?_
    exact Obeys.map (obeys_emitTestJump _ _)
  · exact Obeys.throw _

theorem obeys_goiftrue (expr : ExprDesc) : D.Obeys (goiftrue expr) := by
  unfold goiftrue
  split
  · exact Obeys.pure _
  · exact Obeys.pure _
  · exact Obeys.bind (obeys_dischargeToRegMut _ _) fun _ => obeys_branchTrue _
  · exact Obeys.bind (obeys_dischargeToRegMut _ _) fun _ => obeys_branchTrue _
  · exact obeys_branchTrue _

theorem obeys_goiffalse (expr : ExprDesc) : D.Obeys (goiffalse expr) := by
  unfold goiffalse
  split
  · exact Obeys.pure _
  · exact Obeys.pure _
  · exact Obeys.bind (obeys_dischargeToRegMut _ _) fun _ => obeys_branchFalse _
  · exact Obeys.bind (obeys_dischargeToRegMut _ _) fun _ => obeys_branchFalse _
  · exact obeys_branchFalse _

/-! ### Operands and sources -/

theorem obeys_moveInto (reg target : ℕ) : D.Obeys (moveInto reg target) :=
  Obeys.ite (Obeys.bind (obeys_allocUpTo _) fun _ => obeys_emit rfl rfl) (Obeys.pure _)

theorem obeys_settleAt (reg expected : ℕ) : D.Obeys (settleAt reg expected) := by
  refine Obeys.bind obeys_getChunk fun _ => Obeys.ite ?_ ?_
  · refine Obeys.bind (obeys_setFreereg _) fun _ => Obeys.bind obeys_reserveReg fun _ => ?_
    exact Obeys.bind (obeys_ensure _) fun _ => obeys_emit rfl rfl
  · refine Obeys.bind (obeys_addU8 _ _) fun _ => ?_
    exact Obeys.ite (obeys_setFreereg _) (Obeys.pure _)

theorem obeys_padNil (top : ℕ) : D.Obeys (padNil top) :=
  Obeys.bind obeys_getChunk fun _ => Obeys.forM fun _ _ =>
    Obeys.bind obeys_reserveReg fun _ =>
      Obeys.bind (obeys_allocConstant _) fun _ => obeys_emit rfl rfl

theorem obeys_expandCount (n : ℕ) : D.Obeys (expandCount n) :=
  Obeys.ite (obeys_err _) (Obeys.pure _)

theorem obeys_flushArray (table base count pending : ℕ) :
    D.Obeys (flushArray table base count pending) :=
  Obeys.ite (Obeys.bind (obeys_emit rfl rfl) fun _ => obeys_setFreereg _) (Obeys.pure _)

theorem obeys_assignHints (scope : List Scope) (lvalues : List Lvalue) (values : List Expr) :
    D.Obeys (assignHints scope lvalues values) := by
  induction values generalizing lvalues with
  | nil => exact Obeys.pure _
  | cons e rest ih =>
      exact Obeys.bind (obeys_unwrap _) fun _ => Obeys.map (ih _)

theorem obeys_assignPad (lvalues : List Lvalue) : D.Obeys (assignPad lvalues) := by
  induction lvalues with
  | nil => exact Obeys.pure _
  | cons lv rest ih =>
      refine Obeys.bind (obeys_allocConstant _) fun _ => ?_
      refine Obeys.bind (obeys_dstOrAlloc _) fun _ => Obeys.bind (obeys_emit rfl rfl) fun _ => ?_
      exact Obeys.map ih

theorem obeys_saveSources (earlier : List ℕ) (lvalues : List Lvalue)
    (pending : List (Option ℕ)) : D.Obeys (saveSources earlier lvalues pending) := by
  induction lvalues generalizing earlier pending with
  | nil => exact Obeys.pure _
  | cons lv lvalues ih =>
      cases pending with
      | nil => exact Obeys.pure _
      | cons src pending =>
          have hrest : ∀ src : Option ℕ, D.Obeys (do
              let rest ← saveSources (earlier ++ (localDst lv).toList) lvalues pending
              return src :: rest) := fun src => Obeys.map (ih _ _)
          cases src with
          | none => exact hrest _
          | some r =>
              refine Obeys.ite (Obeys.bind obeys_reserveReg fun _ => ?_) (hrest _)
              exact Obeys.bind (obeys_emit rfl rfl) fun _ => hrest _

theorem obeys_resolveLocal (name : Name) : D.Obeys (resolveLocal name) :=
  Obeys.map obeys_get

theorem obeys_checkGlobalWrite (g : GlobalEnv) (name : Name) :
    D.Obeys (checkGlobalWrite g name) := by
  unfold checkGlobalWrite
  split
  · exact Obeys.ite (obeys_err _) (Obeys.pure _)
  · split
    · exact obeys_err _
    · exact obeys_err _
    · exact Obeys.pure _

theorem obeys_compileExprLiteral (value : LiteralValue) (dst : Option ℕ) :
    D.Obeys (compileExprLiteral value dst) := by
  cases value with
  | string s =>
      refine Obeys.bind (obeys_allocConstant _) fun _ => ?_
      exact Obeys.bind (obeys_dstOrAlloc _) fun _ => Obeys.map (obeys_emit rfl rfl)
  | _ => exact Obeys.pure _

theorem obeysAt_toReg {m : CompileM ExprDesc} (hm : D.ObeysAt c m) (dst : Option ℕ) :
    D.ObeysAt c (toReg m dst) :=
  ObeysAt.bind hm fun _ => Obeys.map (obeys_dischargeToRegMut _ _)

/-- A variable of the function. -/
theorem obeysAt_compileExprIdent {name : Name} {d : VariableData} (dst : Option ℕ)
    (hl : resolveLocalIn c.scope name = some d) (hk : d.kind ≠ VarKind.global) :
    D.ObeysAt c (compileExprIdent name dst) := by
  intro a c' h
  unfold compileExprIdent at h
  have hresolve : resolveLocal name c = Except.ok (resolveLocalIn c.scope name, c) := rfl
  rw [bind_of_eq hresolve, hl] at h
  obtain ⟨reg, kind⟩ := d
  cases kind with
  | const w => cases w <;> exact Obeys.pure _ c a c' h
  | varargParam =>
      refine Obeys.bind ?_ (fun _ => Obeys.pure _) c a c' h
      exact obeys_modifyChunk fun _ => ⟨rfl, rfl, rfl, rfl⟩
  | global => exact absurd rfl hk
  | reg => exact Obeys.pure _ c a c' h
  | toClose => exact Obeys.pure _ c a c' h

theorem isControl_comparisonInstr {op : BinaryOperator} {lhs rhs : ℕ} {i : Instruction}
    (h : comparisonInstr op lhs rhs = some i) : i.isControl = true := by
  cases op
  case eq | nEq | lEq | gEq | gt | lt =>
    obtain rfl := Option.some.inj h
    rfl
  all_goals cases h

/-- A comparison behind its operands. -/
theorem comparison_related {op : BinaryOperator} {r s : CompileM ℕ} {d : ExprDesc} {lhs rhs : ℕ}
    {c₁ c₂ c' : Ctx} (hr : r c = Except.ok (lhs, c₁)) (hs : s c₁ = Except.ok (rhs, c₂))
    (h : comparisonDesc op r s c = Except.ok (d, c')) :
    D.R c₂ c' ∧ ∃ idx, d.kind = ExprKind.jump idx := by
  unfold comparisonDesc at h
  rw [bind_of_eq hr, bind_of_eq hs] at h
  cases hi : comparisonInstr op lhs rhs with
  | none =>
      rw [hi] at h
      exact absurd h (by simp [ice, err_eq_ok])
  | some i =>
      rw [hi] at h
      refine ⟨obeys_control (isControl_comparisonInstr hi)
        (fun _ => Obeys.map (obeys_freeRegs _ _)) _ _ _ h, ?_⟩
      obtain ⟨u₁, c₃, h₃, h⟩ := bind_eq_ok.1 h
      obtain ⟨jmp, c₄, h₄, h⟩ := bind_eq_ok.1 h
      obtain ⟨u₂, c₅, h₅, h⟩ := bind_eq_ok.1 h
      obtain ⟨rfl, -⟩ := pure_eq_ok.1 h
      exact ⟨_, rfl⟩

theorem obeys_compileNot (inner : ExprDesc) (dst : Option ℕ) : D.Obeys (compileNot inner dst) := by
  unfold compileNot
  split
  · exact Obeys.bind (obeys_flipControlPolarity _) fun _ => obeys_codenot _ _
  · exact Obeys.throw _
  · refine Obeys.bind (obeys_freeReg _) fun _ => Obeys.bind (obeys_dstOrAlloc _) fun _ => ?_
    exact Obeys.bind (obeys_emit rfl rfl) fun _ => obeys_codenot _ _
  · exact obeys_codenot _ _
  · exact obeys_codenot _ _
  · exact obeys_codenot _ _

/-! ### Forms whose operands obey -/

theorem access_unaryInstr {op : PrefixOperator} {dst src : ℕ} {i : Instruction}
    (h : unaryInstr op dst src = some i) : i.access = none ∧ i.isControl = false := by
  cases op
  case neg | len | bitNot =>
    obtain rfl := Option.some.inj h
    exact ⟨rfl, rfl⟩
  all_goals cases h

theorem access_binaryInstr {op : BinaryOperator} {dst lhs rhs : ℕ} {i : Instruction}
    (h : binaryInstr op dst lhs rhs = some i) : i.access = none ∧ i.isControl = false := by
  cases op
  case and | or | eq | nEq | lEq | gEq | gt | lt | property | method => cases h
  all_goals
    obtain rfl := Option.some.inj h
    exact ⟨rfl, rfl⟩

theorem obeys_prefixOpDesc (op : PrefixOperator) {m : CompileM ExprDesc} (hm : D.Obeys m)
    (dst : Option ℕ) : D.Obeys (prefixOpDesc op m dst) := by
  refine Obeys.bind hm fun inner => Obeys.bind obeys_get fun c => ?_
  have hunary : D.Obeys (do
      let r ← dischargeToRegMut inner none
      freeReg r.2
      let dst ← dstOrAlloc dst
      let instr ← unwrap (unaryInstr op dst r.2)
      emit instr
      return ExprDesc.fromReg dst) := by
    refine Obeys.bind (obeys_dischargeToRegMut _ _) fun _ => ?_
    refine Obeys.bind (obeys_freeReg _) fun _ => Obeys.bind (obeys_dstOrAlloc _) fun _ => ?_
    refine obeys_unwrap_of fun i hi => ?_
    obtain ⟨ha, hc⟩ := access_unaryInstr hi
    exact Obeys.map (obeys_emit ha hc)
  dsimp only
  cases (if inner.hasJumps then none else prefixFold c.num op inner.kind) with
  | some e => exact Obeys.pure _
  | none =>
      cases op with
      | not => exact obeys_compileNot _ _
      | none => exact Obeys.map (obeys_dischargeToRegMut _ _)
      | neg => exact hunary
      | len => exact hunary
      | bitNot => exact hunary

theorem obeys_arithOperands (op : BinaryOperator) (early : Bool) (lhsDesc rhsDesc : ExprDesc)
    (dst : Option ℕ) : D.Obeys (arithOperands op early lhsDesc rhsDesc dst) := by
  -- what is done with the registers of the operands
  have hinstr : ∀ lhs rhs : ℕ, D.Obeys (do
      freeRegs lhs rhs
      let dst ← dstOrAlloc dst
      let instr ← unwrap (binaryInstr op dst lhs rhs)
      emit instr
      return ExprDesc.fromReg dst) := fun lhs rhs => by
    refine Obeys.bind (obeys_freeRegs _ _) fun _ => Obeys.bind (obeys_dstOrAlloc _) fun _ => ?_
    refine obeys_unwrap_of fun i hi => ?_
    obtain ⟨ha, hc⟩ := access_binaryInstr hi
    exact Obeys.map (obeys_emit ha hc)
  refine Obeys.bind obeys_get fun c => ?_
  dsimp only
  cases binaryFold c.num op lhsDesc rhsDesc with
  | some e => exact Obeys.pure _
  | none =>
      refine Obeys.ite ?_ ?_
      · exact Obeys.bind (obeys_dischargeToRegMut _ _) fun _ =>
          Obeys.bind (obeys_dischargeToRegMut _ _) fun _ => hinstr _ _
      · exact Obeys.bind (obeys_dischargeToRegMut _ _) fun _ =>
          Obeys.bind (obeys_dischargeToRegMut _ _) fun _ => hinstr _ _

theorem obeys_returnSingle {m : CompileM ExprDesc} (hm : D.Obeys m) :
    D.Obeys (returnSingle m) := by
  refine Obeys.bind hm fun desc => ?_
  split
  · exact obeys_emit rfl rfl
  · refine Obeys.bind obeys_reserveReg fun _ => ?_
    refine Obeys.bind (obeys_dischargeToRegMut _ _) fun _ => Obeys.ite ?_ ?_
    · exact Obeys.bind (obeys_emit rfl rfl) fun _ => obeys_emit rfl rfl
    · exact obeys_emit rfl rfl

end Discipline

/-- The discipline of the steps that cut nothing off. -/
def uncutSteps : Discipline where
  R := Ctx.Uncut
  cuts := False
  refl _ := Ctx.Uncut.of_same rfl
  trans := Ctx.Uncut.trans
  aside h _ _ _ := h.events
  appended _ _ := Ctx.Uncut.of_same rfl
  controlled _ := Ctx.Uncut.of_same rfl
  replaced _ _ := Ctx.Uncut.of_same rfl
  cut h := h.elim

/-- Patching to here cuts nothing off where no jump of the list is the last instruction. -/
theorem uncut_patchToHere {list : List ℕ} {c c' : Ctx} {u : Unit}
    (hlast : ∀ j ∈ list, j + 1 ≠ c.chunk.tape.length)
    (h : patchToHere list c = Except.ok (u, c')) : c.Uncut c' := by
  obtain ⟨rest, c₁, h₁, h⟩ := bind_eq_ok.1 h
  have hstay : c = c₁ := by
    cases list with
    | nil => exact (pure_eq_ok.1 h₁).2
    | cons j list =>
        obtain ⟨stop, c₂, h₂, h₁⟩ := bind_eq_ok.1 h₁
        obtain ⟨rfl, rfl⟩ := nextOffset_eq_ok.1 h₂
        have hnone : (j :: list).find? (fun j => j + 1 = c.chunk.tape.length) = none :=
          List.find?_eq_none.2 fun j hj => by simpa using hlast j hj
        rw [hnone] at h₁
        exact (pure_eq_ok.1 h₁).2
  subst hstay
  exact Discipline.Obeys.bind (D := uncutSteps) Discipline.obeys_nextOffset
    (fun _ => Discipline.obeys_patchTo _ _) _ _ _ h

end Tcvm
