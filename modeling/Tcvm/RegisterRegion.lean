/-
The registers that a stretch of code may write.

While an expression is compiled, its code is emitted behind what is there, it is patched in place,
and its values are kept in temps above the cursor.  A `Region` says from which instruction and from
which register on a stretch of code is free to act, besides the registers of the locals and at most
one more.  Every step of the compiler that the region allows `Stays` in it.

* `Writes`, `Instruction.output`, `Instruction.touches` — the registers an instruction may write,
  or store into;
* `Region`, `Region.Holds` — a region, and that what has been compiled so far is inside;
* `Region.Stays` — a step stays in the region, with what it returns;
* `Region.stays_emit`, `Region.stays_freeReg`, `Region.stays_patchToHere`, … — the primitive steps;
* `Region.stays_dischargeToRegMut`, `Region.stays_goiftrue` — discharging and branching.
-/

import Tcvm.CompilerSteps

namespace Tcvm

open CompileM StateExcept

/-! ### What an instruction writes -/

/-- A set of registers that an instruction may write. -/
inductive Writes
  | nothing
  | register (r : ℕ)
  /-- A register and any above it. -/
  | above (r : ℕ)
  deriving DecidableEq

/-- The registers of its own function that an instruction may write.  A call runs in the registers
from its function on; that it can write captured locals as well is not counted here. -/
def Instruction.output : Instruction → Writes
  | move dst _ => Writes.register dst
  | load dst _ => Writes.register dst
  | lfalseskip dst => Writes.register dst
  | getupval dst _ => Writes.register dst
  | gettabup dst _ _ _ => Writes.register dst
  | gettable dst _ _ => Writes.register dst
  | getfield dst _ _ _ => Writes.register dst
  | self dst _ _ => Writes.above dst
  | newtable dst => Writes.register dst
  | add dst _ _ => Writes.register dst
  | sub dst _ _ => Writes.register dst
  | mul dst _ _ => Writes.register dst
  | mod dst _ _ => Writes.register dst
  | pow dst _ _ => Writes.register dst
  | div dst _ _ => Writes.register dst
  | idiv dst _ _ => Writes.register dst
  | band dst _ _ => Writes.register dst
  | bor dst _ _ => Writes.register dst
  | bxor dst _ _ => Writes.register dst
  | shl dst _ _ => Writes.register dst
  | shr dst _ _ => Writes.register dst
  | unm dst _ => Writes.register dst
  | bnot dst _ => Writes.register dst
  | not dst _ => Writes.register dst
  | len dst _ => Writes.register dst
  | concat dst _ _ => Writes.register dst
  | testset dst _ _ => Writes.register dst
  | call func _ _ => Writes.above func
  | tailcall func _ => Writes.above func
  | forloop base _ => Writes.above base
  | forprep base _ => Writes.above base
  | tforprep base _ => Writes.above base
  | tforcall base _ => Writes.above base
  | tforloop base _ => Writes.above base
  | closure dst _ => Writes.register dst
  | vararg dst count => if count = 2 then Writes.register dst else Writes.above dst
  | varargget dst _ _ => Writes.register dst
  | varargprep _ => Writes.above 0
  | _ => Writes.nothing

/-- May the instruction write the register? -/
def Instruction.mayWrite (i : Instruction) (r : ℕ) : Bool :=
  match i.output with
  | Writes.nothing => false
  | Writes.register dst => dst = r
  | Writes.above low => low ≤ r

/-- The register of the table that an instruction stores into. -/
def Instruction.storedTable : Instruction → Option ℕ
  | setlist table _ _ => some table
  | setfield _ table _ _ => some table
  | settable _ table _ => some table
  | _ => none

/-- The registers of which an instruction may change the value, or the contents of the table. -/
def Instruction.touches (i : Instruction) : Writes :=
  match i.storedTable with
  | some table => Writes.register table
  | none => i.output

/-! ### Regions -/

/-- Where a stretch of code acts: behind the instructions `code`, on the registers from `floor` on,
on those of the locals, which lie below `locals`, and on `target`; `scope`, `nactvar` and
`constants` are what it finds. -/
structure Region where
  scope : List Scope
  nactvar : ℕ
  locals : ℕ
  constants : List Value
  code : List Instruction
  floor : ℕ
  target : Option ℕ

variable {α β : Type}

namespace Region

variable (b : Region)

def Allows : Writes → Prop
  | Writes.nothing => True
  | Writes.register r => b.floor ≤ r ∨ r < b.locals ∨ b.target = some r
  | Writes.above r => b.floor ≤ r

/-- A register whose value may be dropped: a local, or a temp of the region. -/
def Owns (r : ℕ) : Prop := r < b.locals ∨ b.floor ≤ r

/-- A destination hint that the region allows. -/
def Hint (dst : Option ℕ) : Prop := ∀ r, dst = some r → b.Owns r

/-- Every jump of a list stands behind a control of the region. -/
def Exits (list : List ℕ) : Prop := ∀ j ∈ list, b.code.length < j

/-- What has been compiled so far is inside the region.  The registers of the locals are the active
ones, or no one of them lies next to the floor: then freeing it fails. -/
structure Holds (c : Ctx) : Prop where
  scope : c.scope = b.scope
  nactvar : c.chunk.nactvar = b.nactvar
  active : b.nactvar ≤ b.locals
  apart : b.locals < b.floor ∨ b.locals = b.nactvar
  floor : b.floor ≤ c.chunk.freereg
  top : c.chunk.freereg ≤ noReg
  constants : b.constants <+: c.chunk.constants
  room : c.chunk.constants.length < 2 ^ 16
  code : c.chunk.tape.take b.code.length = b.code
  writes : ∀ (k : ℕ) (i : Instruction), b.code.length ≤ k → c.chunk.tape[k]? = some i →
    b.Allows i.touches

/-- The registers of the locals that names refer to. -/
def LocalsBelow : Prop :=
  ∀ name d, resolveLocalIn b.scope name = some d → d.kind ≠ VarKind.global → d.register < b.locals

/-- The step stays in the region, and returns what `Q` says. -/
def Stays (m : CompileM α) (Q : α → Ctx → Prop) : Prop :=
  ∀ c a c', b.Holds c → m c = Except.ok (a, c') → b.Holds c' ∧ Q a c'

variable {b} {c c' : Ctx}

/-- What touches nothing else writes nothing else. -/
theorem Allows.output {i : Instruction} (h : b.Allows i.touches) : b.Allows i.output := by
  cases i with
  | setlist | setfield | settable => trivial
  | _ => exact h

theorem Hint.none : b.Hint none := fun r h => absurd h (by simp)

theorem Hint.of_owns {r : ℕ} (h : b.Owns r) : b.Hint (some r) := by
  intro r' hr
  obtain rfl := Option.some.inj hr
  exact h

theorem Hint.of_floor {r : ℕ} (h : b.floor ≤ r) : b.Hint (some r) := Hint.of_owns (Or.inr h)

theorem Hint.allows {r : ℕ} (h : b.Hint (some r)) : b.Allows (Writes.register r) := by
  rcases h r rfl with hlt | hfloor
  · exact Or.inr (Or.inl hlt)
  · exact Or.inl hfloor

theorem Hint.owns {r : ℕ} (h : b.Hint (some r)) : b.Owns r := h r rfl

/-- A register at the top that is not active is a temp of the region. -/
theorem Holds.floor_of_top {r : ℕ} (hc : b.Holds c) (hr : b.Owns r) (hn : ¬ r < b.nactvar)
    (htop : r + 1 = c.chunk.freereg) : b.floor ≤ r := by
  rcases hr with hlt | hfloor
  · have hfree := hc.floor
    rcases hc.apart with hapart | heq
    · omega
    · omega
  · exact hfloor

@[simp] theorem exits_nil : b.Exits [] := by simp [Exits]

theorem exits_append {l l' : List ℕ} : b.Exits (l ++ l') ↔ b.Exits l ∧ b.Exits l' := by
  simp only [Exits, List.mem_append]
  exact ⟨fun h => ⟨fun j hj => h j (Or.inl hj), fun j hj => h j (Or.inr hj)⟩,
    fun h j hj => hj.elim (h.1 j) (h.2 j)⟩

theorem Holds.length (h : b.Holds c) : b.code.length ≤ c.chunk.tape.length := by
  have := congrArg List.length h.code
  rw [List.length_take] at this
  omega

/-! ### Composition -/

namespace Stays

variable {m : CompileM α} {f : α → CompileM β} {P : α → Prop} {Q Q' : α → Ctx → Prop}
  {R : β → Ctx → Prop}

theorem pure {a : α} (h : ∀ c, b.Holds c → Q a c) : b.Stays (Pure.pure a : CompileM α) Q := by
  intro c a' c' hc hm
  obtain ⟨rfl, rfl⟩ := pure_eq_ok.1 hm
  exact ⟨hc, h c hc⟩

theorem throw (e : Fault) : b.Stays (MonadExcept.throw e : CompileM α) Q := by
  intro c a c' _ hm
  exact absurd hm (by simp [throw_eq_ok])

/-- Steps in a row, when what the first one returns does not depend on the context. -/
theorem bind (hm : b.Stays m fun a _ => P a) (hf : ∀ a, P a → b.Stays (f a) R) :
    b.Stays (m >>= f) R := by
  intro c x c' hc h
  obtain ⟨a, c₁, h₁, h₂⟩ := bind_eq_ok.1 h
  obtain ⟨hc₁, ha⟩ := hm c a c₁ hc h₁
  exact hf a ha c₁ x c' hc₁ h₂

theorem weaken (hm : b.Stays m Q) (h : ∀ a c, b.Holds c → Q a c → Q' a c) : b.Stays m Q' := by
  intro c a c' hc hm'
  obtain ⟨hc', ha⟩ := hm c a c' hc hm'
  exact ⟨hc', h a c' hc' ha⟩

/-- Steps in a row, when it does not matter what the first one returns. -/
theorem andThen (hm : b.Stays m Q) (hf : ∀ a, b.Stays (f a) R) : b.Stays (m >>= f) R :=
  bind (hm.weaken fun _ _ _ _ => trivial) fun a (_ : True) => hf a

theorem ite {p : Prop} [Decidable p] {n : CompileM α} (hm : p → b.Stays m Q)
    (hn : ¬ p → b.Stays n Q) : b.Stays (if p then m else n) Q := by
  split
  · rename_i h
    exact hm h
  · rename_i h
    exact hn h

theorem forM {γ : Type} {list : List γ} {g : γ → CompileM Unit}
    (h : ∀ x ∈ list, b.Stays (g x) fun _ _ => True) : b.Stays (list.forM g) fun _ _ => True := by
  induction list with
  | nil => exact Stays.pure fun _ _ => trivial
  | cons x rest ih =>
      refine Stays.andThen (h x List.mem_cons_self) fun _ => ih fun y hy => ?_
      exact h y (List.mem_cons_of_mem _ hy)

/-- A step that does not change the context. -/
theorem of_same (h : ∀ c a c', m c = Except.ok (a, c') → c = c' ∧ Q a c) : b.Stays m Q := by
  intro c a c' hc hm
  obtain ⟨rfl, ha⟩ := h c a c' hm
  exact ⟨hc, ha⟩

end Stays

/-! ### Elementary steps -/

theorem stays_getChunk : b.Stays getChunk fun _ _ => True :=
  Stays.of_same fun c ch c' h => ⟨(getChunk_eq_ok.1 h).2, trivial⟩

theorem stays_get : b.Stays (get : CompileM Ctx) fun c _ => b.Holds c := by
  intro c x c' hc h
  obtain ⟨rfl, rfl⟩ := get_eq_ok.1 h
  exact ⟨hc, hc⟩

theorem stays_err (e : CompileError) {Q : α → Ctx → Prop} : b.Stays (err e : CompileM α) Q :=
  Stays.throw _

theorem stays_ensure (p : Bool) : b.Stays (ensure p) fun _ _ => p = true := by
  intro c u c' hc h
  obtain ⟨hp, rfl⟩ := ensure_eq_ok.1 h
  exact ⟨hc, hp⟩

theorem stays_unwrap (o : Option α) : b.Stays (unwrap o) fun a _ => o = some a := by
  intro c a c' hc h
  obtain ⟨ho, rfl⟩ := unwrap_eq_ok.1 h
  exact ⟨hc, ho⟩

theorem stays_addU8 (x y : ℕ) : b.Stays (addU8 x y) fun r _ => r = x + y ∧ r ≤ noReg := by
  intro c r c' hc h
  obtain ⟨hlt, rfl, rfl⟩ := addU8_eq_ok.1 h
  exact ⟨hc, rfl, by rw [noReg]; omega⟩

theorem stays_tapeAt (k : ℕ) : b.Stays (tapeAt k) fun i _ =>
    b.code.length ≤ k → b.Allows i.touches := by
  intro c i c' hc h
  obtain ⟨hi, rfl⟩ := tapeAt_eq_ok.1 h
  exact ⟨hc, fun hk => hc.writes k i hk hi⟩

theorem stays_nextOffset : b.Stays nextOffset fun n _ => b.code.length ≤ n := by
  intro c n c' hc h
  obtain ⟨rfl, rfl⟩ := nextOffset_eq_ok.1 h
  exact ⟨hc, hc.length⟩

/-- A context with the same names, registers, constants and code. -/
theorem Holds.congr (h : b.Holds c) (hs : c'.scope = c.scope)
    (hn : c'.chunk.nactvar = c.chunk.nactvar) (hf : c'.chunk.freereg = c.chunk.freereg)
    (hk : c'.chunk.constants = c.chunk.constants) (ht : c'.chunk.tape = c.chunk.tape) :
    b.Holds c' where
  scope := hs.trans h.scope
  nactvar := hn.trans h.nactvar
  active := h.active
  apart := h.apart
  floor := by rw [hf]; exact h.floor
  top := by rw [hf]; exact h.top
  constants := by rw [hk]; exact h.constants
  room := by rw [hk]; exact h.room
  code := by rw [ht]; exact h.code
  writes := by rw [ht]; exact h.writes

/-- A change of the chunk that concerns neither registers, constants nor code. -/
theorem stays_modifyChunk {f : Chunk → Chunk} (hn : ∀ ch, (f ch).nactvar = ch.nactvar)
    (hf : ∀ ch, (f ch).freereg = ch.freereg) (hk : ∀ ch, (f ch).constants = ch.constants)
    (ht : ∀ ch, (f ch).tape = ch.tape) : b.Stays (modifyChunk f) fun _ _ => True := by
  intro c u c' hc h
  obtain rfl := modifyChunk_eq_ok.1 h
  exact ⟨hc.congr rfl (hn _) (hf _) (hk _) (ht _), trivial⟩

theorem stays_record (e : Event) : b.Stays (record e) fun _ _ => True := by
  intro c u c' hc h
  obtain rfl := record_eq_ok.1 h
  exact ⟨hc.congr rfl rfl rfl rfl rfl, trivial⟩

/-- The cursor moves. -/
theorem Holds.move (h : b.Holds c) {n : ℕ} (hn : b.floor ≤ n) (hn' : n ≤ noReg)
    (hs : c'.scope = c.scope) (hv : c'.chunk.nactvar = c.chunk.nactvar)
    (hf : c'.chunk.freereg = n) (hk : c'.chunk.constants = c.chunk.constants)
    (ht : c'.chunk.tape = c.chunk.tape) : b.Holds c' where
  scope := hs.trans h.scope
  nactvar := hv.trans h.nactvar
  active := h.active
  apart := h.apart
  floor := by rw [hf]; exact hn
  top := by rw [hf]; exact hn'
  constants := by rw [hk]; exact h.constants
  room := by rw [hk]; exact h.room
  code := by rw [ht]; exact h.code
  writes := by rw [ht]; exact h.writes

theorem stays_setFreereg {n : ℕ} (hn : b.floor ≤ n) (hn' : n ≤ noReg) :
    b.Stays (setFreereg n) fun _ c => c.chunk.freereg = n := by
  intro c u c' hc h
  obtain rfl := setFreereg_eq_ok.1 h
  exact ⟨hc.move hn hn' rfl rfl rfl rfl rfl, rfl⟩

theorem stays_setFreeregPeak {n : ℕ} (hn : b.floor ≤ n) (hn' : n ≤ noReg) :
    b.Stays (setFreeregPeak n) fun _ c => c.chunk.freereg = n := by
  intro c u c' hc h
  obtain rfl := setFreeregPeak_eq_ok.1 h
  exact ⟨hc.move hn hn' rfl rfl rfl rfl rfl, rfl⟩

/-- An instruction of the region. -/
theorem stays_emit {i : Instruction} (hi : b.Allows i.touches) :
    b.Stays (emit i) fun _ c => b.code.length < c.chunk.tape.length := by
  intro c u c' hc h
  obtain rfl := emit_eq_ok.1 h
  have hlen := hc.length
  refine ⟨⟨hc.scope, hc.nactvar, hc.active, hc.apart, hc.floor, hc.top, hc.constants,
    hc.room, ?_, ?_⟩, ?_⟩
  · show (c.chunk.tape ++ [i]).take b.code.length = b.code
    rw [List.take_append_of_le_length hlen]
    exact hc.code
  · intro k x hk hx
    rcases Nat.lt_or_ge k c.chunk.tape.length with hlt | hge
    · exact hc.writes k x hk (by rwa [← List.getElem?_append_left hlt])
    · have hx : (c.chunk.tape ++ [i])[k]? = some x := hx
      rw [List.getElem?_append_right hge, List.getElem?_singleton] at hx
      split at hx
      · rw [← Option.some.inj hx]
        exact hi
      · exact absurd hx (by simp)
  · show b.code.length < (c.chunk.tape ++ [i]).length
    rw [List.length_append, List.length_singleton]
    omega

/-- An instruction of the region is replaced. -/
theorem stays_setTape {k : ℕ} {i : Instruction} (hk : b.code.length ≤ k) (hi : b.Allows i.touches) :
    b.Stays (setTape k i) fun _ _ => True := by
  intro c u c' hc h
  obtain rfl := setTape_eq_ok.1 h
  refine ⟨⟨hc.scope, hc.nactvar, hc.active, hc.apart, hc.floor, hc.top, hc.constants, hc.room,
    ?_, ?_⟩, trivial⟩
  · show (c.chunk.tape.set k i).take b.code.length = b.code
    rw [List.take_set_of_le hk]
    exact hc.code
  · intro k' x hk' hx
    have hx : (c.chunk.tape.set k i)[k']? = some x := hx
    rw [List.getElem?_set] at hx
    split at hx
    · split at hx
      · rw [← Option.some.inj hx]
        exact hi
      · exact absurd hx (by simp)
    · exact hc.writes k' x hk' hx

theorem stays_emitUnfilledJmp : b.Stays emitUnfilledJmp fun j _ => b.code.length ≤ j := by
  refine Stays.bind stays_nextOffset fun idx hidx => ?_
  exact Stays.andThen (stays_emit (i := Instruction.jmp 0) trivial) fun _ =>
    Stays.pure fun _ _ => hidx

/-- A control and the jump behind it. -/
theorem stays_control {i : Instruction} {f : ℕ → CompileM β} {R : β → Ctx → Prop}
    (hi : b.Allows i.touches) (hf : ∀ j, b.code.length < j → b.Stays (f j) R) :
    b.Stays (do
      emit i
      let jmp ← emitUnfilledJmp
      f jmp) R := by
  intro c x c' hc h
  obtain ⟨u, c₁, h₁, h⟩ := bind_eq_ok.1 h
  obtain ⟨hc₁, hlen⟩ := stays_emit hi c u c₁ hc h₁
  obtain ⟨j, c₂, h₂, h⟩ := bind_eq_ok.1 h
  obtain ⟨hc₂, -⟩ := stays_emitUnfilledJmp c₁ j c₂ hc₁ h₂
  obtain ⟨n, c₃, h₃, h₂⟩ := bind_eq_ok.1 h₂
  obtain ⟨rfl, rfl⟩ := nextOffset_eq_ok.1 h₃
  obtain ⟨u₄, c₄, h₄, h₅⟩ := bind_eq_ok.1 h₂
  obtain ⟨rfl, rfl⟩ := pure_eq_ok.1 h₅
  exact hf _ hlen c₄ x c' hc₂ h

/-! ### Registers and constants -/

theorem stays_reserveReg : b.Stays reserveReg fun r c => b.floor ≤ r ∧ c.chunk.freereg = r + 1 := by
  intro c r c' hc h
  obtain ⟨hquiet, -, hne, rfl, hfree⟩ := reserveReg_spec h
  have htop := hc.top
  have hfloor := hc.floor
  refine ⟨?_, hfloor, hfree⟩
  exact
    { scope := hquiet.scope.trans hc.scope
      nactvar := hquiet.nactvar.trans hc.nactvar
      active := hc.active
      apart := hc.apart
      floor := by rw [hfree]; omega
      top := by rw [hfree]; omega
      constants := hc.constants.trans hquiet.constants
      room := hquiet.room hc.room
      code := by rw [hquiet.tape]; exact hc.code
      writes := by rw [hquiet.tape]; exact hc.writes }

theorem stays_reserveReg' : b.Stays reserveReg fun r _ => b.floor ≤ r :=
  stays_reserveReg.weaken fun _ _ _ h => h.1

theorem stays_allocUpTo (n : ℕ) : b.Stays (allocUpTo n) fun _ _ => True := by
  refine Stays.andThen stays_getChunk fun ch => Stays.forM fun x _ => ?_
  exact Stays.bind stays_reserveReg' fun _ _ => Stays.pure fun _ _ => trivial

/-- A local is not freed, and a temp of the region lies above its floor. -/
theorem stays_freeReg {r : ℕ} (hr : b.Owns r) : b.Stays (freeReg r) fun _ _ => True := by
  intro c u c' hc h
  unfold freeReg at h
  obtain ⟨ch, c₁, h₁, h⟩ := bind_eq_ok.1 h
  obtain ⟨rfl, rfl⟩ := getChunk_eq_ok.1 h₁
  split at h
  · rename_i hle
    obtain ⟨n, c₂, h₂, h⟩ := bind_eq_ok.1 h
    obtain ⟨hlt, rfl, rfl⟩ := addU8_eq_ok.1 h₂
    obtain ⟨v, c₃, h₃, h⟩ := bind_eq_ok.1 h
    obtain ⟨hnext, rfl⟩ := ensure_eq_ok.1 h₃
    have hnext : r + 1 = c.chunk.freereg := by simpa using hnext
    rw [hc.nactvar] at hle
    have hfloor := hc.floor_of_top hr (by omega) hnext
    obtain ⟨hc', -⟩ := stays_setFreereg (n := c.chunk.freereg - 1) (by omega)
      (by rw [noReg]; omega) c u c' hc h
    exact ⟨hc', trivial⟩
  · obtain ⟨-, rfl⟩ := pure_eq_ok.1 h
    exact ⟨hc, trivial⟩

theorem stays_freeRegs {r₁ r₂ : ℕ} (h₁ : b.Owns r₁) (h₂ : b.Owns r₂) :
    b.Stays (freeRegs r₁ r₂) fun _ _ => True :=
  Stays.ite (fun _ => Stays.andThen (stays_freeReg h₁)
    fun _ => stays_freeReg h₂)
    fun _ => Stays.andThen (stays_freeReg h₂) fun _ => stays_freeReg h₁

/-- The destination is allowed, and it is a local or below the cursor. -/
theorem stays_dstOrAlloc {dst : Option ℕ} (hdst : b.Hint dst) :
    b.Stays (dstOrAlloc dst) fun r c => b.Hint (some r) ∧ r < c.chunk.freereg := by
  cases dst with
  | none =>
      exact stays_reserveReg.weaken fun r c _ h => ⟨Hint.of_floor h.1, by omega⟩
  | some reg =>
      intro c r c' hc h
      unfold dstOrAlloc at h
      obtain ⟨ch, c₁, h₁, h⟩ := bind_eq_ok.1 h
      obtain ⟨rfl, rfl⟩ := getChunk_eq_ok.1 h₁
      split at h
      · rename_i hle
        obtain ⟨n, c₂, h₂, h⟩ := bind_eq_ok.1 h
        obtain ⟨hlt, rfl, rfl⟩ := addU8_eq_ok.1 h₂
        obtain ⟨v, c₃, h₃, h⟩ := bind_eq_ok.1 h
        obtain ⟨rfl, rfl⟩ := pure_eq_ok.1 h
        have hfloor := hc.floor
        obtain ⟨hc₃, hfree⟩ := stays_setFreeregPeak (n := reg + 1) (by omega)
          (by rw [noReg]; omega) c v c₃ hc h₃
        exact ⟨hc₃, hdst, by omega⟩
      · obtain ⟨rfl, rfl⟩ := pure_eq_ok.1 h
        exact ⟨hc, hdst, by omega⟩

theorem stays_allocConstant (v : Value) :
    b.Stays (allocConstant v) fun idx c => c.chunk.constants[idx]? = some v := by
  intro c idx c' hc h
  obtain ⟨hquiet, hidx, hfree⟩ := allocConstant_spec h hc.room
  refine ⟨?_, hidx⟩
  exact
    { scope := hquiet.scope.trans hc.scope
      nactvar := hquiet.nactvar.trans hc.nactvar
      active := hc.active
      apart := hc.apart
      floor := by rw [hfree]; exact hc.floor
      top := by rw [hfree]; exact hc.top
      constants := hc.constants.trans hquiet.constants
      room := hquiet.room hc.room
      code := by rw [hquiet.tape]; exact hc.code
      writes := by rw [hquiet.tape]; exact hc.writes }

theorem stays_allocFieldKey (s : LuaString) : b.Stays (allocFieldKey s) fun _ _ => True := by
  have hslot : b.Stays allocIcSlot fun _ _ => True := by
    refine Stays.andThen stays_getChunk fun _ => ?_
    refine Stays.andThen (stays_modifyChunk (fun _ => rfl) (fun _ => rfl)
      (fun _ => rfl) fun _ => rfl) fun _ => Stays.pure fun _ _ => trivial
  refine Stays.andThen (stays_allocConstant _) fun _ => ?_
  exact Stays.andThen hslot fun _ => Stays.pure fun _ _ => trivial

/-! ### Patching -/

/-- No control writes more when it is downgraded, flipped or aimed. -/
theorem allows_downgrade {i : Instruction} (h : b.Allows i.touches) :
    b.Allows i.downgrade.touches := by
  cases i with
  | testset dst src inverted =>
      rw [Instruction.downgrade]
      split
      · trivial
      · exact h
  | _ => exact h

theorem allows_flip {i j : Instruction} (h : b.Allows i.touches) (hj : i.flip = some j) :
    b.Allows j.touches := by
  cases i with
  | testset dst src inverted =>
      obtain rfl := Option.some.inj hj
      exact h
  | lt | le | eq | test =>
      obtain rfl := Option.some.inj hj
      trivial
  | _ => exact absurd hj (by simp [Instruction.flip])

theorem stays_assertCtrlPredecessor (j : ℕ) : b.Stays (assertCtrlPredecessor j) fun _ _ => True :=
  Stays.ite (fun _ => Stays.pure fun _ _ => trivial) fun _ =>
    Stays.andThen (stays_tapeAt _) fun _ =>
      (stays_ensure _).weaken fun _ _ _ _ => trivial

theorem stays_downgradeTestsets {list : List ℕ} (hl : b.Exits list) :
    b.Stays (downgradeTestsets list) fun _ _ => True := by
  induction list with
  | nil => exact Stays.pure fun _ _ => trivial
  | cons j rest ih =>
      have hj : b.code.length < j := hl j List.mem_cons_self
      have hrest := ih fun k hk => hl k (List.mem_cons_of_mem _ hk)
      unfold downgradeTestsets
      refine Stays.ite (fun _ => hrest) fun _ => ?_
      refine Stays.andThen (stays_assertCtrlPredecessor j) fun _ => ?_
      refine Stays.bind (stays_tapeAt (j - 1)) fun ctrl hctrl => ?_
      have hctrl := hctrl (by omega)
      exact Stays.andThen (stays_setTape (by omega) (allows_downgrade hctrl)) fun _ => hrest

theorem stays_patchJmp {idx : ℕ} (target : ℕ) (hidx : b.code.length ≤ idx) :
    b.Stays (patchJmp idx target) fun _ _ => True := by
  refine Stays.andThen (stays_tapeAt _) fun i => ?_
  cases i with
  | jmp o =>
      exact Stays.andThen (stays_setTape hidx trivial) fun _ => stays_record _
  | _ => exact Stays.throw _

theorem stays_patchTo {list : List ℕ} (target : ℕ) (hl : b.Exits list) :
    b.Stays (patchTo list target) fun _ _ => True := by
  refine Stays.andThen (stays_downgradeTestsets hl) fun _ => ?_
  refine Stays.andThen
    (Stays.forM fun j hj => stays_patchJmp target (Nat.le_of_lt (hl j hj))) fun _ => ?_
  exact stays_modifyChunk (fun _ => rfl) (fun _ => rfl) (fun _ => rfl) fun _ => rfl

/-- Cutting the tape behind the code of the region. -/
theorem stays_cut {n : ℕ} (hn : b.code.length ≤ n) :
    b.Stays (modifyChunk fun c => { c with tape := c.tape.take n }) fun _ _ => True := by
  intro c u c' hc h
  obtain rfl := modifyChunk_eq_ok.1 h
  refine ⟨⟨hc.scope, hc.nactvar, hc.active, hc.apart, hc.floor, hc.top, hc.constants, hc.room,
    ?_, ?_⟩, trivial⟩
  · show (c.chunk.tape.take n).take b.code.length = b.code
    rw [List.take_take, Nat.min_eq_left hn]
    exact hc.code
  · intro k i hk hi
    have hi : (c.chunk.tape.take n)[k]? = some i := hi
    rw [List.getElem?_take] at hi
    split at hi
    · exact hc.writes k i hk hi
    · exact absurd hi (by simp)

theorem stays_elideTail (fuel : ℕ) {list : List ℕ} (hl : b.Exits list) :
    b.Stays (elideTail fuel list) fun rest _ => b.Exits rest := by
  induction fuel generalizing list with
  | zero => exact Stays.pure fun _ _ => hl
  | succ fuel ih =>
      refine Stays.bind stays_nextOffset fun stop _ => ?_
      cases hfind : list.find? fun j => j + 1 = stop with
      | none => exact Stays.pure fun _ _ => hl
      | some j =>
          have hj : b.code.length < j := hl j (List.mem_of_find?_eq_some hfind)
          refine Stays.ite (fun _ => Stays.pure fun _ _ => hl) fun _ => ?_
          refine Stays.andThen (stays_tapeAt _)
            fun ctrl => Stays.ite (fun _ => ?_) fun _ => Stays.pure fun _ _ => hl
          refine Stays.andThen (stays_cut (by omega)) fun _ => ?_
          refine Stays.andThen (stays_record _) fun _ => ?_
          exact ih fun k hk => hl k (List.mem_of_mem_erase hk)

theorem stays_patchToHere {list : List ℕ} (hl : b.Exits list) :
    b.Stays (patchToHere list) fun _ _ => True :=
  Stays.bind (stays_elideTail _ hl) fun _ hrest =>
    Stays.andThen stays_nextOffset fun _ =>
      stays_patchTo _ hrest

theorem stays_needValue (list : List ℕ) : b.Stays (needValue list) fun _ _ => True := by
  induction list with
  | nil => exact Stays.pure fun _ _ => trivial
  | cons j rest ih =>
      refine Stays.ite (fun _ => Stays.pure fun _ _ => trivial) fun _ => ?_
      refine Stays.andThen (stays_assertCtrlPredecessor j) fun _ => ?_
      refine Stays.andThen (stays_tapeAt _) fun i => ?_
      cases i with
      | testset dst src inverted =>
          exact Stays.ite (fun _ => ih) fun _ => Stays.pure fun _ _ => trivial
      | _ => exact Stays.pure fun _ _ => trivial

theorem stays_exitTarget (vtarget dtarget : ℕ) {reg j : ℕ} (hreg : b.Hint (some reg))
    (hj : b.code.length < j) : b.Stays (exitTarget vtarget reg dtarget j) fun _ _ => True := by
  refine Stays.ite (fun _ => Stays.pure fun _ _ => trivial) fun _ => ?_
  refine Stays.andThen (stays_assertCtrlPredecessor j) fun _ => ?_
  refine Stays.andThen (stays_tapeAt _) fun i => ?_
  cases i with
  | testset dst src inverted =>
      refine Stays.ite (fun _ => Stays.ite (fun _ => ?_) fun _ => ?_) fun _ =>
        Stays.pure fun _ _ => trivial
      · exact Stays.andThen (stays_setTape (by omega) trivial) fun _ =>
          Stays.pure fun _ _ => trivial
      · exact Stays.andThen (stays_setTape (by omega) hreg.allows) fun _ =>
          Stays.pure fun _ _ => trivial
  | _ => exact Stays.pure fun _ _ => trivial

theorem stays_retarget {idx : ℕ} (target : ℕ) (hidx : b.code.length ≤ idx) :
    b.Stays (retarget idx target) fun _ _ => True := by
  refine Stays.andThen (stays_tapeAt _) fun i => ?_
  cases i with
  | jmp o =>
      exact Stays.andThen (stays_setTape hidx trivial) fun _ => stays_record _
  | _ => exact Stays.pure fun _ _ => trivial

theorem stays_patchListAux (vtarget dtarget : ℕ) {reg : ℕ} {list : List ℕ}
    (hreg : b.Hint (some reg)) (hl : b.Exits list) :
    b.Stays (patchListAux vtarget reg dtarget list) fun _ _ => True := by
  induction list with
  | nil => exact Stays.pure fun _ _ => trivial
  | cons j rest ih =>
      have hj : b.code.length < j := hl j List.mem_cons_self
      refine Stays.andThen (stays_exitTarget _ _ hreg hj) fun _ => ?_
      refine Stays.andThen (stays_retarget _ (Nat.le_of_lt hj)) fun _ => ?_
      exact ih fun k hk => hl k (List.mem_cons_of_mem _ hk)

theorem stays_flipControlPolarity {j : ℕ} (hj : b.code.length < j) :
    b.Stays (flipControlPolarity j) fun _ _ => True := by
  refine Stays.ite (fun _ => Stays.pure fun _ _ => trivial) fun _ => ?_
  refine Stays.bind (stays_tapeAt (j - 1)) fun ctrl hctrl => ?_
  refine Stays.bind (stays_unwrap _) fun flipped hflip => ?_
  exact stays_setTape (by omega) (allows_flip (hctrl (by omega)) hflip)

/-! ### The cursor -/

/-- The step leaves the register cursor where it is. -/
def KeepsCursor (m : CompileM α) : Prop :=
  Moves (fun c c' => c'.chunk.freereg = c.chunk.freereg) m

namespace KeepsCursor

variable {m : CompileM α} {f : α → CompileM β}

theorem pure (a : α) : KeepsCursor (Pure.pure a : CompileM α) := fun c x c' h => by
  rw [(pure_eq_ok.1 h).2]

theorem throw (e : Fault) : KeepsCursor (MonadExcept.throw e : CompileM α) := Moves.throw e

theorem bind (hm : KeepsCursor m) (hf : ∀ a, KeepsCursor (f a)) : KeepsCursor (m >>= f) :=
  Moves.bind (fun _ _ _ h h' => h'.trans h) hm hf

theorem ite {p : Prop} [Decidable p] {n : CompileM α} (hm : KeepsCursor m) (hn : KeepsCursor n) :
    KeepsCursor (if p then m else n) := by
  split
  · exact hm
  · exact hn

end KeepsCursor

theorem cursor_modifyChunk {f : Chunk → Chunk} (hf : ∀ ch, (f ch).freereg = ch.freereg) :
    KeepsCursor (modifyChunk f) := by
  intro c u c' h
  obtain rfl := modifyChunk_eq_ok.1 h
  exact hf _

theorem cursor_getChunk : KeepsCursor getChunk := fun c ch c' h => by
  rw [(getChunk_eq_ok.1 h).2]

theorem cursor_ensure (p : Bool) : KeepsCursor (ensure p) :=
  KeepsCursor.ite (KeepsCursor.pure _) (KeepsCursor.throw _)

theorem cursor_tapeAt (k : ℕ) : KeepsCursor (tapeAt k) := fun c i c' h => by
  rw [(tapeAt_eq_ok.1 h).2]

theorem cursor_nextOffset : KeepsCursor nextOffset := fun c n c' h => by
  rw [(nextOffset_eq_ok.1 h).2]

theorem cursor_emit (i : Instruction) : KeepsCursor (emit i) := cursor_modifyChunk fun _ => rfl

theorem cursor_setTape (k : ℕ) (i : Instruction) : KeepsCursor (setTape k i) :=
  cursor_modifyChunk fun _ => rfl

theorem cursor_record (e : Event) : KeepsCursor (record e) := by
  intro c u c' h
  obtain rfl := record_eq_ok.1 h
  rfl

theorem cursor_allocConstant (v : Value) : KeepsCursor (allocConstant v) := by
  refine KeepsCursor.bind cursor_getChunk fun ch => ?_
  cases ch.constants.findIdx? (· = v) with
  | some idx => exact KeepsCursor.pure _
  | none =>
      exact KeepsCursor.ite (KeepsCursor.throw _)
        (KeepsCursor.bind (cursor_modifyChunk fun _ => rfl) fun _ => KeepsCursor.pure _)

theorem cursor_assertCtrlPredecessor (j : ℕ) : KeepsCursor (assertCtrlPredecessor j) :=
  KeepsCursor.ite (KeepsCursor.pure _) (KeepsCursor.bind (cursor_tapeAt _) fun _ => cursor_ensure _)

theorem cursor_downgradeTestsets (list : List ℕ) : KeepsCursor (downgradeTestsets list) := by
  induction list with
  | nil => exact KeepsCursor.pure _
  | cons j rest ih =>
      refine KeepsCursor.ite ih (KeepsCursor.bind (cursor_assertCtrlPredecessor _) fun _ => ?_)
      exact KeepsCursor.bind (cursor_tapeAt _) fun _ => KeepsCursor.bind (cursor_setTape _ _)
        fun _ => ih

theorem cursor_codenot (operand : ExprDesc) (kind : ExprKind) :
    KeepsCursor (codenot operand kind) :=
  KeepsCursor.bind (cursor_downgradeTestsets _) fun _ =>
    KeepsCursor.bind (cursor_downgradeTestsets _) fun _ => KeepsCursor.pure _

theorem cursor_retarget (idx target : ℕ) : KeepsCursor (retarget idx target) := by
  refine KeepsCursor.bind (cursor_tapeAt _) fun i => ?_
  cases i with
  | jmp o => exact KeepsCursor.bind (cursor_setTape _ _) fun _ => cursor_record _
  | _ => exact KeepsCursor.pure _

theorem cursor_needValue (list : List ℕ) : KeepsCursor (needValue list) := by
  induction list with
  | nil => exact KeepsCursor.pure _
  | cons j rest ih =>
      refine KeepsCursor.ite (KeepsCursor.pure _)
        (KeepsCursor.bind (cursor_assertCtrlPredecessor _) fun _ => ?_)
      refine KeepsCursor.bind (cursor_tapeAt _) fun i => ?_
      cases i with
      | testset dst src inverted => exact KeepsCursor.ite ih (KeepsCursor.pure _)
      | _ => exact KeepsCursor.pure _

theorem cursor_patchListAux (vtarget reg dtarget : ℕ) (list : List ℕ) :
    KeepsCursor (patchListAux vtarget reg dtarget list) := by
  have hexit : ∀ j, KeepsCursor (exitTarget vtarget reg dtarget j) := by
    intro j
    refine KeepsCursor.ite (KeepsCursor.pure _)
      (KeepsCursor.bind (cursor_assertCtrlPredecessor _) fun _ => ?_)
    refine KeepsCursor.bind (cursor_tapeAt _) fun i => ?_
    cases i with
    | testset dst src inverted =>
        refine KeepsCursor.ite (KeepsCursor.ite ?_ ?_) (KeepsCursor.pure _)
        · exact KeepsCursor.bind (cursor_setTape _ _) fun _ => KeepsCursor.pure _
        · exact KeepsCursor.bind (cursor_setTape _ _) fun _ => KeepsCursor.pure _
    | _ => exact KeepsCursor.pure _
  induction list with
  | nil => exact KeepsCursor.pure _
  | cons j rest ih =>
      exact KeepsCursor.bind (hexit j) fun _ => KeepsCursor.bind (cursor_retarget _ _) fun _ => ih

theorem cursor_dischargeJumps (expr : ExprDesc) (isJump : Bool) (dst : ℕ) :
    KeepsCursor (dischargeJumps expr isJump dst) := by
  have hskip : ∀ p, KeepsCursor (emitSkip p) := fun p => by
    refine KeepsCursor.ite (KeepsCursor.bind ?_ fun _ => KeepsCursor.pure _) (KeepsCursor.pure _)
    exact KeepsCursor.bind cursor_nextOffset fun _ =>
      KeepsCursor.bind (cursor_emit _) fun _ => KeepsCursor.pure _
  have hfixup : ∀ p, KeepsCursor (emitFixup p dst) := fun p => by
    refine KeepsCursor.ite (KeepsCursor.bind cursor_nextOffset fun _ => ?_) (KeepsCursor.pure _)
    refine KeepsCursor.bind (cursor_emit _) fun _ => KeepsCursor.bind cursor_nextOffset fun _ => ?_
    exact KeepsCursor.bind (cursor_allocConstant _) fun _ =>
      KeepsCursor.bind (cursor_emit _) fun _ => KeepsCursor.pure _
  have hclose : ∀ o, KeepsCursor (closeSkip o) := fun o => by
    cases o with
    | some idx => exact KeepsCursor.bind cursor_nextOffset fun _ => cursor_retarget _ _
    | none => exact KeepsCursor.pure _
  have htail : KeepsCursor (needTail expr) := KeepsCursor.bind (cursor_needValue _) fun _ =>
    KeepsCursor.ite (KeepsCursor.pure _) (cursor_needValue _)
  refine KeepsCursor.bind htail fun _ => KeepsCursor.bind (hskip _) fun _ => ?_
  refine KeepsCursor.bind (hfixup _) fun _ => KeepsCursor.bind cursor_nextOffset fun _ => ?_
  exact KeepsCursor.bind (cursor_patchListAux _ _ _ _) fun _ =>
    KeepsCursor.bind (cursor_patchListAux _ _ _ _) fun _ => hclose _

/-- What was known of the cursor is still known. -/
theorem Stays.carry {m : CompileM α} {f : α → CompileM β} {P : α → ℕ → Prop} {Q : β → Ctx → Prop}
    {R : β → Ctx → Prop} (hm : b.Stays m fun a c => P a c.chunk.freereg)
    (hf : ∀ a, b.Stays (f a) Q) (hk : ∀ a, KeepsCursor (f a))
    (hR : ∀ a x c, P a c.chunk.freereg → Q x c → R x c) : b.Stays (m >>= f) R := by
  intro c x c' hc h
  obtain ⟨a, c₁, h₁, h₂⟩ := bind_eq_ok.1 h
  obtain ⟨hc₁, ha⟩ := hm c a c₁ hc h₁
  obtain ⟨hc', hx⟩ := hf a c₁ x c' hc₁ h₂
  exact ⟨hc', hR a x c' (by rw [hk a c₁ x c' h₂]; exact ha) hx⟩

end Region

end Tcvm
