/-
What the primitive steps of a compilation do.

Inversion rules for the steps out of which the compiler is built: when a step returns, what it
returned and what the context is afterwards.

* `getChunk_eq_ok`, `ensure_eq_ok`, `unwrap_eq_ok`, `addU8_eq_ok`, `modifyChunk_eq_ok`, … — the
  elementary steps;
* `Ctx.since` — what has been logged;
* `Keeps`, `Quiet` — what a step leaves alone;
* `reserveReg_spec`, `freeReg_spec`, `allocConstant_spec` — registers and constants.
-/

import Tcvm.CompilerRules

namespace Tcvm

open CompileM StateExcept

variable {α β : Type} {c c' c'' : Ctx}

/-! ### Inversion -/

theorem getChunk_eq_ok {x : Chunk} : getChunk c = Except.ok (x, c') ↔ c.chunk = x ∧ c = c' := by
  show Except.ok (c.chunk, c) = Except.ok (x, c') ↔ _
  simp

theorem modifyChunk_eq_ok {f : Chunk → Chunk} {u : Unit} :
    modifyChunk f c = Except.ok (u, c') ↔ { c with chunk := f c.chunk } = c' := modify_eq_ok

theorem record_eq_ok {e : Event} {u : Unit} :
    record e c = Except.ok (u, c') ↔ { c with events := c.events ++ [e] } = c' := modify_eq_ok

theorem err_eq_ok {e : CompileError} {a : α} : (err e : CompileM α) c = Except.ok (a, c') ↔ False :=
  throw_eq_ok

theorem ensure_eq_ok {b : Bool} {u : Unit} :
    ensure b c = Except.ok (u, c') ↔ b = true ∧ c = c' := by
  cases b
  · simp [ensure, throw_eq_ok]
  · simp [ensure, pure_eq_ok]

theorem unwrap_eq_ok {o : Option α} {a : α} :
    unwrap o c = Except.ok (a, c') ↔ o = some a ∧ c = c' := by
  cases o
  · simp [unwrap, throw_eq_ok]
  · simp [unwrap, pure_eq_ok]

theorem addU8_eq_ok {a b r : ℕ} :
    addU8 a b c = Except.ok (r, c') ↔ a + b < 256 ∧ a + b = r ∧ c = c' := by
  unfold addU8
  split
  · rename_i h
    simp [pure_eq_ok, h]
  · rename_i h
    simp [throw_eq_ok, h]

theorem tapeAt_eq_ok {idx : ℕ} {i : Instruction} :
    tapeAt idx c = Except.ok (i, c') ↔ c.chunk.tape[idx]? = some i ∧ c = c' := by
  unfold tapeAt
  rw [bind_eq_ok]
  constructor
  · rintro ⟨x, t, h₁, h₂⟩
    obtain ⟨rfl, rfl⟩ := getChunk_eq_ok.1 h₁
    exact unwrap_eq_ok.1 h₂
  · rintro ⟨h, rfl⟩
    exact ⟨_, _, getChunk_eq_ok.2 ⟨rfl, rfl⟩, unwrap_eq_ok.2 ⟨h, rfl⟩⟩

theorem nextOffset_eq_ok {n : ℕ} :
    nextOffset c = Except.ok (n, c') ↔ c.chunk.tape.length = n ∧ c = c' := by
  show Except.ok (c.chunk.tape.length, c) = Except.ok (n, c') ↔ _
  simp

theorem emit_eq_ok {i : Instruction} {u : Unit} :
    emit i c = Except.ok (u, c') ↔
      { c with chunk := { c.chunk with tape := c.chunk.tape ++ [i] } } = c' := modifyChunk_eq_ok

theorem setTape_eq_ok {idx : ℕ} {i : Instruction} {u : Unit} :
    setTape idx i c = Except.ok (u, c') ↔
      { c with chunk := { c.chunk with tape := c.chunk.tape.set idx i } } = c' := modifyChunk_eq_ok

theorem setFreereg_eq_ok {n : ℕ} {u : Unit} :
    setFreereg n c = Except.ok (u, c') ↔
      { c with chunk := { c.chunk with freereg := n } } = c' := modifyChunk_eq_ok

theorem setFreeregPeak_eq_ok {n : ℕ} {u : Unit} :
    setFreeregPeak n c = Except.ok (u, c') ↔
      { c with chunk := { c.chunk with freereg := n, maxStack := max c.chunk.maxStack n } } = c' :=
  modifyChunk_eq_ok

/-- A step in front of another one. -/
theorem bind_of_eq {m : CompileM α} {f : α → CompileM β} {a : α} (h : m c = Except.ok (a, c')) :
    (m >>= f) c = f a c' := by
  show (m c >>= fun p => f p.1 p.2) = _
  rw [h]
  rfl

/-! ### The log -/

/-- What has been logged since `c`. -/
def Ctx.since (c' c : Ctx) : List Event := c'.events.drop c.events.length

theorem Ctx.since_self (c : Ctx) : c.since c = [] := List.drop_length

theorem Ctx.events_since (h : c.events <+: c'.events) : c'.events = c.events ++ c'.since c := by
  obtain ⟨log, hlog⟩ := h
  rw [Ctx.since, ← hlog, List.drop_left]

theorem Ctx.since_eq {log : List Event} (h : c'.events = c.events ++ log) : c'.since c = log := by
  rw [Ctx.since, h, List.drop_left]

theorem Ctx.since_trans (h : c.events <+: c'.events) (h' : c'.events <+: c''.events) :
    c''.since c = c'.since c ++ c''.since c' := by
  apply Ctx.since_eq
  rw [← List.append_assoc, ← Ctx.events_since h, ← Ctx.events_since h']

/-! ### What a step keeps -/

/-- What every step of an expression keeps: the names and the number of active registers stay, and
constants, instructions and events are only added; `n` bounds the number of instructions. -/
structure Keeps (c : Ctx) (n : ℕ) (c' : Ctx) : Prop where
  scope : c'.scope = c.scope
  nactvar : c'.chunk.nactvar = c.chunk.nactvar
  constants : c.chunk.constants <+: c'.chunk.constants
  room : c.chunk.constants.length < 2 ^ 16 → c'.chunk.constants.length < 2 ^ 16
  events : c.events <+: c'.events
  length : c'.chunk.tape.length ≤ c.chunk.tape.length + n

theorem Keeps.refl (c : Ctx) : Keeps c 0 c :=
  ⟨rfl, rfl, List.prefix_refl _, id, List.prefix_refl _, Nat.le_refl _⟩

theorem Keeps.trans {n n' : ℕ} (h : Keeps c n c') (h' : Keeps c' n' c'') :
    Keeps c (n + n') c'' where
  scope := h'.scope.trans h.scope
  nactvar := h'.nactvar.trans h.nactvar
  constants := h.constants.trans h'.constants
  room hc := h'.room (h.room hc)
  events := h.events.trans h'.events
  length := by
    have := h.length
    have := h'.length
    omega

theorem Keeps.mono {n n' : ℕ} (h : Keeps c n c') (hle : n ≤ n') : Keeps c n' c' :=
  { h with length := Nat.le_trans h.length (Nat.add_le_add_left hle _) }

/-- Steps that leave the code and the log alone. -/
structure Quiet (c c' : Ctx) : Prop extends Keeps c 0 c' where
  tape : c'.chunk.tape = c.chunk.tape
  same : c'.events = c.events

theorem Quiet.refl (c : Ctx) : Quiet c c := ⟨Keeps.refl c, rfl, rfl⟩

theorem Quiet.trans (h : Quiet c c') (h' : Quiet c' c'') : Quiet c c'' :=
  ⟨h.toKeeps.trans h'.toKeeps, h'.tape.trans h.tape, h'.same.trans h.same⟩

/-! ### Registers and constants -/

theorem quiet_setFreereg {n : ℕ} {u : Unit} (h : setFreereg n c = Except.ok (u, c')) :
    Quiet c c' := by
  obtain rfl := setFreereg_eq_ok.1 h
  exact ⟨⟨rfl, rfl, List.prefix_refl _, id, List.prefix_refl _, Nat.le_refl _⟩, rfl, rfl⟩

theorem quiet_setFreeregPeak {n : ℕ} {u : Unit} (h : setFreeregPeak n c = Except.ok (u, c')) :
    Quiet c c' := by
  obtain rfl := setFreeregPeak_eq_ok.1 h
  exact ⟨⟨rfl, rfl, List.prefix_refl _, id, List.prefix_refl _, Nat.le_refl _⟩, rfl, rfl⟩

/-- A fresh register is no local and no placeholder. -/
theorem reserveReg_spec {r : ℕ} (h : reserveReg c = Except.ok (r, c')) :
    Quiet c c' ∧ c.chunk.nactvar ≤ r ∧ r ≠ noReg ∧ r = c.chunk.freereg ∧
      c'.chunk.freereg = r + 1 := by
  unfold reserveReg at h
  obtain ⟨ch, c₁, h₁, h⟩ := bind_eq_ok.1 h
  obtain ⟨rfl, rfl⟩ := getChunk_eq_ok.1 h₁
  obtain ⟨u, c₂, h₂, h⟩ := bind_eq_ok.1 h
  obtain ⟨hle, rfl⟩ := ensure_eq_ok.1 h₂
  split at h
  · exact absurd h (by simp [err_eq_ok])
  · rename_i hne
    obtain ⟨u', c₃, h₃, h⟩ := bind_eq_ok.1 h
    have hquiet := quiet_setFreeregPeak h₃
    obtain ⟨rfl, rfl⟩ := pure_eq_ok.1 h
    obtain rfl := setFreeregPeak_eq_ok.1 h₃
    exact ⟨hquiet, by simpa using hle, hne, rfl, rfl⟩

theorem freeReg_spec {r : ℕ} {u : Unit} (h : freeReg r c = Except.ok (u, c')) : Quiet c c' := by
  unfold freeReg at h
  obtain ⟨ch, c₁, h₁, h⟩ := bind_eq_ok.1 h
  obtain ⟨rfl, rfl⟩ := getChunk_eq_ok.1 h₁
  split at h
  · obtain ⟨n, c₂, h₂, h⟩ := bind_eq_ok.1 h
    obtain ⟨-, -, rfl⟩ := addU8_eq_ok.1 h₂
    obtain ⟨v, c₃, h₃, h⟩ := bind_eq_ok.1 h
    obtain ⟨-, rfl⟩ := ensure_eq_ok.1 h₃
    exact quiet_setFreereg h
  · obtain ⟨-, rfl⟩ := pure_eq_ok.1 h
    exact Quiet.refl _

theorem freeRegs_spec {r₁ r₂ : ℕ} {u : Unit} (h : freeRegs r₁ r₂ c = Except.ok (u, c')) :
    Quiet c c' := by
  unfold freeRegs at h
  split at h
  all_goals
    obtain ⟨v, c₁, h₁, h₂⟩ := bind_eq_ok.1 h
    exact (freeReg_spec h₁).trans (freeReg_spec h₂)

/-- A constant is where its index says. -/
theorem allocConstant_spec {v : Value} {idx : ℕ} (h : allocConstant v c = Except.ok (idx, c'))
    (hroom : c.chunk.constants.length < 2 ^ 16) :
    Quiet c c' ∧ c'.chunk.constants[idx]? = some v ∧ c'.chunk.freereg = c.chunk.freereg := by
  unfold allocConstant at h
  obtain ⟨ch, c₁, h₁, h⟩ := bind_eq_ok.1 h
  obtain ⟨rfl, rfl⟩ := getChunk_eq_ok.1 h₁
  cases hfind : c.chunk.constants.findIdx? (· = v) with
  | some i =>
      rw [hfind] at h
      obtain ⟨rfl, rfl⟩ := pure_eq_ok.1 h
      obtain ⟨hlt, hv, -⟩ := List.findIdx?_eq_some_iff_getElem.1 hfind
      refine ⟨Quiet.refl _, ?_, rfl⟩
      rw [Nat.mod_eq_of_lt (by omega), List.getElem?_eq_getElem hlt]
      exact congrArg some (by simpa using hv)
  | none =>
      simp only [hfind] at h
      split at h
      · exact absurd h (by simp [err_eq_ok])
      · rename_i hlt
        obtain ⟨u, c₂, h₂, h⟩ := bind_eq_ok.1 h
        obtain ⟨rfl, rfl⟩ := pure_eq_ok.1 h
        obtain rfl := modifyChunk_eq_ok.1 h₂
        have hlt' : c.chunk.constants.length < 2 ^ 16 := by omega
        refine ⟨⟨⟨rfl, rfl, List.prefix_append _ _, fun _ => ?_, List.prefix_refl _, Nat.le_refl _⟩,
          rfl, rfl⟩, ?_, rfl⟩
        · simp only [List.length_append, List.length_singleton]
          omega
        · rw [Nat.mod_eq_of_lt hlt']
          exact List.getElem?_concat_length

end Tcvm
