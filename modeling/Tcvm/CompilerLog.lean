/-
What the steps of a compilation leave alone.

Most steps of a compilation concern the code of the function only: they leave what names resolve to
alone.  The log is a ghost: nothing reads it.  Every step appends to it, so that what holds of the
whole log holds of each part.

* `internalSteps` — the discipline that leaves the names alone;
* `Internal` — a step obeys it;
* `internal_emit`, `internal_emitStore`, `internal_allocFieldKey` — steps with any instructions.
-/

import Tcvm.StepDiscipline

namespace Tcvm

open CompileM StateExcept Discipline

variable {α : Type}

/-- What names resolve to, and where, is the same in both contexts. -/
structure Ctx.SameNames (c c' : Ctx) : Prop where
  scope : c'.scope = c.scope
  scopeGlobals : c'.scopeGlobals = c.scopeGlobals
  globals : c'.globals = c.globals
  upvalues : c'.upvalues = c.upvalues
  capture : c'.capture = c.capture

theorem Ctx.SameNames.refl (c : Ctx) : c.SameNames c := ⟨rfl, rfl, rfl, rfl, rfl⟩

theorem Ctx.SameNames.trans {c c' c'' : Ctx} (h : c.SameNames c') (h' : c'.SameNames c'') :
    c.SameNames c'' where
  scope := h'.scope.trans h.scope
  scopeGlobals := h'.scopeGlobals.trans h.scopeGlobals
  globals := h'.globals.trans h.globals
  upvalues := h'.upvalues.trans h.upvalues
  capture := h'.capture.trans h.capture

/-- The discipline of the steps that leave the names alone. -/
def internalSteps : Discipline where
  R c c' := c.SameNames c' ∧ c.events <+: c'.events
  cuts := True
  refl c := ⟨Ctx.SameNames.refl c, List.prefix_refl _⟩
  trans h h' := ⟨h.1.trans h'.1, h.2.trans h'.2⟩
  aside h _ _ _ := ⟨⟨h.scope, h.scopeGlobals, h.globals, h.upvalues, h.capture⟩, h.events.grown⟩
  appended _ _ := ⟨⟨rfl, rfl, rfl, rfl, rfl⟩, List.prefix_refl _⟩
  controlled _ := ⟨⟨rfl, rfl, rfl, rfl, rfl⟩, List.prefix_refl _⟩
  replaced _ _ := ⟨⟨rfl, rfl, rfl, rfl, rfl⟩, List.prefix_refl _⟩
  cut _ _ _ _ _ _ _ := ⟨⟨rfl, rfl, rfl, rfl, rfl⟩, List.prefix_append _ _⟩

/-- The step concerns the code of the function only: it leaves the names alone and appends to the
log. -/
abbrev Internal (m : CompileM α) : Prop := internalSteps.Obeys m

theorem Discipline.Obeys.logged {m : CompileM α} (h : Internal m) {c c' : Ctx} {a : α}
    (hm : m c = Except.ok (a, c')) : c.events <+: c'.events := (h c a c' hm).2

theorem Discipline.Obeys.names {m : CompileM α} (h : Internal m) {c c' : Ctx} {a : α}
    (hm : m c = Except.ok (a, c')) : c.SameNames c' := (h c a c' hm).1

/-! ### Steps with instructions of any kind -/

theorem internal_modifyChunk (f : Chunk → Chunk) : Internal (modifyChunk f) := by
  intro c u c' h
  rw [← modifyChunk_eq_ok.1 h]
  exact ⟨⟨rfl, rfl, rfl, rfl, rfl⟩, List.prefix_refl _⟩

theorem internal_emit (i : Instruction) : Internal (emit i) := internal_modifyChunk _

theorem internal_modify {f : Ctx → Ctx}
    (h : ∀ c, c.SameNames (f c) ∧ c.events <+: (f c).events) :
    Internal (modify f : CompileM Unit) := by
  intro c u c' hm
  rw [← modify_eq_ok.1 hm]
  exact h c

theorem internal_emitJumpInstr (label : ℕ) (i : Instruction) : Internal (emitJumpInstr label i) :=
  Obeys.bind obeys_nextOffset fun _ =>
    Obeys.bind (internal_modifyChunk _) fun _ => internal_emit _

theorem internal_emitStore (lv : Lvalue) (src : ℕ) : Internal (emitStore lv src) := by
  cases lv with
  | «local» dst => exact Obeys.ite (internal_emit _) (Obeys.pure _)
  | _ => exact internal_emit _

theorem internal_emitStores (lvalues : List Lvalue) (pending : List (Option ℕ)) :
    Internal (emitStores lvalues pending) := by
  induction lvalues generalizing pending with
  | nil => exact Obeys.pure _
  | cons lv lvalues ih =>
      cases pending with
      | nil => exact Obeys.pure _
      | cons src pending =>
          cases src with
          | none => exact Obeys.bind (Obeys.pure _) fun _ => ih _
          | some val => exact Obeys.bind (internal_emitStore _ _) fun _ => ih _

/-! ### Names -/

theorem internal_allocFieldKey (s : LuaString) : Internal (allocFieldKey s) := by
  have hslot : Internal allocIcSlot := Obeys.bind obeys_getChunk fun _ =>
    Obeys.bind (internal_modifyChunk _) fun _ => Obeys.pure _
  exact Obeys.bind (obeys_allocConstant _) fun _ =>
    Obeys.bind hslot fun _ => Obeys.pure _

theorem internal_initGlobal (name : Name) (envIdx src : ℕ) :
    Internal (initGlobal name envIdx src) := by
  refine Obeys.bind (internal_allocFieldKey _) fun _ => ?_
  refine Obeys.bind obeys_reserveReg fun _ => Obeys.bind (internal_emit _) fun _ => ?_
  refine Obeys.bind (internal_emit _) fun _ => Obeys.bind (internal_emit _) fun _ => ?_
  exact obeys_freeReg _

theorem internal_initGlobals (envIdx valueBase : ℕ) (targets : List GlobalTarget) (i : ℕ) :
    Internal (initGlobals envIdx valueBase targets i) := by
  induction targets generalizing i with
  | nil => exact Obeys.pure _
  | cons target rest ih =>
      exact Obeys.bind (obeys_addU8 _ _) fun _ =>
        Obeys.bind (internal_initGlobal _ _ _) fun _ => ih _

end Tcvm
