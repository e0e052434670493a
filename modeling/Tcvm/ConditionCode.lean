/-
The code of a condition while it is compiled.

`Code c₀ n c` relates the context `c` in the middle of a compilation to the context `c₀` in which
the expression was begun: the instructions emitted since then form a fragment.  The rules below say
what patching and discharging make of it.

Dropping a trailing jump is only sound when nothing has been patched to a position behind it, which
the compiler does not check.  The log tells whether it was: it is `Intact` when the tape was never
cut below a position that a jump had been patched to.

## Main definitions

* `Intact` — no patched position was cut off;
* `Code` — a fragment in the making.

## Main results

* `patchToHere_spec`: **patching to the next instruction** makes both ways into a branch meet;
* `dischargeToRegMut_spec`: **a discharged value is in the register**.
-/

import Tcvm.CompilerLog
import Tcvm.PatchSteps

namespace Tcvm

open CompileM StateExcept Discipline

/-! ### Intact logs -/

/-- Every cut leaves the positions that were patched to before it, and `bound`, on the tape. -/
def intactFrom (bound : ℕ) : List Event → Bool
  | [] => true
  | Event.patched _ target :: rest => intactFrom (max bound target) rest
  | Event.elided len :: rest => decide (bound ≤ len) && intactFrom bound rest
  | _ :: rest => intactFrom bound rest

/-- The tape was never cut below a position that a jump had been patched to. -/
def Intact (log : List Event) : Prop := intactFrom 0 log = true

instance (log : List Event) : Decidable (Intact log) :=
  inferInstanceAs (Decidable (intactFrom 0 log = true))

/-- A log without a cut is intact. -/
theorem Intact.of_uncut {c c' : Ctx} (h : c.Uncut c') : Intact (c'.since c) := by
  obtain ⟨log, hlog, hno⟩ := h
  rw [Ctx.since_eq hlog]
  unfold Intact
  generalize 0 = bound
  clear hlog
  induction log generalizing bound with
  | nil => rfl
  | cons e rest ih =>
      have hrest : ∀ bound, intactFrom bound rest = true :=
        ih fun len hm => hno len (List.mem_cons_of_mem _ hm)
      cases e with
      | elided len => exact absurd List.mem_cons_self (hno len)
      | _ => exact hrest _

theorem intactFrom_append_left {bound : ℕ} {l l' : List Event}
    (h : intactFrom bound (l ++ l') = true) : intactFrom bound l = true := by
  induction l generalizing bound with
  | nil => rfl
  | cons e rest ih =>
      cases e with
      | elided len =>
          simp only [List.cons_append, intactFrom, Bool.and_eq_true] at h ⊢
          exact ⟨h.1, ih h.2⟩
      | _ => exact ih h

theorem intactFrom_mono {bound bound' : ℕ} {l : List Event} (hle : bound' ≤ bound)
    (h : intactFrom bound l = true) : intactFrom bound' l = true := by
  induction l generalizing bound bound' with
  | nil => rfl
  | cons e rest ih =>
      cases e with
      | elided len =>
          simp only [intactFrom, Bool.and_eq_true, decide_eq_true_eq] at h ⊢
          exact ⟨Nat.le_trans hle h.1, ih hle h.2⟩
      | patched k t =>
          have hmax : max bound' t ≤ max bound t :=
            Nat.max_le.2 ⟨Nat.le_trans hle (Nat.le_max_left _ _), Nat.le_max_right _ _⟩
          exact ih hmax h
      | goto name pos => exact ih hle h
      | label name pos => exact ih hle h

theorem intactFrom_append_right {bound : ℕ} {l l' : List Event}
    (h : intactFrom bound (l ++ l') = true) : intactFrom bound l' = true := by
  induction l generalizing bound with
  | nil => exact h
  | cons e rest ih =>
      cases e with
      | elided len =>
          simp only [List.cons_append, intactFrom, Bool.and_eq_true] at h
          exact ih h.2
      | patched k t => exact intactFrom_mono (Nat.le_max_left _ _) (ih h)
      | goto name pos => exact ih h
      | label name pos => exact ih h

theorem Intact.left {l l' : List Event} (h : Intact (l ++ l')) : Intact l :=
  intactFrom_append_left h

theorem Intact.right {l l' : List Event} (h : Intact (l ++ l')) : Intact l' :=
  intactFrom_append_right h

theorem le_of_intactFrom {bound len : ℕ} {l : List Event}
    (h : intactFrom bound (l ++ [Event.elided len]) = true) :
    bound ≤ len ∧ ∀ k t, Event.patched k t ∈ l → t ≤ len := by
  induction l generalizing bound with
  | nil =>
      simp only [List.nil_append, intactFrom, Bool.and_true, decide_eq_true_eq] at h
      exact ⟨h, fun k t hm => absurd hm List.not_mem_nil⟩
  | cons e rest ih =>
      cases e with
      | elided len' =>
          simp only [List.cons_append, intactFrom, Bool.and_eq_true] at h
          obtain ⟨hb, hrest⟩ := ih h.2
          refine ⟨hb, fun k t hm => ?_⟩
          rcases List.mem_cons.1 hm with hm | hm
          · exact absurd hm (by simp)
          · exact hrest k t hm
      | patched k' t' =>
          obtain ⟨hb, hrest⟩ := ih h
          refine ⟨Nat.le_trans (Nat.le_max_left _ _) hb, fun k t hm => ?_⟩
          rcases List.mem_cons.1 hm with hm | hm
          · obtain ⟨rfl, rfl⟩ := Event.patched.inj hm
            exact Nat.le_trans (Nat.le_max_right _ _) hb
          · exact hrest k t hm
      | goto name pos =>
          obtain ⟨hb, hrest⟩ := ih h
          exact ⟨hb, fun k t hm => hrest k t ((List.mem_cons.1 hm).resolve_left (by simp))⟩
      | label name pos =>
          obtain ⟨hb, hrest⟩ := ih h
          exact ⟨hb, fun k t hm => hrest k t ((List.mem_cons.1 hm).resolve_left (by simp))⟩

/-- What has been patched before a cut stays on the tape. -/
theorem Intact.le {l : List Event} {len : ℕ} (h : Intact (l ++ [Event.elided len])) {k t : ℕ}
    (hm : Event.patched k t ∈ l) : t ≤ len := (le_of_intactFrom h).2 k t hm

/-! ### Code in the making -/

/-- The outcomes of code that still grows. -/
abbrev Outcomes := List Instruction → CodeEnv → Value → ℕ × Regs → Prop

/-- The instructions emitted since `c₀`, at most `n`, form a fragment. -/
structure Code (c₀ : Ctx) (n : ℕ) (c : Ctx) (holes : List ℕ) (val : CodeEnv → Regs → Value)
    (Q : Outcomes) : Prop extends Keeps c₀ n c where
  tape : c₀.chunk.tape <+: c.chunk.tape
  frag : Frag c.chunk.constants c₀.chunk.tape.length c₀.chunk.nactvar c.chunk.tape holes
    (c.since c₀) val (Q c.chunk.tape)

variable {c₀ c c' c'' : Ctx} {n n' : ℕ} {holes holes' : List ℕ} {val val' : CodeEnv → Regs → Value}
  {Q Q' : Outcomes} {d : ExprDesc} {b : Bool} {P : Value → Regs → Prop}

theorem prefix_of_agree {P T T' : List Instruction} (h : P <+: T)
    (ha : ∀ k < P.length, T'[k]? = T[k]?) : P <+: T' := by
  rw [List.prefix_iff_getElem?] at h ⊢
  intro k hk
  rw [ha k hk, h k hk]

/-- Only which holes there are matters. -/
theorem Frag.perm {K : List Value} {lo nactvar : ℕ} {T : List Instruction} {events : List Event}
    {q : CodeEnv → Value → ℕ × Regs → Prop} (h : Frag K lo nactvar T holes events val q)
    (hp : holes.Perm holes') : Frag K lo nactvar T holes' events val q := by
  have hr : Refines T holes T holes' :=
    ⟨fun x hx _ => hp.mem_iff.2 hx, fun _ i hi _ _ => hi,
      fun _ i hi _ => ⟨i, hi, Instruction.SameSkips.refl i⟩⟩
  exact h.extend (List.prefix_refl _) (h.shape.perm hp) hr fun env R s _ _ hq =>
    ⟨s, Relation.ReflTransGen.refl, fun _ _ => rfl, hq⟩

/-- The constants may grow. -/
theorem Frag.grow {K K' : List Value} {lo nactvar : ℕ} {T : List Instruction} {events : List Event}
    {q : CodeEnv → Value → ℕ × Regs → Prop} (h : Frag K lo nactvar T holes events val q)
    (hK : K <+: K') : Frag K' lo nactvar T holes events val q :=
  h.extend hK h.shape (Refines.refl _ _) fun env R s _ _ hq =>
    ⟨s, Relation.ReflTransGen.refl, fun _ _ => rfl, hq⟩

theorem Code.perm (h : Code c₀ n c holes val Q) (hp : holes.Perm holes') :
    Code c₀ n c holes' val Q := { h with frag := h.frag.perm hp }

theorem Code.mono (h : Code c₀ n c holes val Q) (hle : n ≤ n') : Code c₀ n' c holes val Q :=
  { h with toKeeps := h.toKeeps.mono hle }

theorem Code.weaken (h : Code c₀ n c holes val Q)
    (hQ : ∀ env v s, Q c.chunk.tape env v s → Q' c.chunk.tape env v s) :
    Code c₀ n c holes val Q' := { h with frag := h.frag.weaken hQ }

/-- A step that leaves the code and the log alone. -/
theorem Code.quiet (h : Code c₀ n c holes val Q) (hq : Quiet c c') : Code c₀ n c' holes val Q where
  toKeeps := (h.toKeeps.trans hq.toKeeps).mono (Nat.le_of_eq (Nat.add_zero n))
  tape := by rw [hq.tape]; exact h.tape
  frag := by
    have hsince : c'.since c₀ = c.since c₀ := by rw [Ctx.since, hq.same, Ctx.since]
    rw [hq.tape, hsince]
    exact h.frag.grow hq.constants

theorem Rewrites.since {log : List Event} (h : Rewrites c log c') (hk : c₀.events <+: c.events) :
    c'.since c₀ = c.since c₀ ++ log := by
  apply Ctx.since_eq
  rw [h.events, Ctx.events_since hk, List.append_assoc]

/-- The code is rewritten. -/
theorem Code.rewrite {log : List Event} (h : Code c₀ n c holes val Q) (hr : Rewrites c log c')
    (hlt : ∀ k < c₀.chunk.tape.length, c'.chunk.tape[k]? = c.chunk.tape[k]?)
    (hf : Frag c.chunk.constants c₀.chunk.tape.length c₀.chunk.nactvar c'.chunk.tape holes'
      (c.since c₀ ++ log) val' (Q' c'.chunk.tape)) : Code c₀ n c' holes' val' Q' where
  toKeeps := (h.toKeeps.trans hr.keeps).mono (Nat.le_of_eq (Nat.add_zero n))
  tape := prefix_of_agree h.tape hlt
  frag := by
    rw [hr.constants, hr.since h.events]
    exact hf

theorem Rewire.agree {lo : ℕ} {T T' : List Instruction} {list : List ℕ} {τ : ℕ → ℕ}
    {f : Instruction → Instruction} {events : List Event} (hw : Rewire T list τ f T')
    (hs : Shape lo T (list ++ holes) events) {k : ℕ} (hk : k < lo) : T'[k]? = T[k]? := by
  have hout : ∀ x ∈ list, lo < x := fun x hx => (hs.hole x (List.mem_append_left _ hx)).lt
  refine hw.rest k (fun hm => ?_) fun hm => ?_
  · have := hout k hm
    omega
  · have := hout _ hm
    omega

/-! ### Patching to the next instruction -/

theorem ExprDesc.setExits_exits (d : ExprDesc) (b : Bool) : d.setExits b (d.exits b) = d := by
  cases b <;> rfl

theorem ExprDesc.setExits_setExits (d : ExprDesc) (b : Bool) (l l' : List ℕ) :
    (d.setExits b l).setExits b l' = d.setExits b l' := by
  cases b <;> rfl

theorem elideTail_spec {fuel : ℕ} {list : List ℕ}
    (hc : Code c₀ n c d.jumps val fun T => Branch T d b) (hsmall : c.chunk.tape.length ≤ 2 ^ 31)
    (h : elideTail fuel (d.exits b) c = Except.ok (list, c')) (hi : Intact (c'.since c₀)) :
    c'.chunk.tape.length ≤ c.chunk.tape.length ∧
      Code c₀ n c' (d.setExits b list).jumps val fun T => Branch T (d.setExits b list) b := by
  induction fuel generalizing d c with
  | zero =>
      obtain ⟨rfl, rfl⟩ := pure_eq_ok.1 h
      rw [d.setExits_exits]
      exact ⟨Nat.le_refl _, hc⟩
  | succ fuel ih =>
      have hdone : list = d.exits b → c = c' → c'.chunk.tape.length ≤ c.chunk.tape.length ∧
          Code c₀ n c' (d.setExits b list).jumps val fun T => Branch T (d.setExits b list) b := by
        rintro rfl rfl
        rw [d.setExits_exits]
        exact ⟨Nat.le_refl _, hc⟩
      unfold elideTail at h
      obtain ⟨stop, c₁, h₁, h⟩ := bind_eq_ok.1 h
      obtain ⟨rfl, rfl⟩ := nextOffset_eq_ok.1 h₁
      cases hfind : (d.exits b).find? fun j => j + 1 = c.chunk.tape.length with
      | none =>
          simp only [hfind] at h
          obtain ⟨hl, hcc⟩ := pure_eq_ok.1 h
          exact hdone hl.symm hcc
      | some j =>
          have hj : j ∈ d.exits b := List.mem_of_find?_eq_some hfind
          have hend : j + 1 = c.chunk.tape.length := by simpa using List.find?_some hfind
          simp only [hfind] at h
          split at h
          · obtain ⟨hl, hcc⟩ := pure_eq_ok.1 h
            exact hdone hl.symm hcc
          · obtain ⟨ctrl, c₂, h₂, h⟩ := bind_eq_ok.1 h
            obtain ⟨-, rfl⟩ := tapeAt_eq_ok.1 h₂
            split at h
            · obtain ⟨u₃, c₃, h₃, h⟩ := bind_eq_ok.1 h
              obtain rfl := modifyChunk_eq_ok.1 h₃
              obtain ⟨u₄, c₄, h₄, h⟩ := bind_eq_ok.1 h
              obtain hc₄ := record_eq_ok.1 h₄
              have hlog : c₄.events = c.events ++ [Event.elided (j - 1)] := by rw [← hc₄]
              have htape : c₄.chunk.tape = c.chunk.tape.take (j - 1) := by rw [← hc₄]
              have hsince : c₄.since c₀ = c.since c₀ ++ [Event.elided (j - 1)] := by
                apply Ctx.since_eq
                rw [hlog, Ctx.events_since hc.events, List.append_assoc]
              have hgrow : c₄.events <+: c'.events :=
                (obeys_elideTail (D := internalSteps) trivial _ _).logged h
              have hgrow₀ : c₀.events <+: c₄.events := by
                rw [hlog]
                exact hc.events.trans (List.prefix_append _ _)
              have hint : Intact (c.since c₀ ++ [Event.elided (j - 1)]) := by
                rw [Ctx.since_trans hgrow₀ hgrow, hsince] at hi
                exact hi.left
              have hmem : j ∈ d.jumps := ExprDesc.mem_jumps.2 ⟨b, hj⟩
              have hlo := (hc.frag.shape.hole j hmem).lt
              have hbound : ∀ k t, Event.patched k t ∈ c.since c₀ → t + 1 ≤ j := by
                intro k t hm
                have := hint.le hm
                omega
              have hfrag := hc.frag.elide hsmall hj hend hbound
              have hlen : c₄.chunk.tape.length ≤ c.chunk.tape.length := by
                rw [htape, List.length_take]
                omega
              have hev : ∀ k t, Event.patched k t ∈ c.since c₀ ↔
                  Event.patched k t ∈ c₄.since c₀ := by
                intro k t
                rw [hsince, List.mem_append]
                exact ⟨Or.inl, fun h => h.resolve_right (by simp)⟩
              have hcode : Code c₀ n c₄ (d.setExits b ((d.exits b).erase j)).jumps val
                  fun T => Branch T (d.setExits b ((d.exits b).erase j)) b := by
                refine ⟨⟨?_, ?_, ?_, fun hr => ?_, hgrow₀, ?_⟩, ?_, ?_⟩
                · rw [← hc₄]; exact hc.scope
                · rw [← hc₄]; exact hc.nactvar
                · rw [← hc₄]; exact hc.constants
                · rw [← hc₄]; exact hc.room hr
                · exact Nat.le_trans hlen hc.length
                · rw [htape]
                  refine prefix_of_agree hc.tape fun k hk => List.getElem?_take_of_lt (by omega)
                · have hK : c₄.chunk.constants = c.chunk.constants := by rw [← hc₄]
                  rw [hK, htape]
                  exact ⟨hfrag.shape.of_events hev, hfrag.evals⟩
              have hexits : (d.setExits b ((d.exits b).erase j)).exits b = (d.exits b).erase j := by
                rw [d.exits_setExits, if_pos rfl]
              rw [← hexits] at h
              obtain ⟨hle, hres⟩ := ih hcode (Nat.le_trans hlen hsmall) h
              rw [d.setExits_setExits] at hres
              exact ⟨Nat.le_trans hle hlen, hres⟩
            · obtain ⟨hl, hcc⟩ := pure_eq_ok.1 h
              exact hdone hl.symm hcc

/-- Patching to the next instruction: the exits with truthiness `b` continue where a branch falls
through. -/
theorem patchToHere_spec {u : Unit} (hc : Code c₀ n c d.jumps val fun T => Branch T d b)
    (hsmall : c.chunk.tape.length ≤ 2 ^ 31)
    (h : patchToHere (d.exits b) c = Except.ok (u, c')) (hi : Intact (c'.since c₀)) :
    Code c₀ n c' (d.exits (!b)) val fun T => Branch T (d.setExits b []) b := by
  unfold patchToHere at h
  obtain ⟨list, c₁, h₁, h⟩ := bind_eq_ok.1 h
  obtain ⟨stop, c₂, h₂, h⟩ := bind_eq_ok.1 h
  obtain ⟨rfl, rfl⟩ := nextOffset_eq_ok.1 h₂
  have hgrow : c₁.events <+: c'.events := (obeys_patchTo _ _).logged h
  have hgrow₀ : c.events <+: c₁.events :=
    (obeys_elideTail (D := internalSteps) trivial _ _).logged h₁
  have hi₁ : Intact (c₁.since c₀) := by
    rw [Ctx.since_trans (hc.events.trans hgrow₀) hgrow] at hi
    exact hi.left
  obtain ⟨hle, hcode⟩ := elideTail_spec hc hsmall h₁ hi₁
  have hexits : (d.setExits b list).exits b = list := by rw [d.exits_setExits, if_pos rfl]
  have hother : (d.setExits b list).exits (!b) = d.exits (!b) := by
    rw [d.exits_setExits, if_neg (by cases b <;> simp)]
  have hperm := ((d.setExits b list).jumps_perm b).symm
  have hfrag := hcode.frag.perm hperm
  rw [hexits, hother] at hfrag
  have hsep : Separate list := hfrag.shape.separate.sub
    (List.nodup_append.1 hfrag.shape.nodup).1 fun x hx => List.mem_append_left _ hx
  obtain ⟨hrw, hwire⟩ := patchTo_spec hsep h
  have hagree : ∀ k < c₀.chunk.tape.length, c'.chunk.tape[k]? = c₁.chunk.tape[k]? :=
    fun k hk => hwire.agree hfrag.shape hk
  refine hcode.rewrite hrw hagree ?_
  have hfrag' : Frag c₁.chunk.constants c₀.chunk.tape.length c₀.chunk.nactvar c₁.chunk.tape
      ((d.setExits b list).exits b ++ (d.setExits b list).exits (!b)) (c₁.since c₀) val
      (Branch c₁.chunk.tape (d.setExits b list) b) := hcode.frag.perm hperm
  have hwire' : Rewire c₁.chunk.tape ((d.setExits b list).exits b) (fun _ => c₁.chunk.tape.length)
      Instruction.downgrade c'.chunk.tape := by rw [hexits]; exact hwire
  have hfill := hfrag'.fill (Nat.le_trans hle hsmall) hwire'
  rw [hexits, hother, d.setExits_setExits] at hfill
  exact hfill

end Tcvm
