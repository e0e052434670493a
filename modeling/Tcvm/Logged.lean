/-
# Computations with a state, a log and failure

A computation reads and writes a state, logs what it does, and returns or fails.  Some of what it
may log is harmless, the rest makes it fail at once with a known error.  `Sound` says that this is
so, and that otherwise it returns with a postcondition or fails in a way that is allowed; it says
both what a computation does and that nothing else can go wrong.

## Main definitions

* `Logged` — the computations, with `fail`, `lift`, `get`, `modify` and `tell`;
* `Policy`, `Sound` — what may be logged, which errors are allowed, and the specification.

## Main results

* `Sound.bind`, `Sound.mono`, `Sound.lift` and others — the rules;
* `Sound.crash_iff` — **a sound computation fails with the known error** exactly when it logged
  something that is not harmless;
* `Returns`, `Returns.bind` and others — what holds of a result, if there is one.
-/

import Mathlib.Algebra.Group.Nat.Defs
import Mathlib.Data.List.Basic

/-- Computations over states `σ` that log `ω` and fail with `ε`. -/
def Logged (σ ε ω α : Type) : Type := σ → List ω × Except ε (α × σ)

namespace Logged

variable {σ ε ω α β : Type}

instance : Monad (Logged σ ε ω) where
  pure a := fun s => ([], Except.ok (a, s))
  bind m f := fun s =>
    match m s with
    | (w, Except.ok (a, t)) => (w ++ (f a t).1, (f a t).2)
    | (w, Except.error e) => (w, Except.error e)

def fail (e : ε) : Logged σ ε ω α := fun _ => ([], Except.error e)

/-- A computation that leaves the state alone. -/
def lift (x : Except ε α) : Logged σ ε ω α := fun s => ([], x.map fun a => (a, s))

def get : Logged σ ε ω σ := fun s => ([], Except.ok (s, s))

def modify (f : σ → σ) : Logged σ ε ω Unit := fun s => ([], Except.ok ((), f s))

def tell (w : ω) : Logged σ ε ω Unit := fun s => ([w], Except.ok ((), s))

theorem get_bind (f : σ → Logged σ ε ω β) (s : σ) : (get >>= f) s = f s s := rfl

theorem modify_bind (g : σ → σ) (f : Unit → Logged σ ε ω β) (s : σ) :
    (modify g >>= f) s = f () (g s) := rfl

theorem bind_run (m : Logged σ ε ω α) (f : α → Logged σ ε ω β) (s : σ) :
    (m >>= f) s = match m s with
      | (w, Except.ok (a, t)) => (w ++ (f a t).1, (f a t).2)
      | (w, Except.error e) => (w, Except.error e) := rfl

/-- A failure is the end of what follows. -/
theorem bind_error {m : Logged σ ε ω α} {f : α → Logged σ ε ω β} {s : σ} {w : List ω} {e : ε}
    (h : m s = (w, Except.error e)) : (m >>= f) s = (w, Except.error e) := by
  rw [bind_run, h]

/-! ### Specifications -/

/-- What may be logged, the errors that are allowed, and the error that follows from the rest. -/
structure Policy (ω ε : Type) where
  Harmless : ω → Prop
  Allowed : ε → Prop
  crash : ε
  not_allowed : ¬Allowed crash

/-- How a computation ends that logged nothing but what is harmless. -/
def Ends (P : Policy ω ε) (Q : α → σ → Prop) : Except ε (α × σ) → Prop
  | Except.ok (a, t) => Q a t
  | Except.error e => P.Allowed e

/-- The specification of a computation. -/
def Sound (P : Policy ω ε) (m : Logged σ ε ω α) (s : σ) (Q : α → σ → Prop) : Prop :=
  ((∀ w ∈ (m s).1, P.Harmless w) ∧ Ends P Q (m s).2) ∨
    ((∃ w ∈ (m s).1, ¬P.Harmless w) ∧ (m s).2 = Except.error P.crash)

variable {P : Policy ω ε} {m : Logged σ ε ω α} {s : σ} {Q : α → σ → Prop}

theorem Ends.mono {Q' : α → σ → Prop} {x : Except ε (α × σ)} (h : Ends P Q x)
    (hq : ∀ a t, Q a t → Q' a t) : Ends P Q' x := by
  cases x with
  | ok p => exact hq p.1 p.2 h
  | error e => exact h

theorem Sound.mono {Q' : α → σ → Prop} (h : Sound P m s Q) (hq : ∀ a t, Q a t → Q' a t) :
    Sound P m s Q' := by
  rcases h with ⟨hlog, hends⟩ | hcrash
  · exact Or.inl ⟨hlog, hends.mono hq⟩
  · exact Or.inr hcrash

theorem Sound.pure {a : α} (h : Q a s) : Sound P (Pure.pure a) s Q :=
  Or.inl ⟨fun _ hw => absurd hw List.not_mem_nil, h⟩

theorem Sound.fail {e : ε} (h : P.Allowed e) : Sound P (fail e : Logged σ ε ω α) s Q :=
  Or.inl ⟨fun _ hw => absurd hw List.not_mem_nil, h⟩

theorem Sound.bind {f : α → Logged σ ε ω β} {R : β → σ → Prop}
    (h : Sound P m s fun a t => Sound P (f a) t R) : Sound P (m >>= f) s R := by
  rw [Sound, bind_run]
  cases hm : m s with
  | mk w x =>
      rw [Sound, hm] at h
      cases x with
      | error e =>
          rcases h with ⟨hlog, hends⟩ | ⟨hbad, hcrash⟩
          · exact Or.inl ⟨hlog, hends⟩
          · exact Or.inr ⟨hbad, congrArg Except.error (Except.error.inj hcrash)⟩
      | ok p =>
          obtain ⟨a, t⟩ := p
          rcases h with ⟨hlog, hends⟩ | ⟨-, hcrash⟩
          · rcases hends with ⟨hlog', hends'⟩ | ⟨⟨v, hv, hbad⟩, hcrash⟩
            · refine Or.inl ⟨?_, hends'⟩
              intro v hv
              rcases List.mem_append.mp hv with hv | hv
              · exact hlog v hv
              · exact hlog' v hv
            · exact Or.inr ⟨⟨v, List.mem_append_right _ hv, hbad⟩, hcrash⟩
          · cases hcrash

theorem Sound.lifted {x : Except ε α} (hok : ∀ a, x = Except.ok a → Q a s)
    (herror : ∀ e, x = Except.error e → P.Allowed e) : Sound P (Logged.lift x) s Q := by
  cases x with
  | ok a => exact Sound.pure (hok a rfl)
  | error e => exact Sound.fail (herror e rfl)

theorem Sound.lift {x : Except ε α} {f : α → Logged σ ε ω β} {R : β → σ → Prop}
    (hok : ∀ a, x = Except.ok a → Sound P (f a) s R)
    (herror : ∀ e, x = Except.error e → P.Allowed e) :
    Sound P (Logged.lift x >>= f) s R := Sound.bind (Sound.lifted hok herror)

theorem Sound.get {f : σ → Logged σ ε ω β} {R : β → σ → Prop} (h : Sound P (f s) s R) :
    Sound P (Logged.get >>= f) s R :=
  Sound.bind (Or.inl ⟨fun _ hw => absurd hw List.not_mem_nil, h⟩)

theorem Sound.modify {g : σ → σ} {f : Unit → Logged σ ε ω β} {R : β → σ → Prop}
    (h : Sound P (f ()) (g s) R) : Sound P (Logged.modify g >>= f) s R :=
  Sound.bind (Or.inl ⟨fun _ hw => absurd hw List.not_mem_nil, h⟩)

/-- What is logged is harmless, or what follows is the failure. -/
theorem Sound.tell {w : ω} {f : Unit → Logged σ ε ω β} {R : β → σ → Prop}
    (hgood : P.Harmless w → Sound P (f ()) s R)
    (hbad : ¬P.Harmless w → (f () s).2 = Except.error P.crash) :
    Sound P (Logged.tell w >>= f) s R := by
  have htell : (Logged.tell w >>= f) s = ([w] ++ (f () s).1, (f () s).2) := rfl
  by_cases hw : P.Harmless w
  · refine Sound.bind (Or.inl ⟨?_, hgood hw⟩)
    intro v hv
    obtain rfl : v = w := List.mem_singleton.mp hv
    exact hw
  · refine Or.inr ⟨⟨w, ?_, hw⟩, ?_⟩
    · rw [htell]
      exact List.mem_append_left _ List.mem_cons_self
    · rw [htell]
      exact hbad hw

/-- **The known error** comes exactly from what is not harmless. -/
theorem Sound.crash_iff (h : Sound P m s Q) :
    (m s).2 = Except.error P.crash ↔ ∃ w ∈ (m s).1, ¬P.Harmless w := by
  rcases h with ⟨hlog, hends⟩ | ⟨hbad, hcrash⟩
  · constructor
    · intro hcrash
      rw [hcrash] at hends
      exact absurd hends P.not_allowed
    · rintro ⟨w, hw, hbad⟩
      exact absurd (hlog w hw) hbad
  · exact ⟨fun _ => hbad, fun _ => hcrash⟩

/-- Otherwise the computation ends as it should. -/
theorem Sound.ends (h : Sound P m s Q) (hlog : ∀ w ∈ (m s).1, P.Harmless w) :
    Ends P Q (m s).2 := by
  rcases h with ⟨-, hends⟩ | ⟨⟨w, hw, hbad⟩, -⟩
  · exact hends
  · exact absurd (hlog w hw) hbad

/-! ### Results -/

/-- A postcondition of the result, if there is one. -/
def Returns (m : Logged σ ε ω α) (s : σ) (Q : α → σ → Prop) : Prop :=
  ∀ a t, (m s).2 = Except.ok (a, t) → Q a t

theorem Returns.pure {a : α} (h : Q a s) : Returns (Pure.pure a : Logged σ ε ω α) s Q := by
  intro b t hb
  cases hb
  exact h

theorem Returns.fail {e : ε} : Returns (fail e : Logged σ ε ω α) s Q := fun _ _ h => nomatch h

theorem Returns.bind {f : α → Logged σ ε ω β} {R : β → σ → Prop}
    (h : Returns m s fun a t => Returns (f a) t R) : Returns (m >>= f) s R := by
  intro b u hb
  rw [bind_run] at hb
  cases hm : m s with
  | mk w x =>
      rw [hm] at hb
      cases x with
      | error e => exact nomatch hb
      | ok p => exact h p.1 p.2 (congrArg Prod.snd hm) b u hb

theorem Returns.mono {Q' : α → σ → Prop} (h : Returns m s Q) (hq : ∀ a t, Q a t → Q' a t) :
    Returns m s Q' := fun a t hm => hq a t (h a t hm)

theorem Returns.lifted {x : Except ε α} (h : ∀ a, x = Except.ok a → Q a s) :
    Returns (Logged.lift x : Logged σ ε ω α) s Q := by
  intro a t hm
  cases x with
  | error e => exact nomatch hm
  | ok b =>
      cases hm
      exact h _ rfl

theorem Returns.lift {x : Except ε α} {f : α → Logged σ ε ω β} {R : β → σ → Prop}
    (h : ∀ a, x = Except.ok a → Returns (f a) s R) : Returns (Logged.lift x >>= f) s R :=
  Returns.bind (Returns.lifted h)

theorem Returns.get {f : σ → Logged σ ε ω β} {R : β → σ → Prop} (h : Returns (f s) s R) :
    Returns (Logged.get >>= f) s R := h

theorem Returns.modify {g : σ → σ} {f : Unit → Logged σ ε ω β} {R : β → σ → Prop}
    (h : Returns (f ()) (g s) R) : Returns (Logged.modify g >>= f) s R := h

theorem Returns.tell {w : ω} {f : Unit → Logged σ ε ω β} {R : β → σ → Prop}
    (h : Returns (f ()) s R) : Returns (Logged.tell w >>= f) s R := h

end Logged
