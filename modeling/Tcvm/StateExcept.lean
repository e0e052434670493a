/-
Reasoning about computations with a state and failure.

A computation `StateT σ (Except ε) α` either fails or returns a value and a new state.  The rules
below say when it returns what; a few predicates package the arguments that are repeated over whole
programs, above all that a relation between the state before and after holds (`Moves`).  They speak
of the runs that return, so a computation that fails satisfies them.

* `bind_eq_ok`, `pure_eq_ok`, `get_eq_ok`, `set_eq_ok`, `modify_eq_ok`, `throw_eq_ok` — inversion
  rules;
* `Moves`, `Moves.bind` — a reflexive and transitive relation between states, kept step by step;
* `FailsIn`, `FailsIn.bind` — how a computation may fail;
* `Agrees`, `Agrees.bind` — two computations that do the same from some states.
-/

import Mathlib.Data.Nat.Notation

namespace StateExcept

universe u

variable {σ ε α β : Type u}

/-! ### Inversion -/

theorem bind_eq_ok {m : StateT σ (Except ε) α} {f : α → StateT σ (Except ε) β} {s s' : σ} {b : β} :
    (m >>= f) s = Except.ok (b, s') ↔
      ∃ a t, m s = Except.ok (a, t) ∧ f a t = Except.ok (b, s') := by
  show (m s >>= fun p => f p.1 p.2) = Except.ok (b, s') ↔ _
  cases hm : m s with
  | error e =>
      constructor
      · intro h
        exact absurd h (by simp [bind, Except.bind])
      · rintro ⟨a, t, h, -⟩
        exact absurd h (by simp)
  | ok p =>
      obtain ⟨a, t⟩ := p
      constructor
      · intro h
        exact ⟨a, t, rfl, h⟩
      · rintro ⟨a', t', h, hf⟩
        obtain ⟨rfl, rfl⟩ := Prod.mk.inj (Except.ok.inj h)
        exact hf

/-- The same for computations without a state. -/
theorem except_bind_eq_ok {m : Except ε α} {f : α → Except ε β} {b : β} :
    (m >>= f) = Except.ok b ↔ ∃ a, m = Except.ok a ∧ f a = Except.ok b := by
  cases m with
  | error e => simp [bind, Except.bind]
  | ok a => simp [bind, Except.bind]

theorem pure_eq_ok {a b : α} {s s' : σ} :
    (pure a : StateT σ (Except ε) α) s = Except.ok (b, s') ↔ a = b ∧ s = s' := by
  show Except.ok (a, s) = Except.ok (b, s') ↔ _
  simp

theorem get_eq_ok {s s' t : σ} :
    (get : StateT σ (Except ε) σ) s = Except.ok (t, s') ↔ s = t ∧ s = s' := by
  show Except.ok (s, s) = Except.ok (t, s') ↔ _
  simp

theorem set_eq_ok {s s' t : σ} {x : PUnit} :
    (set t : StateT σ (Except ε) PUnit) s = Except.ok (x, s') ↔ t = s' := by
  show Except.ok (PUnit.unit, t) = Except.ok (x, s') ↔ _
  simp

theorem modify_eq_ok {f : σ → σ} {s s' : σ} {x : PUnit} :
    (modify f : StateT σ (Except ε) PUnit) s = Except.ok (x, s') ↔ f s = s' := by
  show Except.ok (PUnit.unit, f s) = Except.ok (x, s') ↔ _
  simp

theorem throw_eq_ok {e : ε} {s s' : σ} {a : α} :
    (throw e : StateT σ (Except ε) α) s = Except.ok (a, s') ↔ False := by
  show Except.error e = Except.ok (a, s') ↔ _
  simp

/-! ### Relations between states -/

/-- Every run that returns relates the state it started in to the one it ended in. -/
def Moves (R : σ → σ → Prop) (m : StateT σ (Except ε) α) : Prop :=
  ∀ s a s', m s = Except.ok (a, s') → R s s'

namespace Moves

variable {R : σ → σ → Prop} {m : StateT σ (Except ε) α} {f : α → StateT σ (Except ε) β}

theorem pure (hrefl : ∀ s, R s s) (a : α) : Moves R (Pure.pure a : StateT σ (Except ε) α) := by
  intro s b s' h
  obtain ⟨-, rfl⟩ := pure_eq_ok.1 h
  exact hrefl s

theorem bind (htrans : ∀ a b c, R a b → R b c → R a c) (hm : Moves R m)
    (hf : ∀ a, Moves R (f a)) : Moves R (m >>= f) := by
  intro s b s' h
  obtain ⟨a, t, h₁, h₂⟩ := bind_eq_ok.1 h
  exact htrans s t s' (hm s a t h₁) (hf a t b s' h₂)

theorem throw (e : ε) : Moves R (MonadExcept.throw e : StateT σ (Except ε) α) := by
  intro s a s' h
  exact absurd h (by simp [throw_eq_ok])

/-- A step that is taken on a condition, in front of the rest. -/
theorem guarded {p : Prop} [Decidable p] (htrans : ∀ a b c, R a b → R b c → R a c) (hm : Moves R m)
    (a : α) (hf : ∀ a, Moves R (f a)) : Moves R (if p then m >>= f else f a) := by
  split
  · exact bind htrans hm hf
  · exact hf a

end Moves

/-! ### Failures -/

/-- Every run that fails does so in `P`. -/
def FailsIn (P : ε → Prop) (m : StateT σ (Except ε) α) : Prop := ∀ s e, m s = Except.error e → P e

namespace FailsIn

variable {P : ε → Prop} {m : StateT σ (Except ε) α} {f : α → StateT σ (Except ε) β}

theorem pure (a : α) : FailsIn P (Pure.pure a : StateT σ (Except ε) α) :=
  fun s e h => nomatch (show (Except.ok (a, s) : Except ε (α × σ)) = Except.error e from h)

theorem throw {e : ε} (h : P e) : FailsIn P (MonadExcept.throw e : StateT σ (Except ε) α) := by
  intro s e' he
  obtain rfl := Except.error.inj (he : Except.error e = Except.error e')
  exact h

theorem bind (hm : FailsIn P m) (hf : ∀ a, FailsIn P (f a)) : FailsIn P (m >>= f) := by
  intro s e h
  have h : (m s >>= fun p => f p.1 p.2) = Except.error e := h
  cases hr : m s with
  | error e' =>
      rw [hr] at h
      obtain rfl := Except.error.inj (h : Except.error e' = Except.error e)
      exact hm s e' hr
  | ok p =>
      rw [hr] at h
      exact hf p.1 p.2 e h

theorem ite {p : Prop} [Decidable p] {n : StateT σ (Except ε) α} (hm : FailsIn P m)
    (hn : FailsIn P n) : FailsIn P (if p then m else n) := by
  split
  · exact hm
  · exact hn

end FailsIn

/-! ### Two computations -/

/-- From states in `P` the two computations do the same; what returns does so in `Q`, and relates
the state before to the one after. -/
def Agrees (P : σ → Prop) (R : σ → σ → Prop) (Q : σ → Prop) (m n : StateT σ (Except ε) α) : Prop :=
  ∀ s, P s → m s = n s ∧ ∀ a s', m s = Except.ok (a, s') → Q s' ∧ R s s'

namespace Agrees

variable {P Q S : σ → Prop} {R : σ → σ → Prop} {m n : StateT σ (Except ε) α}
  {f g : α → StateT σ (Except ε) β}

theorem bind_apply (m : StateT σ (Except ε) α) (f : α → StateT σ (Except ε) β) (s : σ) :
    (m >>= f) s = (m s >>= fun p => f p.1 p.2) := rfl

theorem bind (htrans : ∀ a b c, R a b → R b c → R a c) (hm : Agrees P R Q m n)
    (hf : ∀ a, Agrees Q R S (f a) (g a)) : Agrees P R S (m >>= f) (n >>= g) := by
  intro s hs
  obtain ⟨heq, hpost⟩ := hm s hs
  constructor
  · rw [bind_apply, bind_apply, ← heq]
    cases hr : m s with
    | error e => rfl
    | ok p =>
        obtain ⟨a, t⟩ := p
        exact (hf a t (hpost a t hr).1).1
  · intro b s' h
    obtain ⟨a, t, h₁, h₂⟩ := bind_eq_ok.1 h
    obtain ⟨ht, hst⟩ := hpost a t h₁
    obtain ⟨hs', hts'⟩ := (hf a t ht).2 b s' h₂
    exact ⟨hs', htrans s t s' hst hts'⟩

/-- A step that keeps what is asked for agrees with itself. -/
theorem of_moves (h : Moves (fun s s' => P s → Q s' ∧ R s s') m) : Agrees P R Q m m :=
  fun s hs => ⟨rfl, fun a s' hm => h s a s' hm hs⟩

theorem throw (e : ε) :
    Agrees P R Q (MonadExcept.throw e : StateT σ (Except ε) α) (MonadExcept.throw e) :=
  of_moves (Moves.throw e)

theorem ite {p : Prop} [Decidable p] {m' n' : StateT σ (Except ε) α} (hm : Agrees P R Q m n)
    (hn : Agrees P R Q m' n') : Agrees P R Q (if p then m else m') (if p then n else n') := by
  split
  · exact hm
  · exact hn

end Agrees

end StateExcept
