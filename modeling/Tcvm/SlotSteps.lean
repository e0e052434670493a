/-
Inline-cache slots along a compilation.

The accesses of the code, and those that an assignment target still owes, are the slots that the
counter has given to the keys so far.  Most steps change nothing of this: a control is always
followed by its jump, so that no access is cut off with it.  A key that is allocated is owed until
its instruction is emitted.

* `Solid`, `accesses` — the code as far as slots are concerned;
* `slotSteps` — the discipline of the steps that leave the slots alone;
* `Prototype.CacheSound`, `Slots` — the invariant;
* `Owes`, `Takes` — what a step adds; `Owes.bind`, `Owes.before`, `Owes.after` compose;
* `owes_allocFieldKey`, `owes_emit` — **a slot is given, and used**.
-/

import Tcvm.AccessSites
import Tcvm.SaturatingSlots
import Tcvm.StepDiscipline

namespace Tcvm

open CompileM StateExcept SaturatingSlots Discipline

variable {α β : Type}

/-! ### The code -/

/-- Every control is followed by its jump. -/
def Solid (T : List Instruction) : Prop :=
  ∀ (k : ℕ) (i : Instruction), T[k]? = some i → i.isControl = true →
    ∃ o, T[k + 1]? = some (Instruction.jmp o)

/-- The slots with their keys. -/
def accesses (T : List Instruction) : List (ℕ × ℕ) := T.filterMap Instruction.access

section

variable {T : List Instruction} {i j : Instruction} {k : ℕ} {p : ℕ × ℕ}

theorem mem_accesses :
    p ∈ accesses T ↔ ∃ (k : ℕ) (i : Instruction), T[k]? = some i ∧ i.access = some p := by
  rw [accesses, List.mem_filterMap]
  constructor
  · rintro ⟨i, hi, hp⟩
    obtain ⟨k, hk⟩ := List.getElem?_of_mem hi
    exact ⟨k, i, hk, hp⟩
  · rintro ⟨k, i, hk, hp⟩
    exact ⟨i, List.mem_of_getElem? hk, hp⟩

theorem accesses_append (T T' : List Instruction) :
    accesses (T ++ T') = accesses T ++ accesses T' := List.filterMap_append

/-- An instruction that is no control goes behind solid code. -/
theorem Solid.concat (h : Solid T) (hi : i.isControl = false) : Solid (T ++ [i]) := by
  intro k j hj hcontrol
  rcases Nat.lt_or_ge k T.length with hlt | hge
  · rw [List.getElem?_append_left hlt] at hj
    obtain ⟨o, ho⟩ := h k j hj hcontrol
    obtain ⟨hlt', -⟩ := List.getElem?_eq_some_iff.1 ho
    exact ⟨o, (List.getElem?_append_left hlt').trans ho⟩
  · rw [List.getElem?_append_right hge] at hj
    obtain rfl := List.mem_singleton.1 (List.mem_of_getElem? hj)
    rw [hi] at hcontrol
    cases hcontrol

/-- So does a control with its jump. -/
theorem Solid.concat_control (h : Solid T) (i : Instruction) :
    Solid (T ++ [i, Instruction.jmp 0]) := by
  intro k j hj hcontrol
  rcases Nat.lt_trichotomy k T.length with hlt | rfl | hgt
  · rw [List.getElem?_append_left hlt] at hj
    obtain ⟨o, ho⟩ := h k j hj hcontrol
    obtain ⟨hlt', -⟩ := List.getElem?_eq_some_iff.1 ho
    exact ⟨o, (List.getElem?_append_left hlt').trans ho⟩
  · refine ⟨0, ?_⟩
    rw [List.getElem?_append_right (Nat.le_succ _), Nat.succ_sub (Nat.le_refl _), Nat.sub_self]
    rfl
  · rw [List.getElem?_append_right (Nat.le_of_lt hgt)] at hj
    obtain ⟨d, hd⟩ := Nat.exists_eq_add_of_lt hgt
    rw [hd, Nat.add_assoc, Nat.add_sub_cancel_left, List.getElem?_cons_succ] at hj
    obtain rfl := List.mem_singleton.1 (List.mem_of_getElem? hj)
    cases hcontrol

theorem Solid.set (h : Solid T) (hi : T[k]? = some i) (hr : Replaces i j) : Solid (T.set k j) := by
  obtain ⟨hlt, -⟩ := List.getElem?_eq_some_iff.1 hi
  -- a jump is still a jump
  have hjump : ∀ (l : ℕ) (o : ℤ), T[l]? = some (Instruction.jmp o) →
      ∃ o', (T.set k j)[l]? = some (Instruction.jmp o') := by
    intro l o hl
    by_cases hkl : k = l
    · subst hkl
      obtain ⟨o', rfl⟩ := hr.jump o (Option.some.inj (hi.symm.trans hl))
      exact ⟨o', List.getElem?_set_self hlt⟩
    · exact ⟨o, (List.getElem?_set_ne hkl).trans hl⟩
  intro l x hx hcontrol
  by_cases hkl : k = l
  · subst hkl
    rw [List.getElem?_set_self hlt] at hx
    obtain rfl := Option.some.inj hx
    obtain ⟨o, ho⟩ := h k i hi (hr.control hcontrol)
    exact hjump _ o ho
  · rw [List.getElem?_set_ne hkl] at hx
    obtain ⟨o, ho⟩ := h l x hx hcontrol
    exact hjump _ o ho

theorem accesses_set (hi : T[k]? = some i) (hr : Replaces i j) :
    p ∈ accesses (T.set k j) ↔ p ∈ accesses T := by
  obtain ⟨hlt, -⟩ := List.getElem?_eq_some_iff.1 hi
  rw [mem_accesses, mem_accesses]
  constructor
  · rintro ⟨l, x, hx, hp⟩
    by_cases hkl : k = l
    · subst hkl
      rw [List.getElem?_set_self hlt] at hx
      obtain rfl := Option.some.inj hx
      rw [hr.after] at hp
      cases hp
    · exact ⟨l, x, (List.getElem?_set_ne hkl).symm.trans hx, hp⟩
  · rintro ⟨l, x, hx, hp⟩
    by_cases hkl : k = l
    · subst hkl
      obtain rfl := Option.some.inj (hi.symm.trans hx)
      rw [hr.before] at hp
      cases hp
    · exact ⟨l, x, (List.getElem?_set_ne hkl).trans hx, hp⟩

/-- What is cut off with a control is its jump. -/
theorem Solid.eq_take (h : Solid T) (hi : T[k]? = some i) (hcontrol : i.isControl = true)
    (hend : k + 2 = T.length) : ∃ o, T = T.take k ++ [i, Instruction.jmp o] := by
  obtain ⟨o, ho⟩ := h k i hi hcontrol
  obtain ⟨hlt, hget⟩ := List.getElem?_eq_some_iff.1 hi
  obtain ⟨hlt', hget'⟩ := List.getElem?_eq_some_iff.1 ho
  refine ⟨o, ?_⟩
  have hdrop : T.drop k = [i, Instruction.jmp o] := by
    rw [List.drop_eq_getElem_cons hlt, List.drop_eq_getElem_cons hlt', hget, hget',
      List.drop_eq_nil_of_le (by omega)]
  rw [← hdrop, List.take_append_drop]

theorem Instruction.access_control (h : i.isControl = true) : i.access = none := by
  cases i
  case eq | lt | le | test | testset => rfl
  all_goals cases h

/-- Where solid code is cut in front of a control, it is solid. -/
theorem Solid.take (h : Solid T) (hi : T[k]? = some i) (hcontrol : i.isControl = true) :
    Solid (T.take k) := by
  intro l x hx hc
  obtain ⟨hlt, -⟩ := List.getElem?_eq_some_iff.1 hx
  rw [List.length_take] at hlt
  rw [List.getElem?_take_of_lt (by omega)] at hx
  obtain ⟨o, ho⟩ := h l x hx hc
  refine ⟨o, ?_⟩
  rw [List.getElem?_take_of_lt ?_]
  · exact ho
  · -- the control at the cut is not the jump of the one in front of it
    by_contra hge
    obtain rfl : l + 1 = k := by omega
    obtain rfl := Option.some.inj (ho.symm.trans hi)
    cases hcontrol

end

/-! ### Steps that leave the slots alone -/

/-- The slots, the prototypes and the scopes are the same. -/
structure Ctx.SameSlots (c c' : Ctx) : Prop where
  scope : c'.scope = c.scope
  counter : c'.chunk.nextIcIdx = c.chunk.nextIcIdx
  prototypes : c'.chunk.prototypes = c.chunk.prototypes
  constants : GrowConstants c.chunk.constants c'.chunk.constants
  solid : Solid c.chunk.tape → Solid c'.chunk.tape
  accesses : Solid c.chunk.tape → ∀ p, p ∈ accesses c'.chunk.tape ↔ p ∈ accesses c.chunk.tape

/-- A step beside the code and the constants. -/
theorem Ctx.SameSlots.of_same {c c' : Ctx} (hs : c'.scope = c.scope)
    (ht : c'.chunk.tape = c.chunk.tape) (hn : c'.chunk.nextIcIdx = c.chunk.nextIcIdx)
    (hp : c'.chunk.prototypes = c.chunk.prototypes)
    (hk : c'.chunk.constants = c.chunk.constants) : c.SameSlots c' where
  scope := hs
  counter := hn
  prototypes := hp
  constants := by rw [hk]; exact GrowConstants.refl _
  solid h := by rw [ht]; exact h
  accesses _ _ := by rw [ht]

/-- The discipline of the steps that leave the slots alone. -/
def slotSteps : Discipline where
  R := Ctx.SameSlots
  cuts := True
  refl c := ⟨rfl, rfl, rfl, GrowConstants.refl _, id, fun _ _ => Iff.rfl⟩
  trans h h' :=
    ⟨h'.scope.trans h.scope, h'.counter.trans h.counter, h'.prototypes.trans h.prototypes,
      h.constants.trans h'.constants, fun hs => h'.solid (h.solid hs),
      fun hs p => (h'.accesses (h.solid hs) p).trans (h.accesses hs p)⟩
  aside h ht hn hp :=
    ⟨h.scope, hn, hp, h.constants, fun hs => by rw [ht]; exact hs, fun _ _ => by rw [ht]⟩
  appended {c i} ha hc := by
    refine ⟨rfl, rfl, rfl, GrowConstants.refl _, fun hs => hs.concat hc, fun _ p => ?_⟩
    dsimp only
    rw [accesses_append, accesses, accesses, List.filterMap_cons, ha, List.filterMap_nil,
      List.append_nil]
  controlled {c i} hi := by
    refine ⟨rfl, rfl, rfl, GrowConstants.refl _, fun hs => hs.concat_control i, fun _ p => ?_⟩
    dsimp only
    rw [accesses_append, accesses, accesses, List.filterMap_cons, Instruction.access_control hi,
      List.filterMap_cons]
    dsimp only [Instruction.access]
    rw [List.filterMap_nil, List.append_nil]
  replaced hi hr :=
    ⟨rfl, rfl, rfl, GrowConstants.refl _, fun hs => hs.set hi hr, fun _ _ => accesses_set hi hr⟩
  cut _ {c k i} hi hcontrol hend := by
    refine ⟨rfl, rfl, rfl, GrowConstants.refl _, fun hs => hs.take hi hcontrol, fun hs p => ?_⟩
    obtain ⟨o, ho⟩ := hs.eq_take hi hcontrol hend
    have hsame : Tcvm.accesses c.chunk.tape = Tcvm.accesses (c.chunk.tape.take k) := by
      conv_lhs => rw [ho]
      rw [accesses_append, Tcvm.accesses, Tcvm.accesses, List.filterMap_cons,
        Instruction.access_control hcontrol, List.filterMap_cons]
      dsimp only [Instruction.access]
      rw [List.filterMap_nil, List.append_nil]
    rw [hsame]

/-! ### The invariant -/

/-- How many slots a function can have. -/
def icLimit : ℕ := 2 ^ 16 - 1

/-- The slots of the accesses are in the cache table, and each belongs to one key. -/
structure Prototype.CacheSound (p : Prototype) : Prop where
  inRange : ∀ a ∈ accesses p.code, a.1 < p.icTable
  oneKey : ∀ a ∈ accesses p.code, ∀ b ∈ accesses p.code, a.1 = b.1 → a.2 = b.2

/-- The functions of a prototype: it, and those of the prototypes nested in it. -/
inductive Prototype.Function : Prototype → Prototype → Prop
  | self (p : Prototype) : Prototype.Function p p
  | nested {p q r : Prototype} (h : q ∈ p.prototypes) (hr : Prototype.Function q r) :
      Prototype.Function p r

/-- All functions are sound. -/
def Prototype.AllSound (p : Prototype) : Prop := ∀ q, p.Function q → q.CacheSound

/-- The keys of the accesses are strings in the constant table. -/
def Prototype.Keyed (p : Prototype) : Prop :=
  ∀ a ∈ accesses p.code, ∃ key : LuaString, p.constants[a.2]? = some (Value.string key)

/-- The functions of the nested prototypes are so, and the prototype itself. -/
theorem Prototype.forall_function_iff {P : Prototype → Prop} {p : Prototype} :
    (∀ q, p.Function q → P q) ↔ P p ∧ ∀ q ∈ p.prototypes, ∀ r, q.Function r → P r := by
  constructor
  · exact fun h => ⟨h p (Function.self p), fun q hq r hr => h r (Function.nested hq hr)⟩
  · rintro ⟨hown, hnested⟩ r hr
    cases hr with
    | self => exact hown
    | nested hq hr => exact hnested _ hq r hr

theorem Prototype.allSound_iff {p : Prototype} :
    p.AllSound ↔ p.CacheSound ∧ ∀ q ∈ p.prototypes, q.AllSound := Prototype.forall_function_iff

/-- **The invariant**: after `n` access sites the counter has given a slot to as many keys; the
accesses of the code and those that are owed are these, with string constants as keys; and the
prototypes are sound iff none of the functions has too many sites. -/
structure Slots (c : Ctx) (n : ℕ) (owed : List (ℕ × ℕ)) (nested : List ℕ) : Prop where
  solid : Solid c.chunk.tape
  keys : ∃ keys : List ℕ, keys.length = n ∧
    ∀ p, p ∈ accesses c.chunk.tape ∨ p ∈ owed ↔ Given icLimit keys p
  counter : c.chunk.nextIcIdx = min n icLimit
  bounded : c.chunk.constants.length < 2 ^ 16
  strings : ∀ p : ℕ × ℕ, p ∈ accesses c.chunk.tape ∨ p ∈ owed →
    ∃ key : LuaString, c.chunk.constants[p.2]? = some (Value.string key)
  prototypes : (∀ p ∈ c.chunk.prototypes, p.AllSound) ↔ ∀ k ∈ nested, k ≤ icLimit
  keyed : ∀ p ∈ c.chunk.prototypes, ∀ q, p.Function q → q.Keyed

section

variable {c c' : Ctx} {n : ℕ} {owed owed' : List (ℕ × ℕ)} {nested : List ℕ}

theorem Slots.same (h : Slots c n owed nested) (hs : c.SameSlots c') : Slots c' n owed nested where
  solid := hs.solid h.solid
  keys := by
    obtain ⟨keys, hlen, hkeys⟩ := h.keys
    exact ⟨keys, hlen, fun p => (or_congr_left (hs.accesses h.solid p)).trans (hkeys p)⟩
  counter := hs.counter.trans h.counter
  bounded := hs.constants.bounded h.bounded
  strings p hp := by
    obtain ⟨key, hkey⟩ := h.strings p ((or_congr_left (hs.accesses h.solid p)).1 hp)
    exact ⟨key, hs.constants.getElem? hkey⟩
  prototypes := by
    rw [hs.prototypes]
    exact h.prototypes
  keyed := by
    rw [hs.prototypes]
    exact h.keyed

/-- What is owed counts as a set. -/
theorem Slots.congr (h : Slots c n owed nested) (ho : ∀ p, p ∈ owed' ↔ p ∈ owed) :
    Slots c n owed' nested := by
  obtain ⟨keys, hlen, hkeys⟩ := h.keys
  exact ⟨h.solid, ⟨keys, hlen, fun p => (or_congr_right (ho p)).trans (hkeys p)⟩, h.counter,
    h.bounded, fun p hp => h.strings p ((or_congr_right (ho p)).1 hp), h.prototypes, h.keyed⟩

/-- A step that leaves the code and the constants alone. -/
theorem Slots.of_same (h : Slots c n owed nested) (ht : c'.chunk.tape = c.chunk.tape)
    (hn : c'.chunk.nextIcIdx = c.chunk.nextIcIdx) (hp : c'.chunk.prototypes = c.chunk.prototypes)
    (hk : c'.chunk.constants = c.chunk.constants) : Slots c' n owed nested where
  solid := by rw [ht]; exact h.solid
  keys := by rw [ht]; exact h.keys
  counter := hn.trans h.counter
  bounded := by rw [hk]; exact h.bounded
  strings := by rw [ht, hk]; exact h.strings
  prototypes := by rw [hp]; exact h.prototypes
  keyed := by rw [hp]; exact h.keyed

end

/-! ### What a step adds -/

/-- The names that are the named vararg of the function are `v`. -/
def NamesVararg (scope : List Scope) (v : Option Name) : Prop :=
  ∀ name, (∃ d, resolveLocalIn scope name = some d ∧ d.kind = VarKind.varargParam) ↔ v = some name

/-- A step with the access sites `s`: it pays `pre` and owes `post`; the named vararg is `v` before
it and `v'` behind it, and the outer scopes stay. -/
def Owes (v : Option Name) (s : Sites) (v' : Option Name) (pre : List (ℕ × ℕ)) (m : CompileM α)
    (post : α → List (ℕ × ℕ)) : Prop :=
  ∀ c a c', NamesVararg c.scope v → m c = Except.ok (a, c') →
    NamesVararg c'.scope v' ∧ c'.scope.tail = c.scope.tail ∧
      ∀ n owed nested, Slots c n (pre ++ owed) nested →
        Slots c' (n + s.own) (post a ++ owed) (nested ++ s.nested)

/-- A step that owes nothing. -/
def Takes (v : Option Name) (s : Sites) (v' : Option Name) (m : CompileM α) : Prop :=
  Owes v s v' [] m fun _ => []

section

variable {v v' v'' : Option Name} {s t : Sites} {pre : List (ℕ × ℕ)} {m : CompileM α}
  {mid : α → List (ℕ × ℕ)} {f : α → CompileM β} {post : β → List (ℕ × ℕ)}

/-- The rest may use what the first step returned. -/
theorem Owes.bind_run (hm : Owes v s v' pre m mid)
    (hf : ∀ c a c', m c = Except.ok (a, c') → Owes v' t v'' (mid a) (f a) post) :
    Owes v (s + t) v'' pre (m >>= f) post := by
  intro c b c'' hv h
  obtain ⟨a, c', h₁, h₂⟩ := bind_eq_ok.1 h
  obtain ⟨hv', htail, hslots⟩ := hm c a c' hv h₁
  obtain ⟨hv'', htail', hslots'⟩ := hf c a c' h₁ c' b c'' hv' h₂
  refine ⟨hv'', htail'.trans htail, fun n owed nested hs => ?_⟩
  rw [Sites.own_add, Sites.nested_add, ← Nat.add_assoc, ← List.append_assoc]
  exact hslots' _ _ _ (hslots n owed nested hs)

theorem Owes.bind (hm : Owes v s v' pre m mid) (hf : ∀ a, Owes v' t v'' (mid a) (f a) post) :
    Owes v (s + t) v'' pre (m >>= f) post := hm.bind_run fun _ a _ _ => hf a

theorem Owes.of_obeys (h : slotSteps.Obeys m) : Owes v 0 v pre m fun _ => pre := by
  intro c a c' hv hm
  have hs : c.SameSlots c' := h c a c' hm
  refine ⟨by rw [hs.scope]; exact hv, by rw [hs.scope], fun n owed nested hslots => ?_⟩
  rw [Sites.nested_zero, List.append_nil]
  exact hslots.same hs

/-- What is owed may be put in another order. -/
theorem Owes.pure_of_mem {a : α} (h : ∀ p, p ∈ mid a ↔ p ∈ pre) :
    Owes v 0 v pre (Pure.pure a : CompileM α) mid := by
  intro c b c' hv hm
  obtain ⟨rfl, rfl⟩ := pure_eq_ok.1 hm
  refine ⟨hv, rfl, fun n owed nested hslots => ?_⟩
  rw [Sites.nested_zero, List.append_nil]
  refine hslots.congr fun p => ?_
  rw [List.mem_append, List.mem_append, h p]

theorem Owes.pure {a : α} (h : mid a = pre) : Owes v 0 v pre (Pure.pure a : CompileM α) mid :=
  Owes.pure_of_mem fun p => by rw [h]

theorem Owes.throw (e : Fault) : Owes v s v' pre (MonadExcept.throw e : CompileM α) mid := by
  intro c a c' hv h
  exact absurd h (by simp [throw_eq_ok])

theorem Owes.ite {p : Prop} [Decidable p] {n : CompileM α} (hm : Owes v s v' pre m mid)
    (hn : Owes v s v' pre n mid) : Owes v s v' pre (if p then m else n) mid := by
  split
  · exact hm
  · exact hn

theorem Takes.ite_of {p : Prop} [Decidable p] {n : CompileM α} (hm : p → Takes v s v' m)
    (hn : ¬ p → Takes v s v' n) : Takes v s v' (if p then m else n) := by
  by_cases hp : p
  · rw [if_pos hp]
    exact hm hp
  · rw [if_neg hp]
    exact hn hp

/-- The step may look at the context. -/
theorem Owes.get {f : Ctx → CompileM β}
    (hf : ∀ c, NamesVararg c.scope v → Owes v s v' pre (f c) post) :
    Owes v s v' pre (MonadState.get >>= f) post := by
  intro c b c' hv h
  exact hf c hv c b c' hv h

/-- A step that leaves the slots alone, in front of the rest. -/
theorem Owes.before_run (h : slotSteps.Obeys m)
    (hf : ∀ c a c', m c = Except.ok (a, c') → Owes v s v' pre (f a) post) :
    Owes v s v' pre (m >>= f) post := by
  have hboth := (Owes.of_obeys h).bind_run hf
  rwa [zero_add] at hboth

theorem Owes.before (h : slotSteps.Obeys m) (hf : ∀ a, Owes v s v' pre (f a) post) :
    Owes v s v' pre (m >>= f) post := Owes.before_run h fun _ a _ _ => hf a

/-- A step that leaves the slots alone, behind the rest. -/
theorem Owes.after {rest : List (ℕ × ℕ)} (hm : Owes v s v' pre m fun _ => rest)
    (h : ∀ a, slotSteps.Obeys (f a)) : Owes v s v' pre (m >>= f) fun _ => rest := by
  have hboth := hm.bind fun a => Owes.of_obeys (h a)
  rwa [add_zero] at hboth

/-- The access sites are those of the first step. -/
theorem Owes.first_run (hm : Owes v s v' pre m mid)
    (hf : ∀ c a c', m c = Except.ok (a, c') → Owes v' 0 v'' (mid a) (f a) post) :
    Owes v s v'' pre (m >>= f) post := by
  have hboth := hm.bind_run hf
  rwa [add_zero] at hboth

theorem Owes.first (hm : Owes v s v' pre m mid) (hf : ∀ a, Owes v' 0 v'' (mid a) (f a) post) :
    Owes v s v'' pre (m >>= f) post := hm.first_run fun _ a _ _ => hf a

/-- The access sites are those of the rest. -/
theorem Owes.last (hm : Owes v 0 v' pre m mid) (hf : ∀ a, Owes v' s v'' (mid a) (f a) post) :
    Owes v s v'' pre (m >>= f) post := by
  have hboth := hm.bind hf
  rwa [zero_add] at hboth

theorem Owes.cast {w w' : Option Name} {t : Sites} (h : Owes v s w pre m mid) (hs : s = t)
    (hw : w = w') : Owes v t w' pre m mid := by
  rw [← hs, ← hw]
  exact h

/-- What is owed already is owed behind a step that pays nothing. -/
theorem Owes.owing (h : Owes v s v' [] m mid) (owed : List (ℕ × ℕ)) :
    Owes v s v' owed m fun a => mid a ++ owed := by
  intro c a c' hv hm
  obtain ⟨hv', htail, hslots⟩ := h c a c' hv hm
  refine ⟨hv', htail, fun n rest nested hs => ?_⟩
  rw [List.append_assoc]
  exact hslots n (owed ++ rest) nested hs

theorem Takes.owing (h : Takes v s v' m) (owed : List (ℕ × ℕ)) :
    Owes v s v' owed m fun _ => owed := Owes.owing h owed

theorem Takes.bind (hm : Takes v s v' m) (hf : ∀ a, Takes v' t v'' (f a)) :
    Takes v (s + t) v'' (m >>= f) := Owes.bind hm hf

theorem Takes.before (h : slotSteps.Obeys m) (hf : ∀ a, Takes v s v' (f a)) :
    Takes v s v' (m >>= f) := Owes.before h hf

theorem Takes.after (hm : Takes v s v' m) (h : ∀ a, slotSteps.Obeys (f a)) :
    Takes v s v' (m >>= f) := Owes.after hm h

theorem Takes.of_obeys (h : slotSteps.Obeys m) : Takes v 0 v m := Owes.of_obeys h

theorem Takes.pure (a : α) : Takes v 0 v (Pure.pure a : CompileM α) :=
  Owes.of_obeys (Obeys.pure a)

theorem Takes.throw (e : Fault) : Takes v s v' (MonadExcept.throw e : CompileM α) := Owes.throw e

theorem Takes.ite {p : Prop} [Decidable p] {n : CompileM α} (hm : Takes v s v' m)
    (hn : Takes v s v' n) : Takes v s v' (if p then m else n) := Owes.ite hm hn

end

/-! ### Slots are given and used -/

/-- **A key is given a slot**, and its access is owed. -/
theorem owes_allocFieldKey {v : Option Name} (key : LuaString) :
    Owes v (Sites.many 1) v [] (allocFieldKey key) fun r => [(r.2, r.1)] := by
  intro c r c' hv h
  obtain ⟨idx, c₀, h₀, h⟩ := bind_eq_ok.1 h
  obtain ⟨ic, c₁, h₁, h⟩ := bind_eq_ok.1 h
  obtain ⟨ch, c₂, h₂, h₁⟩ := bind_eq_ok.1 h₁
  obtain ⟨rfl, rfl⟩ := getChunk_eq_ok.1 h₂
  obtain ⟨u, c₃, h₃, h₁⟩ := bind_eq_ok.1 h₁
  obtain rfl := modifyChunk_eq_ok.1 h₃
  obtain ⟨rfl, rfl⟩ := pure_eq_ok.1 h₁
  obtain ⟨rfl, rfl⟩ := pure_eq_ok.1 h
  obtain ⟨K, rfl, hgrow, hidx⟩ := allocConstant_grows h₀
  refine ⟨hv, rfl, fun n owed nested hs => ?_⟩
  obtain ⟨keys, hlen, hkeys⟩ := hs.keys
  refine ⟨hs.solid, ⟨keys ++ [idx], ?_, fun p => ?_⟩, ?_, hgrow.bounded hs.bounded, fun p hp => ?_,
    ?_, hs.keyed⟩
  · rw [List.length_append, hlen, List.length_singleton]
    rfl
  · have hp := hkeys p
    rw [given_concat, ← hp, hs.counter, hlen]
    dsimp only
    rw [List.nil_append, List.singleton_append, List.mem_cons]
    tauto
  · dsimp only
    rw [hs.counter]
    exact counter_succ n
  · -- the new key is the constant, the others are where they were
    have hcases : p = (c.chunk.nextIcIdx, idx) ∨ p ∈ accesses c.chunk.tape ∨ p ∈ [] ++ owed := by
      rcases hp with hp | hp
      · exact Or.inr (Or.inl hp)
      · exact (List.mem_cons.1 hp).imp id Or.inr
    rcases hcases with rfl | hp
    · exact ⟨key, hidx hs.bounded⟩
    · obtain ⟨key', hkey'⟩ := hs.strings p hp
      exact ⟨key', hgrow.getElem? hkey'⟩
  · show _ ↔ ∀ k ∈ nested ++ [], k ≤ icLimit
    rw [List.append_nil]
    exact hs.prototypes

/-- **An access is emitted**; it is still owed. -/
theorem owes_emit {v : Option Name} {i : Instruction} {p : ℕ × ℕ} {rest : List (ℕ × ℕ)}
    (hi : i.access = some p) (hp : p ∈ rest) : Owes v 0 v rest (emit i) fun _ => rest := by
  intro c u c' hv h
  obtain rfl := emit_eq_ok.1 h
  refine ⟨hv, rfl, fun n owed nested hs => ?_⟩
  have hcontrol : i.isControl = false := by
    cases hc : i.isControl with
    | true =>
        rw [Instruction.access_control hc] at hi
        cases hi
    | false => rfl
  have hmem : ∀ q, q ∈ accesses (c.chunk.tape ++ [i]) ∨ q ∈ rest ++ owed ↔
      q ∈ accesses c.chunk.tape ∨ q ∈ rest ++ owed := by
    intro q
    rw [accesses_append, List.mem_append, accesses, accesses, List.filterMap_cons, hi,
      List.filterMap_nil, List.mem_singleton]
    constructor
    · rintro ((h | rfl) | h)
      · exact Or.inl h
      · exact Or.inr (List.mem_append_left _ hp)
      · exact Or.inr h
    · rintro (h | h)
      · exact Or.inl (Or.inl h)
      · exact Or.inr h
  obtain ⟨keys, hlen, hkeys⟩ := hs.keys
  rw [Sites.nested_zero, List.append_nil]
  exact ⟨hs.solid.concat hcontrol, ⟨keys, hlen, fun q => (hmem q).trans (hkeys q)⟩, hs.counter,
    hs.bounded, fun q hq => hs.strings q ((hmem q).1 hq), hs.prototypes, hs.keyed⟩

/-- What has been emitted is not owed any more. -/
theorem owes_settle {v : Option Name} {i : Instruction} {p : ℕ × ℕ} {rest : List (ℕ × ℕ)}
    (hi : i.access = some p) : Owes v 0 v (p :: rest) (emit i) fun _ => rest := by
  intro c u c' hv h
  obtain ⟨hv', htail, hslots⟩ := owes_emit hi (List.mem_cons_self (l := rest)) c u c' hv h
  refine ⟨hv', htail, fun n owed nested hs => ?_⟩
  have hemitted := hslots n owed nested hs
  obtain rfl := emit_eq_ok.1 h
  have haccess : p ∈ accesses (c.chunk.tape ++ [i]) := by
    rw [accesses_append, accesses, accesses, List.filterMap_cons, hi]
    exact List.mem_append_right _ List.mem_cons_self
  have hmem : ∀ q, q ∈ accesses (c.chunk.tape ++ [i]) ∨ q ∈ rest ++ owed ↔
      q ∈ accesses (c.chunk.tape ++ [i]) ∨ q ∈ p :: rest ++ owed := by
    intro q
    constructor
    · rintro (h | h)
      · exact Or.inl h
      · exact Or.inr (List.mem_cons_of_mem _ h)
    · rintro (h | h)
      · exact Or.inl h
      · rcases List.mem_cons.1 h with rfl | h
        · exact Or.inl haccess
        · exact Or.inr h
  obtain ⟨keys, hlen, hkeys⟩ := hemitted.keys
  exact ⟨hemitted.solid, ⟨keys, hlen, fun q => (hmem q).trans (hkeys q)⟩, hemitted.counter,
    hemitted.bounded, fun q hq => hemitted.strings q ((hmem q).1 hq), hemitted.prototypes,
    hemitted.keyed⟩

end Tcvm
