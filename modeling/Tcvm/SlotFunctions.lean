/-
Access sites of functions.

A function starts without code, and its prototype has the code that its body has left, but for the
patched jumps, the accesses to an escaped vararg and the close in front of the last return.  So its
slots are sound as soon as the sites of its body are not too many.

* `takes_prologueLocals`, `slots_functionPrologue` — the start of a function;
* `Ctx.Keeps`, `keeps_functionEpilogue` — its end keeps the accesses;
* `Ctx.Assembled`, `assembled_of_assemble` — so does the assembly;
* `Prototype.Counted`, `counted_functionToChunk` — **a function is sound iff its sites and those of
  its nested functions are not too many**;
* `takes_funcReg` — a closure.
-/

import Tcvm.SlotBlocks

namespace Tcvm

open CompileM StateExcept Discipline

variable {v v' : Option Name} {s : Sites}

/-! ### The start -/

/-- The parameters are not the named vararg. -/
theorem takes_prologueLocals (params : List Name) (varargName : Option Name) :
    Takes none 0 varargName (prologueLocals params varargName) := by
  refine Owes.last (takes_bindParams _ _) fun numParams => ?_
  rw [hide_none]
  refine Takes.before (obeys_adjustLocals _) fun _ => ?_
  cases varargName with
  | none => exact Takes.pure _
  | some name =>
      refine Takes.before obeys_reserveReg fun reg => Owes.last (takes_defineVararg _ _) fun _ => ?_
      refine Takes.of_obeys (Obeys.bind (obeys_addU8 _ _) fun n => ?_)
      exact Obeys.bind (obeys_adjustLocals _) fun _ =>
        obeys_modifyChunk fun _ => ⟨rfl, rfl, rfl, rfl⟩

theorem slots_initial {c : Ctx} (ht : c.chunk.tape = []) (hn : c.chunk.nextIcIdx = 0)
    (hp : c.chunk.prototypes = []) (hk : c.chunk.constants = []) : Slots c 0 [] [] where
  solid k i hi := by
    rw [ht] at hi
    cases hi
  keys := by
    refine ⟨[], rfl, fun p => ?_⟩
    rw [ht]
    constructor
    · rintro (h | h)
      · cases h
      · cases h
    · exact fun h => absurd h (SaturatingSlots.not_given_nil p)
  counter := hn
  bounded := by
    rw [hk]
    exact Nat.two_pow_pos 16
  strings p hp := by
    rw [ht] at hp
    rcases hp with hp | hp
    · cases hp
    · cases hp
  prototypes := by
    rw [hp]
    exact ⟨fun _ k hk => absurd hk List.not_mem_nil, fun _ p hp => absurd hp List.not_mem_nil⟩
  keyed := by
    rw [hp]
    exact fun p hp => absurd hp List.not_mem_nil

/-- The body starts without slots, under the named vararg. -/
theorem slots_functionPrologue {capture : List Enclosing} {params : List Name} {isVararg : Bool}
    {varargName : Option Name} {arity : ℕ} {upvalues : List (Name × UpValueDescriptor)}
    {globals : GlobalEnv} {num : NumOps} {c : Ctx} {u : Unit}
    (h : functionPrologue params isVararg varargName arity
      (initialCtx capture isVararg arity upvalues globals num) = Except.ok (u, c)) :
    NamesVararg c.scope varargName ∧ Slots c 0 [] [] := by
  obtain ⟨u₁, c₁, hpush, h⟩ := bind_eq_ok.1 h
  have hstart : NamesVararg c₁.scope none ∧ Slots c₁ 0 [] [] := by
    obtain rfl := modify_eq_ok.1 hpush
    refine ⟨fun name => ⟨?_, fun hn => by cases hn⟩, slots_initial rfl rfl rfl rfl⟩
    rintro ⟨d, hd, -⟩
    cases hd
  have hlocals := takes_prologueLocals params varargName
  have hrest := Takes.ite (p := isVararg = true)
    (Takes.before (obeys_emit (i := Instruction.varargprep arity) rfl rfl) fun _ => hlocals) hlocals
  obtain ⟨hnames, -, hslots⟩ := hrest c₁ u c hstart.1 h
  exact ⟨hnames, hslots 0 [] [] hstart.2⟩

/-! ### The end -/

/-- The accesses, the slots, the prototypes and the constants are the same. -/
structure Ctx.Keeps (c c' : Ctx) : Prop where
  accesses : ∀ p, p ∈ accesses c'.chunk.tape ↔ p ∈ accesses c.chunk.tape
  counter : c'.chunk.nextIcIdx = c.chunk.nextIcIdx
  prototypes : c'.chunk.prototypes = c.chunk.prototypes
  constants : c'.chunk.constants = c.chunk.constants

theorem Ctx.Keeps.refl (c : Ctx) : c.Keeps c := ⟨fun _ => Iff.rfl, rfl, rfl, rfl⟩

theorem Ctx.Keeps.trans (c c' c'' : Ctx) (h : c.Keeps c') (h' : c'.Keeps c'') : c.Keeps c'' :=
  ⟨fun p => (h'.accesses p).trans (h.accesses p), h'.counter.trans h.counter,
    h'.prototypes.trans h.prototypes, h'.constants.trans h.constants⟩

/-- The accesses to an escaped vararg are no access sites. -/
theorem Instruction.access_materialize (i : Instruction) : i.materialize.access = i.access := by
  cases i <;> rfl

theorem accesses_materialize (T : List Instruction) :
    accesses (T.map Instruction.materialize) = accesses T := by
  rw [accesses, accesses, List.filterMap_map]
  congr 1
  funext i
  exact i.access_materialize

theorem keeps_emit {i : Instruction} (hi : i.access = none) : Moves Ctx.Keeps (emit i) := by
  intro c u c' h
  obtain rfl := emit_eq_ok.1 h
  refine ⟨fun p => ?_, rfl, rfl, rfl⟩
  dsimp only
  rw [accesses_append, accesses, accesses, List.filterMap_cons, hi, List.filterMap_nil,
    List.append_nil]

/-- A close goes in front of the last instruction. -/
theorem accesses_close {T : List Instruction} {ret : Instruction} (hlast : T.getLast? = some ret)
    (first : ℕ) : accesses (T.dropLast ++ [Instruction.close first, ret]) = accesses T := by
  obtain ⟨T', rfl⟩ := List.getLast?_eq_some_iff.1 hlast
  rw [List.dropLast_concat, accesses_append, accesses_append]
  rfl

/-- **What a function does behind its body keeps the accesses.** -/
theorem keeps_functionEpilogue : Moves Ctx.Keeps functionEpilogue := by
  have hsame : ∀ {γ : Type} {m : CompileM γ} {c : Ctx} {a : γ} {c' : Ctx},
      (∀ c a c', m c = Except.ok (a, c') → c = c') → m c = Except.ok (a, c') → c.Keeps c' := by
    intro γ m c a c' hm h
    obtain rfl := hm c a c' h
    exact Ctx.Keeps.refl c
  have hget : Moves Ctx.Keeps getChunk := fun c a c' => hsame fun _ _ _ h => (getChunk_eq_ok.1 h).2
  have hdesc : Moves Ctx.Keeps (modify fun c : Ctx =>
      { c with chunk := { c.chunk with upvalueDesc := c.upvalues.map Prod.snd } } :
        CompileM Unit) := by
    intro c u c' h
    obtain rfl := modify_eq_ok.1 h
    exact ⟨fun _ => Iff.rfl, rfl, rfl, rfl⟩
  refine Moves.bind Ctx.Keeps.trans hget fun x => ?_
  refine Moves.guarded Ctx.Keeps.trans ?_ () fun _ => ?_
  · intro c u c' h
    obtain rfl := modifyChunk_eq_ok.1 h
    refine ⟨fun p => ?_, rfl, rfl, rfl⟩
    dsimp only
    rw [accesses_materialize]
  refine Moves.bind Ctx.Keeps.trans hget fun y => ?_
  refine Moves.guarded Ctx.Keeps.trans (keeps_emit rfl) () fun _ => ?_
  refine Moves.bind Ctx.Keeps.trans ?_ fun close => ?_
  · intro c close c' h
    obtain ⟨-, -, -, -, ht, hn, hp, hk⟩ := popScope_eq_ok h
    exact ⟨fun p => by rw [ht], hn, hp, hk⟩
  cases close with
  | nil => exact hdesc
  | cons first rest =>
      -- the last instruction is looked up, and the close put in front of it
      intro c u c' h
      obtain ⟨z, c₁, h₁, h⟩ := bind_eq_ok.1 h
      obtain ⟨rfl, rfl⟩ := getChunk_eq_ok.1 h₁
      obtain ⟨ret, c₂, h₂, h⟩ := bind_eq_ok.1 h
      obtain ⟨hlast, rfl⟩ := unwrap_eq_ok.1 h₂
      obtain ⟨u₂, c₃, h₃, h⟩ := bind_eq_ok.1 h
      obtain rfl := modifyChunk_eq_ok.1 h₃
      refine Ctx.Keeps.trans _ _ _ ?_ (hdesc _ u c' h)
      refine ⟨fun p => ?_, rfl, rfl, rfl⟩
      dsimp only
      rw [accesses_close hlast]

/-! ### The prototype -/

/-- A jump is patched in place. -/
theorem resolvePatch_accesses {labels : List ℕ} {T T' : List Instruction} {patch : ℕ × ℕ}
    (h : resolvePatch labels T patch = Except.ok T') (p : ℕ × ℕ) :
    p ∈ accesses T' ↔ p ∈ accesses T := by
  unfold resolvePatch at h
  split at h
  · rename_i target instr htarget hinstr
    dsimp only at h
    have hset : ∀ j : Instruction, Replaces instr j →
        Except.ok (T.set patch.1 j) = (Except.ok T' : Except Fault (List Instruction)) →
        (p ∈ accesses T' ↔ p ∈ accesses T) := by
      intro j hr heq
      obtain rfl := Except.ok.inj heq
      exact accesses_set hinstr hr
    have hloop : ∀ i j : Instruction, i.access = none → j.access = none →
        j.isControl = false → (∀ o, i ≠ Instruction.jmp o) → Replaces i j :=
      fun i j hi hj hc hjmp =>
        ⟨hi, hj, fun h => absurd (hc.symm.trans h) (by simp), fun o ho => absurd ho (hjmp o)⟩
    cases instr with
    | jmp o => exact hset _ (replaces_jmp _ _) h
    | forprep base o => exact hset _ (hloop _ _ rfl rfl rfl fun o h => by cases h) h
    | forloop base o => exact hset _ (hloop _ _ rfl rfl rfl fun o h => by cases h) h
    | tforprep base o => exact hset _ (hloop _ _ rfl rfl rfl fun o h => by cases h) h
    | tforloop base o => exact hset _ (hloop _ _ rfl rfl rfl fun o h => by cases h) h
    | _ => cases h
  · cases h

/-- The prototype of the code. -/
structure Ctx.Assembled (c : Ctx) (p : Prototype) : Prop where
  accesses : ∀ a, a ∈ accesses p.code ↔ a ∈ accesses c.chunk.tape
  icTable : p.icTable = c.chunk.nextIcIdx
  prototypes : p.prototypes = c.chunk.prototypes
  constants : p.constants = c.chunk.constants

/-- **Assembly keeps the accesses.** -/
theorem assembled_of_assemble {c : Ctx} {p : Prototype} (h : assemble c.chunk = Except.ok p) :
    c.Assembled p := by
  obtain ⟨code, hcode, h⟩ := except_bind_eq_ok.1 h
  obtain rfl := Except.ok.inj h
  refine ⟨?_, rfl, rfl, rfl⟩
  dsimp only
  generalize c.chunk.tape = T at hcode ⊢
  generalize c.chunk.jumpPatches = patches at hcode
  induction patches generalizing T with
  | nil =>
      obtain rfl := Except.ok.inj hcode
      exact fun a => Iff.rfl
  | cons patch rest ih =>
      rw [List.foldlM_cons] at hcode
      obtain ⟨T', hT', hrest⟩ := except_bind_eq_ok.1 hcode
      exact fun a => (ih T' hrest a).trans (resolvePatch_accesses hT' a)

theorem Ctx.Keeps.assembled {c c' : Ctx} {p : Prototype} (h : c.Keeps c') (hp : c'.Assembled p) :
    c.Assembled p :=
  ⟨fun a => (hp.accesses a).trans (h.accesses a), hp.icTable.trans h.counter,
    hp.prototypes.trans h.prototypes, hp.constants.trans h.constants⟩

/-- The functions of the prototype are sound iff the counts allow it; their keys are strings. -/
def Prototype.Counted (p : Prototype) (counts : List ℕ) : Prop :=
  (p.AllSound ↔ ∀ k ∈ counts, k ≤ icLimit) ∧ ∀ q, p.Function q → q.Keyed

/-- With as many keys as sites, the prototype is sound iff they are not too many. -/
theorem Slots.counted {c : Ctx} {n : ℕ} {nested : List ℕ} {p : Prototype}
    (h : Slots c n [] nested) (hp : c.Assembled p) : p.Counted (n :: nested) := by
  obtain ⟨keys, hlen, hkeys⟩ := h.keys
  have huses : ∀ a, a ∈ accesses p.code ↔ SaturatingSlots.Given icLimit keys a := by
    intro a
    rw [hp.accesses, ← hkeys a]
    exact ⟨Or.inl, fun h => h.resolve_right List.not_mem_nil⟩
  have hsound : p.CacheSound ↔ n ≤ icLimit := by
    rw [← hlen, ← SaturatingSlots.sound_iff huses]
    have htable : p.icTable = min keys.length icLimit := by rw [hp.icTable, h.counter, hlen]
    constructor
    · rintro ⟨hrange, hkey⟩
      rw [← htable]
      exact ⟨hrange, fun a b ha hb => hkey a ha b hb⟩
    · rintro ⟨hrange, hkey⟩
      rw [← htable] at hrange
      exact ⟨hrange, fun a ha b hb => hkey a b ha hb⟩
  constructor
  · rw [Prototype.allSound_iff, hsound, hp.prototypes, h.prototypes, List.forall_mem_cons]
  · refine Prototype.forall_function_iff.2 ⟨fun a ha => ?_, ?_⟩
    · obtain ⟨key, hkey⟩ := h.strings a (Or.inl ((hp.accesses a).1 ha))
      exact ⟨key, by rw [hp.constants]; exact hkey⟩
    · rw [hp.prototypes]
      exact h.keyed

/-- **A function is sound iff the sites of its body, and of the functions nested in it, are not too
many.** -/
theorem counted_functionToChunk {capture : List Enclosing} {params : List Name} {isVararg : Bool}
    {varargName : Option Name} {arity : ℕ} {upvalues : List (Name × UpValueDescriptor)}
    {globals : GlobalEnv} {num : NumOps} {body : CompileM Unit} {child : Ctx} {p : Prototype}
    (hb : Takes varargName s v' body)
    (hchild : functionToChunk capture params isVararg varargName arity upvalues globals num body =
      Except.ok child)
    (hp : assemble child.chunk = Except.ok p) : p.Counted s.counts := by
  obtain ⟨⟨u, c₃⟩, hrun, hchild⟩ := except_bind_eq_ok.1 hchild
  obtain rfl := Except.ok.inj hchild
  obtain ⟨u₁, c₁, hprologue, hrun⟩ := bind_eq_ok.1 hrun
  obtain ⟨u₂, c₂, hbody, hepilogue⟩ := bind_eq_ok.1 hrun
  obtain ⟨hnames, hstart⟩ := slots_functionPrologue hprologue
  obtain ⟨-, -, hslots⟩ := hb c₁ u₂ c₂ hnames hbody
  have hend : Slots c₂ (0 + s.own) [] s.nested := hslots 0 [] [] hstart
  rw [Nat.zero_add] at hend
  exact hend.counted ((keeps_functionEpilogue c₂ u c₃ hepilogue).assembled
    (assembled_of_assemble hp))

/-! ### Closures -/

/-- A nested function takes no slot of the function around it. -/
theorem compileNested_spec {params : List Name} {vararg : Option (Option Name)}
    {body : CompileM Unit} {c c' : Ctx} {p : Prototype} (hb : Takes vararg.join s v' body)
    (h : compileNested params vararg body c = Except.ok (p, c')) :
    c.SameSlots c' ∧ p.Counted s.counts := by
  obtain ⟨x, c₁, h₁, h⟩ := bind_eq_ok.1 h
  obtain ⟨rfl, rfl⟩ := get_eq_ok.1 h₁
  obtain ⟨child, c₂, hchild, h⟩ := bind_eq_ok.1 h
  obtain ⟨child', hchild', hpair⟩ := except_bind_eq_ok.1 hchild
  obtain ⟨rfl, rfl⟩ := Prod.mk.inj (Except.ok.inj hpair)
  cases hca : child'.capture with
  | nil =>
      simp only [hca] at h
      exact absurd h (by simp [throw_eq_ok])
  | cons f capture =>
      simp only [hca] at h
      obtain ⟨u, c₃, h₃, h⟩ := bind_eq_ok.1 h
      obtain ⟨p', hp, hpair⟩ := except_bind_eq_ok.1 h
      obtain ⟨rfl, rfl⟩ := Prod.mk.inj (Except.ok.inj hpair)
      obtain rfl := set_eq_ok.1 h₃
      exact ⟨Ctx.SameSlots.of_same rfl rfl rfl rfl rfl, counted_functionToChunk hb hchild' hp⟩

/-- The prototype is one of the function around it. -/
theorem takes_addPrototype {p : Prototype} (h : p.Counted s.counts) :
    Takes v s.function v
      (modifyChunk fun c => { c with prototypes := c.prototypes ++ [p] }) := by
  intro c u c' hv hm
  obtain rfl := modifyChunk_eq_ok.1 hm
  refine ⟨hv, rfl, fun n owed nested hs => ?_⟩
  refine ⟨hs.solid, hs.keys, hs.counter, hs.bounded, hs.strings, ?_, ?_⟩
  · dsimp only
    rw [List.forall_mem_append, hs.prototypes, List.forall_mem_singleton, h.1,
      List.forall_mem_append]
    rfl
  · exact List.forall_mem_append.2 ⟨hs.keyed, List.forall_mem_singleton.2 h.2⟩

/-- **A closure** has the sites of its body as a function of its own. -/
theorem takes_funcReg {params : List Name} {vararg : Option (Option Name)} {body : CompileM Unit}
    (hb : Takes vararg.join s v' body) (dst : Option ℕ) :
    Takes v s.function v (funcReg params vararg body dst) := by
  have hnested : slotSteps.Obeys (compileNested params vararg body) := fun c p c' h =>
    (compileNested_spec hb h).1
  refine Owes.before_run hnested fun c p c' h => Owes.before obeys_getChunk fun c' => ?_
  refine Takes.after (takes_addPrototype (compileNested_spec hb h).2) fun _ => ?_
  exact Obeys.bind (obeys_dstOrAlloc _) fun _ => Obeys.map (obeys_emit rfl rfl)

end Tcvm
