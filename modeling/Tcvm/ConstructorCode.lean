/-
The code of a table constructor.

The values of the positional items are buffered in the registers above the table and stored in
batches by `SETLIST`; the keyed fields are stored one by one, behind the batch in front of them; a
call or `...` at the end leaves all its values on the stack, and a last `SETLIST` stores what lies
between the table and the top.  The code of a field is any code that keeps to its registers.

The registers are a window of the stack.  A call may leave the stack cut behind its results; what is
written to a register from there on is lost when the stack grows again, and `SETLIST` does not find
it.

* `Building`, `Building.step` — `MOVE`, `SETLIST`, `SETFIELD` and `SETTABLE` on the new table;
* `Effect` — what the code of a field may do;
* `Need` — registers that have to lie on the stack;
* `Ctx.Placed` — the locals lie below the cursor;
* `EntriesRun` — the code of the entries runs, field by field;
* `EntriesFit` — a call at the end is set up in the register next to the pending items;
* `single_spec`, `opened_spec`, `map_spec`, `generic_spec` — what the code of one entry stores.
-/

import Tcvm.RawTable
import Tcvm.RegisterExpr
import Tcvm.ConstructorFields

namespace Tcvm

open CompileM StateExcept Region

/-! ### The machine -/

/-- Some registers, and the length of the stack when they have to lie on it. -/
structure Need where
  first : ℕ
  n : ℕ
  len : ℕ

def Need.Met (need : Need) : Prop := need.n = 0 ∨ need.first + need.n ≤ need.len

instance (need : Need) : Decidable need.Met := inferInstanceAs (Decidable (_ ∨ _))

/-- The registers of the function, the length and the top of the stack above its base, the number
of its registers, the new table, and the stores into it so far. -/
structure Building where
  regs : ℕ → Value
  len : ℕ
  top : ℕ
  size : ℕ
  table : TableId
  stores : List (Value × Value)

namespace Building

def put (s : Building) (r : ℕ) (v : Value) : Building :=
  { s with regs := Function.update s.regs r v }

def store (s : Building) (later : List (Value × Value)) : Building :=
  { s with stores := s.stores ++ later }

/-- The values of `n` registers. -/
def window (s : Building) (first n : ℕ) : List Value :=
  (List.range n).map fun i => s.regs (first + i)

/-- The `n` registers from `first` on have to lie on the stack now. -/
def need (s : Building) (first n : ℕ) : Need := ⟨first, n, s.len⟩

/-- A register holds the new table. -/
def Holds (s : Building) (r : ℕ) : Prop := s.regs r = Value.table s.table

/-- Lengthen the stack to the registers of the function. -/
def restore (s : Building) : Building :=
  if s.len < s.size then
    { s with
      regs := fun r => if s.len ≤ r ∧ r < s.size then Value.nil else s.regs r
      len := s.size }
  else s

/-- `op_setlist`: the elements are read from the stack. -/
def setlist (s : Building) (table count offset : ℕ) : Option Building :=
  let n := if count = 0 then s.top - (table + 1) else count
  if (count = 0 → table + 1 ≤ s.top) ∧ (s.need (table + 1) n).Met then
    let stored := s.store (indexed offset (s.window (table + 1) n))
    some (if count = 0 then stored.restore else stored)
  else none

/-- The instructions by which a constructor fills the new table.  It has no metatable, so the stores
are raw. -/
def step (K : List Value) (s : Building) : Instruction → Option Building
  | Instruction.move dst src => some (s.put dst (s.regs src))
  | Instruction.setlist t count offset =>
      if s.regs t = Value.table s.table then s.setlist t count offset else none
  | Instruction.setfield src t _ keyIdx =>
      if s.regs t = Value.table s.table then
        (K[keyIdx]?).map fun key => s.store [(key, s.regs src)]
      else none
  | Instruction.settable src t key =>
      if s.regs t = Value.table s.table ∧ (s.regs key).isKey then
        some (s.store [(s.regs key, s.regs src)])
      else none
  | _ => none

/-- Such instructions in a row. -/
def steps (K : List Value) : List Instruction → Building → Option Building
  | [], s => some s
  | i :: rest, s => (s.step K i).bind (steps K rest)

end Building

/-- What the code of a field may do.  The table is held by its register alone, so that only a store
through this register reaches it.  Of the registers from this one on, those that lie on the stack
and that no instruction names keep their values; and a call cuts the stack no further than the
registers that an instruction names. -/
structure Effect (table : ℕ) (code : List Instruction) (s s' : Building) : Prop where
  regs : ∀ r, table ≤ r → r < s.len → (∀ i ∈ code, i.mayWrite r = false) → s'.regs r = s.regs r
  len : ∀ n ≤ s.len, (∀ r, table ≤ r → r < n → ∀ i ∈ code, i.mayWrite r = false) → n ≤ s'.len
  stores : (∀ i ∈ code, i.storedTable ≠ some table) → s'.stores = s.stores
  same : s'.table = s.table ∧ s'.size = s.size

theorem Effect.refl (table : ℕ) (code : List Instruction) (s : Building) : Effect table code s s :=
  ⟨fun _ _ _ _ => rfl, fun _ h _ => h, fun _ => rfl, rfl, rfl⟩

/-- The register from which an instruction leaves all its values on the stack. -/
def Instruction.opensAt : Instruction → Option ℕ
  | call func _ 0 => some func
  | vararg dst 0 => some dst
  | _ => none

/-- The locals that names refer to lie below the cursor, and the cursor and the constants are within
their encodings.  The compiler does not keep this: a statement may leave a temp, and a local that is
declared above it gets a register that is freed. -/
structure Ctx.Placed (c : Ctx) : Prop where
  locals : ∀ name d, resolveLocalIn c.scope name = some d → d.kind ≠ VarKind.global →
    d.register < c.chunk.freereg
  top : c.chunk.freereg ≤ noReg
  room : c.chunk.constants.length < 2 ^ 16

/-! ### Runs -/

/-- The code emitted between two contexts. -/
def Ctx.emitted (c c' : Ctx) : List Instruction := c'.chunk.tape.drop c.chunk.tape.length

/-- The value of a positional item, preferably in its slot. -/
def itemValue (value : Expr) (slot : ℕ) : CompileM ℕ :=
  toReg (compileExpr value (some slot)) (some slot)

/-- Put the value of `val` into the slot. -/
def placeItem (val slot : ℕ) : CompileM Unit :=
  if val ≠ slot then do
    allocUpTo (slot + 1)
    emit (Instruction.move slot val)
    freeReg val
  else pure ()

/-- Count the item, and flush a full batch. -/
def countItem (table base count pending : ℕ) : CompileM (ℕ × ℕ) := do
  ensure (count + 1 < 2 ^ 16)
  if 50 ≤ pending + 1 then
    flushArray table base (count + 1) (pending + 1)
    return (count + 1, 0)
  else return (count + 1, pending + 1)

/-- The rest of `arrayItem`, given the register of the value. -/
def settleItem (val table base count pending : ℕ) : CompileM (ℕ × ℕ) := do
  placeItem val (base + pending)
  countItem table base count pending

/-- The `SETLIST` behind a multi-result item. -/
def closeItem (table base count pending : ℕ) : CompileM Unit := do
  emit (Instruction.setlist table 0 (count - pending))
  setFreereg base

/-- A trailing call or `...`. -/
def isOpen (value : Expr) (rest : List TableEntry) : Bool :=
  rest.isEmpty && (compileMultires value).isMulti

/-- How many items the item that comes next stores: all that are pending, when the batch is full. -/
def batch (pending : ℕ) : ℕ := if 50 ≤ pending + 1 then pending + 1 else 0

/-- The compilation of the entries and the run of their code, side by side: the code of the values
has any effect that its instructions allow, the code between them is executed.  A run gives the
fields, the needs that it comes to, and the state at the end, or nothing if a `SETLIST` fails.  What
is pending has to lie on the stack when the code of a further value begins. -/
inductive EntriesRun (K : List Value) (table base : ℕ) :
    List TableEntry → ℕ → ℕ → Ctx → Building → List Field → List Need → Ctx → Option Building → Prop
  | done {count pending : ℕ} {c c' : Ctx} {s : Building} {o : Option Building}
      (hflush : flushArray table base count pending c = Except.ok ((), c'))
      (hstore : s.steps K (c.emitted c') = o) :
      EntriesRun K table base [] count pending c s [] [s.need (table + 1) pending] c' o
  | single {value : Expr} {rest : List TableEntry} {count pending val : ℕ} {next : ℕ × ℕ}
      {c c₁ c₂ c' : Ctx} {s s₁ s₂ : Building} {o : Option Building} {fields : List Field}
      {needs : List Need} (hsingle : isOpen value rest = false)
      (hvalue : itemValue value (base + pending) c = Except.ok (val, c₁))
      (heffect : Effect table (c.emitted c₁) s s₁)
      (hsettle : settleItem val table base count pending c₁ = Except.ok (next, c₂))
      (hstore : s₁.steps K (c₁.emitted c₂) = some s₂)
      (hrest : EntriesRun K table base rest next.1 next.2 c₂ s₂ fields needs c' o) :
      EntriesRun K table base (TableEntry.array value :: rest) count pending c s
        (Field.positional (s₁.regs val) :: fields)
        (s.need table (pending + 1) :: s₁.need (table + 1) (batch pending) :: needs) c' o
  | single_fails {value : Expr} {rest : List TableEntry} {count pending val : ℕ} {next : ℕ × ℕ}
      {c c₁ c₂ c' : Ctx} {s s₁ : Building} (hsingle : isOpen value rest = false)
      (hvalue : itemValue value (base + pending) c = Except.ok (val, c₁))
      (heffect : Effect table (c.emitted c₁) s s₁)
      (hsettle : settleItem val table base count pending c₁ = Except.ok (next, c₂))
      (hstore : s₁.steps K (c₁.emitted c₂) = none) :
      EntriesRun K table base (TableEntry.array value :: rest) count pending c s []
        [s.need table (pending + 1), s₁.need (table + 1) (batch pending)] c' none
  | opened {value : Expr} {count pending land : ℕ} {b : Bool} {c c₁ c' : Ctx} {s s₁ : Building}
      {o : Option Building} (hopen : isOpen value [] = true)
      (hvalue : trailingMultires (compileMultires value) (throw Fault.panic) (base + pending) c =
        Except.ok (b, c₁))
      (heffect : Effect table (c.emitted c₁) s s₁)
      (hland : (c.emitted c₁).getLast?.bind Instruction.opensAt = some land) (htop : land ≤ s₁.top)
      (hclose : closeItem table base count pending c₁ = Except.ok ((), c'))
      (hstore : s₁.steps K (c₁.emitted c') = o) :
      EntriesRun K table base [TableEntry.array value] count pending c s
        [Field.opened (s₁.window land (s₁.top - land))]
        [s.need table (pending + 1), s₁.need (table + 1) (s₁.top - (table + 1))] c' o
  | flush_fails {entry : TableEntry} {rest : List TableEntry} {count pending : ℕ} {c c₁ c' : Ctx}
      {s : Building} (hkeyed : ∀ value, entry ≠ TableEntry.array value)
      (hflush : flushArray table base count pending c = Except.ok ((), c₁))
      (hflushed : s.steps K (c.emitted c₁) = none) :
      EntriesRun K table base (entry :: rest) count pending c s [] [s.need (table + 1) pending] c'
        none
  | map {field : Name} {value : Expr} {rest : List TableEntry} {count pending val : ℕ}
      {key : ℕ × ℕ} {c c₁ c₂ c₃ c₄ c' : Ctx} {s s₁ s₂ s₃ : Building} {o : Option Building}
      {fields : List Field} {needs : List Need}
      (hflush : flushArray table base count pending c = Except.ok ((), c₁))
      (hflushed : s.steps K (c.emitted c₁) = some s₁)
      (hkey : allocFieldKey field c₁ = Except.ok (key, c₂))
      (hvalue : toReg (compileExpr value none) none c₂ = Except.ok (val, c₃))
      (heffect : Effect table (c₂.emitted c₃) s₁ s₂)
      (hset : (do
        emit (Instruction.setfield val table key.2 key.1)
        freeReg val : CompileM Unit) c₃ = Except.ok ((), c₄))
      (hstore : s₂.steps K (c₃.emitted c₄) = some s₃)
      (hrest : EntriesRun K table base rest count 0 c₄ s₃ fields needs c' o) :
      EntriesRun K table base (TableEntry.map field value :: rest) count pending c s
        (Field.keyed (Value.string field) (s₂.regs val) :: fields)
        (s.need (table + 1) pending :: s₁.need table 1 :: needs) c' o
  /-- A key in the register of a local is read when the value has been computed, another has to lie
  on the stack until then. -/
  | generic {index value : Expr} {rest : List TableEntry} {count pending key val : ℕ}
      {c c₁ c₂ c₃ c₄ c' : Ctx} {s s₁ s₂ s₃ s₄ : Building} {o : Option Building}
      {fields : List Field} {needs : List Need}
      (hflush : flushArray table base count pending c = Except.ok ((), c₁))
      (hflushed : s.steps K (c.emitted c₁) = some s₁)
      (hkey : toReg (compileExpr index none) none c₁ = Except.ok (key, c₂))
      (heffect : Effect table (c₁.emitted c₂) s₁ s₂)
      (hvalue : toReg (compileExpr value none) none c₂ = Except.ok (val, c₃))
      (heffect' : Effect table (c₂.emitted c₃) s₂ s₃)
      (hset : (do
        emit (Instruction.settable val table key)
        freeRegs val key : CompileM Unit) c₃ = Except.ok ((), c₄))
      (hstore : s₃.steps K (c₃.emitted c₄) = some s₄)
      (hrest : EntriesRun K table base rest count 0 c₄ s₄ fields needs c' o) :
      EntriesRun K table base (TableEntry.generic index value :: rest) count pending c s
        (Field.keyed (if key < table then s₃.regs key else s₂.regs key) (s₃.regs val) :: fields)
        (s.need (table + 1) pending :: s₁.need table 1 :: s₂.need table 1 ::
          s₂.need key (if key < table then 0 else 1) :: needs) c' o

/-! ### Trailing calls that fit -/

/-- The call is set up in the slot. -/
def Multires.LandsAt (slot : ℕ) (c : Ctx) : Multires → Prop
  | funcCall setup =>
      ∀ p c', (do allocUpTo slot; setup : CompileM (ℕ × ℕ)) c = Except.ok (p, c') → p.1 = slot
  | method setup =>
      ∀ p c', (do allocUpTo slot; setup : CompileM (ℕ × ℕ)) c = Except.ok (p, c') → p.1 = slot
  | _ => True

/-- When the compiler comes to a call at the end, it sets the call up in the register next to the
pending items. -/
def EntriesFit : List TableEntry → ℕ → ℕ → ℕ → ℕ → Ctx → Prop
  | [], _, _, _, _, _ => True
  | TableEntry.array value :: rest, table, base, count, pending, c =>
      if isOpen value rest then (compileMultires value).LandsAt (base + pending) c
      else
        ∀ val next c₁ c', itemValue value (base + pending) c = Except.ok (val, c₁) →
          settleItem val table base count pending c₁ = Except.ok (next, c') →
            EntriesFit rest table base next.1 next.2 c'
  | TableEntry.map field value :: rest, table, base, count, pending, c =>
      ∀ u c', mapItem field (toReg (compileExpr value none) none) table base count pending c =
        Except.ok (u, c') → EntriesFit rest table base count 0 c'
  | TableEntry.generic index value :: rest, table, base, count, pending, c =>
      ∀ u c', genericItem (toReg (compileExpr index none) none)
        (toReg (compileExpr value none) none) table base count pending c = Except.ok (u, c') →
          EntriesFit rest table base count 0 c'

/-! ### What the compiler emits -/

variable {c c' : Ctx} {s s' : Building} {table base count pending : ℕ} {K : List Value}

theorem emitted_of_append {code : List Instruction} (h : c'.chunk.tape = c.chunk.tape ++ code) :
    c.emitted c' = code := by
  rw [Ctx.emitted, h, List.drop_left]

theorem emitted_self : c.emitted c = [] := List.drop_length

theorem getElem?_of_prefix {α : Type} {l l' : List α} {q : ℕ} {x : α} (h : l <+: l')
    (hx : l[q]? = some x) : l'[q]? = some x := by
  obtain ⟨t, rfl⟩ := h
  rw [List.getElem?_append_left (List.getElem?_eq_some_iff.1 hx).1]
  exact hx

theorem not_mayWrite_of_allows {b : Region} {i : Instruction} {r : ℕ} (hb : b.target = none)
    (hlocals : b.locals ≤ r) (hr : r < b.floor) (h : b.Allows i.output) : i.mayWrite r = false := by
  unfold Instruction.mayWrite
  cases hout : i.output with
  | nothing => rfl
  | register dst =>
      rw [hout] at h
      rcases h with hle | hlt | ht
      · simpa using by omega
      · simpa using by omega
      · exact absurd ht (by simp [hb])
  | above low =>
      rw [hout] at h
      have hle : b.floor ≤ low := h
      simpa using by omega

/-- Code in a region is emitted behind what was there. -/
theorem tape_of_holds {locals floor : ℕ} (h : (c.region locals floor).Holds c') :
    c'.chunk.tape = c.chunk.tape ++ c.emitted c' := by
  have hcode : c'.chunk.tape.take c.chunk.tape.length = c.chunk.tape := h.code
  rw [Ctx.emitted]
  nth_rewrite 1 [← List.take_append_drop c.chunk.tape.length c'.chunk.tape]
  rw [hcode]

theorem allows_of_emitted {locals floor : ℕ} (h : (c.region locals floor).Holds c')
    {i : Instruction} (hi : i ∈ c.emitted c') : (c.region locals floor).Allows i.touches := by
  obtain ⟨k, hk⟩ := List.mem_iff_getElem?.1 hi
  rw [Ctx.emitted, List.getElem?_drop] at hk
  exact h.writes _ i (Nat.le_add_right _ _) hk

/-- Code in a region leaves the table alone, and the registers between it and the region as long as
they lie on the stack, where they remain. -/
theorem Effect.frame {floor : ℕ} (h : Effect table (c.emitted c') s s')
    (hc : (c.region table floor).Holds c') (hfloor : table < floor) (hlen : floor ≤ s.len) :
    (∀ r, table ≤ r → r < floor → s'.regs r = s.regs r) ∧ s'.stores = s.stores ∧
      floor ≤ s'.len ∧ (s.Holds table → s'.Holds table) := by
  have hfree : ∀ r, table ≤ r → r < floor → ∀ i ∈ c.emitted c', i.mayWrite r = false :=
    fun r hr hlt i hi => not_mayWrite_of_allows rfl hr hlt (allows_of_emitted hc hi).output
  have hregs : ∀ r, table ≤ r → r < floor → s'.regs r = s.regs r :=
    fun r hr hlt => h.regs r hr (by omega) (hfree r hr hlt)
  refine ⟨hregs, h.stores fun i hi hstored => ?_, h.len floor hlen hfree, fun hs => ?_⟩
  · have hallows := allows_of_emitted hc hi
    rw [Instruction.touches, hstored] at hallows
    rcases hallows with hle | hlt | htarget
    · have hle : floor ≤ table := hle
      omega
    · have hlt : table < table := hlt
      omega
    · exact absurd htarget (by simp [Ctx.region, Ctx.regionWith])
  · rw [Building.Holds, hregs table (Nat.le_refl _) hfloor, hs, h.same.1]

theorem allocUpTo_spec {n : ℕ} {u : Unit} (h : allocUpTo n c = Except.ok (u, c')) :
    Quiet c c' ∧ c'.chunk.freereg = max n c.chunk.freereg := by
  have hrun : ∀ (l : List ℕ) (c c' : Ctx) (u : Unit),
      (l.forM fun _ => do
        let _ ← allocRegister : CompileM Unit) c = Except.ok (u, c') →
        Quiet c c' ∧ c'.chunk.freereg = c.chunk.freereg + l.length := by
    intro l
    induction l with
    | nil =>
        intro c c' u h
        obtain ⟨-, rfl⟩ := pure_eq_ok.1 h
        exact ⟨Quiet.refl c, rfl⟩
    | cons x l ih =>
        intro c c' u h
        obtain ⟨v, c₁, h₁, hrest⟩ := bind_eq_ok.1 h
        obtain ⟨r, c₂, h₂, hpure⟩ := bind_eq_ok.1 h₁
        obtain ⟨-, rfl⟩ := pure_eq_ok.1 hpure
        obtain ⟨hquiet, -, -, hr, hfree⟩ := reserveReg_spec h₂
        obtain ⟨hquiet', hfree'⟩ := ih _ _ _ hrest
        refine ⟨hquiet.trans hquiet', ?_⟩
        rw [hfree', hfree, hr, List.length_cons]
        omega
  obtain ⟨ch, c₁, h₁, hrest⟩ := bind_eq_ok.1 h
  obtain ⟨rfl, rfl⟩ := getChunk_eq_ok.1 h₁
  obtain ⟨hquiet, hfree⟩ := hrun _ _ _ _ hrest
  refine ⟨hquiet, ?_⟩
  rw [hfree, List.length_range]
  omega

/-! ### Batches -/

/-- The compiler is ready for an entry: the slots of the table, of the pending items and of nothing
else are set, and the locals lie below. -/
structure EntryReady (table base count pending : ℕ) (c : Ctx) : Prop where
  locals : (c.region table base).LocalsBelow
  above : c.chunk.nactvar ≤ table
  next : base = table + 1
  slots : base + pending ≤ c.chunk.freereg
  top : c.chunk.freereg ≤ noReg
  room : c.chunk.constants.length < 2 ^ 16
  counted : pending ≤ count

/-- What has been compiled before is still there. -/
structure Behind (c c' : Ctx) : Prop where
  nactvar : c'.chunk.nactvar = c.chunk.nactvar
  constants : c.chunk.constants <+: c'.chunk.constants
  tape : c.chunk.tape <+: c'.chunk.tape

theorem Behind.refl (c : Ctx) : Behind c c := ⟨rfl, List.prefix_refl _, List.prefix_refl _⟩

theorem Behind.trans {c'' : Ctx} (h : Behind c c') (h' : Behind c' c'') : Behind c c'' :=
  ⟨h'.nactvar.trans h.nactvar, h.constants.trans h'.constants, h.tape.trans h'.tape⟩

theorem Behind.of_holds {locals floor : ℕ} (h : (c.region locals floor).Holds c') : Behind c c' :=
  ⟨h.nactvar, h.constants, by rw [tape_of_holds h]; exact List.prefix_append _ _⟩

theorem EntryReady.holds (hr : EntryReady table base count pending c) :
    (c.region table (base + pending)).Holds c := by
  have hnext := hr.next
  exact holds_region hr.above (Or.inl (by omega)) hr.slots hr.top hr.room

theorem EntryReady.localsBelow (hr : EntryReady table base count pending c) (floor : ℕ) :
    (c.region table floor).LocalsBelow := hr.locals

theorem EntryReady.of_holds (hr : EntryReady table base count pending c)
    (h : (c.region table (base + pending)).Holds c') : EntryReady table base count pending c' where
  locals name d hname hkind := by
    have hs : c'.scope = c.scope := h.scope
    have hname : resolveLocalIn c'.scope name = some d := hname
    rw [hs] at hname
    exact hr.locals name d hname hkind
  above := by
    have hn : c'.chunk.nactvar = c.chunk.nactvar := h.nactvar
    rw [hn]
    exact hr.above
  next := hr.next
  slots := h.floor
  top := h.top
  room := h.room
  counted := hr.counted

theorem Building.store_nil (s : Building) : s.store [] = s := by
  rw [Building.store, List.append_nil]

@[simp] theorem Building.window_zero (s : Building) (first : ℕ) : s.window first 0 = [] := rfl

@[simp] theorem Building.length_window (s : Building) (first n : ℕ) :
    (s.window first n).length = n := by
  rw [Building.window, List.length_map, List.length_range]

theorem Building.window_succ (s : Building) (first n : ℕ) :
    s.window first (n + 1) = s.window first n ++ [s.regs (first + n)] := by
  rw [Building.window, List.range_succ, List.map_append]
  rfl

theorem Building.window_add (s : Building) (first n m : ℕ) :
    s.window first (n + m) = s.window first n ++ s.window (first + n) m := by
  rw [Building.window, List.range_add, List.map_append, List.map_map]
  congr 1
  refine List.map_congr_left fun i _ => ?_
  rw [Function.comp_apply, Nat.add_assoc]

theorem Building.window_congr {n first : ℕ}
    (h : ∀ i, i < n → s'.regs (first + i) = s.regs (first + i)) :
    s'.window first n = s.window first n :=
  List.map_congr_left fun i hi => h i (List.mem_range.1 hi)

@[simp] theorem Building.restore_stores (s : Building) : s.restore.stores = s.stores := by
  unfold Building.restore
  split <;> rfl

/-- One register or more. -/
theorem Building.need_succ_met (s : Building) (first n : ℕ) :
    (s.need first (n + 1)).Met ↔ first + n + 1 ≤ s.len := by
  refine ⟨fun h => h.resolve_left (Nat.succ_ne_zero n), Or.inr⟩

/-- The pending items are stored. -/
def Building.flushed (s : Building) (table count pending : ℕ) : Building :=
  s.store (indexed (count - pending) (s.window (table + 1) pending))

theorem Building.setlist_of_met {n offset : ℕ} (hn : n ≠ 0) (h : (s.need (table + 1) n).Met) :
    s.setlist table n offset = some (s.store (indexed offset (s.window (table + 1) n))) := by
  simp only [Building.setlist, if_neg hn]
  rw [if_pos ⟨fun h0 => absurd h0 hn, h⟩]

theorem flush_spec {u : Unit} (hr : EntryReady table base count pending c)
    (h : flushArray table base count pending c = Except.ok (u, c')) :
    EntryReady table base count 0 c' ∧ Behind c c' ∧
      ∀ K s, s.Holds table → (s.need (table + 1) pending).Met →
        Building.steps K (c.emitted c') s = some (s.flushed table count pending) := by
  unfold flushArray at h
  have hslots := hr.slots
  split at h
  · rename_i hpos
    obtain ⟨v, c₁, h₁, hrest⟩ := bind_eq_ok.1 h
    obtain rfl := emit_eq_ok.1 h₁
    obtain rfl := setFreereg_eq_ok.1 hrest
    have htop := hr.top
    refine ⟨⟨hr.locals, hr.above, hr.next, Nat.le_refl _, ?_, hr.room, Nat.zero_le _⟩,
      ⟨rfl, List.prefix_refl _, List.prefix_append _ _⟩, fun K s hs hmet => ?_⟩
    · show base ≤ noReg
      omega
    · have hcode : c.emitted
          { c with chunk := { c.chunk with
            tape := c.chunk.tape ++ [Instruction.setlist table pending (count - pending)]
            freereg := base } } = [Instruction.setlist table pending (count - pending)] :=
        emitted_of_append rfl
      rw [hcode]
      have hs : s.regs table = Value.table s.table := hs
      simp only [Building.steps, Building.step, if_pos hs,
        Building.setlist_of_met (Nat.ne_of_gt hpos) hmet]
      rfl
  · rename_i hpos
    obtain ⟨-, rfl⟩ := pure_eq_ok.1 h
    have hzero : pending = 0 := by omega
    subst hzero
    refine ⟨⟨hr.locals, hr.above, hr.next, by omega, hr.top, hr.room, Nat.zero_le _⟩,
      Behind.refl c, fun K s _ _ => ?_⟩
    rw [emitted_self, Building.flushed, Building.window_zero]
    exact congrArg some s.store_nil.symm

/-! ### One item -/

theorem freeReg_cursor {r : ℕ} {u : Unit} (h : freeReg r c = Except.ok (u, c')) :
    (r < c.chunk.nactvar ∧ c'.chunk.freereg = c.chunk.freereg) ∨
      (c.chunk.freereg = r + 1 ∧ c'.chunk.freereg = r) := by
  unfold freeReg at h
  obtain ⟨ch, c₁, h₁, hrest⟩ := bind_eq_ok.1 h
  obtain ⟨rfl, rfl⟩ := getChunk_eq_ok.1 h₁
  split at hrest
  · obtain ⟨n, c₂, h₂, hrest'⟩ := bind_eq_ok.1 hrest
    obtain ⟨-, rfl, rfl⟩ := addU8_eq_ok.1 h₂
    obtain ⟨v, c₃, h₃, hset⟩ := bind_eq_ok.1 hrest'
    obtain ⟨hnext, rfl⟩ := ensure_eq_ok.1 h₃
    have hnext : r + 1 = c.chunk.freereg := by simpa using hnext
    obtain rfl := setFreereg_eq_ok.1 hset
    refine Or.inr ⟨hnext.symm, ?_⟩
    show c.chunk.freereg - 1 = r
    omega
  · rename_i hlt
    obtain ⟨-, rfl⟩ := pure_eq_ok.1 hrest
    exact Or.inl ⟨by omega, rfl⟩

/-- The value is put into its slot, which becomes the last one of the temps in use. -/
theorem place_spec {val slot : ℕ} {u : Unit} {c₀ : Ctx} (hslot : table < slot)
    (hc : (c₀.region table slot).Holds c) (hval : (c₀.region table slot).Reserved val c)
    (h : placeItem val slot c = Except.ok (u, c')) :
    (c₀.region table slot).Holds c' ∧ Behind c c' ∧ slot + 1 ≤ c'.chunk.freereg ∧
      ∀ K s, Building.steps K (c.emitted c') s = some (s.put slot (s.regs val)) := by
  unfold placeItem at h
  split at h
  · rename_i hne
    obtain ⟨v, c₁, h₁, hrest⟩ := bind_eq_ok.1 h
    obtain ⟨w, c₂, h₂, hfree⟩ := bind_eq_ok.1 hrest
    obtain ⟨hc₁, -⟩ := stays_allocUpTo (slot + 1) c v c₁ hc h₁
    obtain ⟨hc₂, -⟩ := stays_emit (i := Instruction.move slot val) (Or.inl (Nat.le_refl _))
      c₁ w c₂ hc₁ h₂
    obtain ⟨hc', -⟩ := stays_freeReg hval.1 c₂ u c' hc₂ hfree
    obtain ⟨hquiet, hcur⟩ := allocUpTo_spec h₁
    have hquiet' := freeReg_spec hfree
    have hcur' := freeReg_cursor hfree
    obtain rfl := emit_eq_ok.1 h₂
    have htape : c'.chunk.tape = c.chunk.tape ++ [Instruction.move slot val] := by
      rw [hquiet'.tape, ← hquiet.tape]
    refine ⟨hc', ⟨?_, ?_, ?_⟩, ?_, fun K s => ?_⟩
    · exact hquiet'.nactvar.trans hquiet.nactvar
    · exact hquiet.constants.trans hquiet'.constants
    · rw [htape]
      exact List.prefix_append _ _
    · have hcur : c₁.chunk.freereg = max (slot + 1) c.chunk.freereg := hcur
      rcases hcur' with ⟨-, hcur'⟩ | ⟨-, hcur'⟩
      · rw [hcur']
        exact Nat.le_trans (Nat.le_max_left _ _) (Nat.le_of_eq hcur.symm)
      · -- a temp other than the slot lies above it
        rw [hcur']
        rcases hval.1 with hlt | hge
        · have hlt : val < table := hlt
          have hfree : slot ≤ c'.chunk.freereg := hc'.floor
          omega
        · have hge : slot ≤ val := hge
          omega
    · rw [emitted_of_append htape]
      rfl
  · rename_i heq
    have heq : val = slot := by simpa using heq
    subst heq
    obtain ⟨-, rfl⟩ := pure_eq_ok.1 h
    refine ⟨hc, Behind.refl c, ?_, fun K s => ?_⟩
    · rcases hval.2 with hlt | hlt
      · have hlt : val < table := hlt
        omega
      · exact hlt
    · rw [emitted_self, Building.put, Function.update_eq_self]
      rfl

theorem steps_append {code code' : List Instruction} {s₁ : Building}
    (h : Building.steps K code s = some s₁) :
    Building.steps K (code ++ code') s = Building.steps K code' s₁ := by
  induction code generalizing s with
  | nil =>
      obtain rfl := Option.some.inj h
      rfl
  | cons i code ih =>
      obtain ⟨s₂, h₂, hrest⟩ := Option.bind_eq_some_iff.1 h
      rw [List.cons_append, Building.steps, h₂]
      exact ih hrest

theorem emitted_trans {c'' : Ctx} (h : c.chunk.tape <+: c'.chunk.tape)
    (h' : c'.chunk.tape <+: c''.chunk.tape) : c.emitted c'' = c.emitted c' ++ c'.emitted c'' := by
  obtain ⟨t, ht⟩ := h
  obtain ⟨t', ht'⟩ := h'
  rw [emitted_of_append ht.symm, emitted_of_append ht'.symm]
  refine emitted_of_append ?_
  rw [← ht', ← ht, List.append_assoc]

/-- The state behind an item with value `v`. -/
def Building.settled (s : Building) (table base count pending : ℕ) (v : Value) : Building :=
  if 50 ≤ pending + 1 then (s.put (base + pending) v).flushed table (count + 1) (pending + 1)
  else s.put (base + pending) v

theorem count_spec {next : ℕ × ℕ} (hr : EntryReady table base (count + 1) (pending + 1) c)
    (h : countItem table base count pending c = Except.ok (next, c')) :
    EntryReady table base next.1 next.2 c' ∧ Behind c c' ∧ count + 1 < 2 ^ 16 ∧
      next = (count + 1, if 50 ≤ pending + 1 then 0 else pending + 1) ∧
      ∀ K s, s.Holds table → (s.need (table + 1) (batch pending)).Met →
        Building.steps K (c.emitted c') s =
          some (if 50 ≤ pending + 1 then s.flushed table (count + 1) (pending + 1) else s) := by
  unfold countItem at h
  obtain ⟨u, c₁, h₁, hrest⟩ := bind_eq_ok.1 h
  obtain ⟨hlt, rfl⟩ := ensure_eq_ok.1 h₁
  have hlt : count + 1 < 2 ^ 16 := by simpa using hlt
  split at hrest
  · rename_i hfull
    obtain ⟨v, c₂, h₂, hpure⟩ := bind_eq_ok.1 hrest
    obtain ⟨rfl, rfl⟩ := pure_eq_ok.1 hpure
    obtain ⟨hr', hbehind, hsteps⟩ := flush_spec hr h₂
    refine ⟨hr', hbehind, hlt, by rw [if_pos hfull], fun K s hs hmet => ?_⟩
    rw [batch, if_pos hfull] at hmet
    rw [if_pos hfull]
    exact hsteps K s hs hmet
  · rename_i hfull
    obtain ⟨rfl, rfl⟩ := pure_eq_ok.1 hrest
    refine ⟨hr, Behind.refl c, hlt, by rw [if_neg hfull], fun K s _ _ => ?_⟩
    rw [emitted_self, if_neg hfull]
    rfl

theorem Building.put_holds {r : ℕ} {v : Value} (hr : table ≠ r) :
    (s.put r v).Holds table ↔ s.Holds table := by
  have hget : (s.put r v).regs table = s.regs table := Function.update_of_ne hr _ _
  rw [Building.Holds, hget]
  rfl

theorem Building.settled_holds {v : Value} (hbase : base = table + 1) :
    (s.settled table base count pending v).Holds table ↔ s.Holds table := by
  have hput : (s.put (base + pending) v).Holds table ↔ s.Holds table :=
    Building.put_holds (by omega)
  unfold Building.settled
  split
  · exact hput
  · exact hput

/-- One item is pending more, or a batch is stored. -/
theorem settle_spec {val : ℕ} {next : ℕ × ℕ} {c₀ : Ctx}
    (hr : EntryReady table base count pending c₀)
    (hc : (c₀.region table (base + pending)).Holds c)
    (hval : (c₀.region table (base + pending)).Reserved val c)
    (h : settleItem val table base count pending c = Except.ok (next, c')) :
    EntryReady table base next.1 next.2 c' ∧ Behind c c' ∧ count + 1 < 2 ^ 16 ∧
      next = (count + 1, if 50 ≤ pending + 1 then 0 else pending + 1) ∧
      ∀ K s, s.Holds table → (s.need (table + 1) (batch pending)).Met →
        Building.steps K (c.emitted c') s =
          some (s.settled table base count pending (s.regs val)) := by
  have hnext := hr.next
  have hcounted := hr.counted
  obtain ⟨u, c₁, h₁, hrest⟩ := bind_eq_ok.1 h
  obtain ⟨hc₁, hbehind₁, hcur, hsteps₁⟩ := place_spec (by omega) hc hval h₁
  obtain ⟨hlocals, habove, -, -, htop, hroom, -⟩ := hr.of_holds hc₁
  have hr₁ : EntryReady table base (count + 1) (pending + 1) c₁ :=
    ⟨hlocals, habove, hnext, by omega, htop, hroom, by omega⟩
  obtain ⟨hr', hbehind', hlt, hpair, hsteps'⟩ := count_spec hr₁ hrest
  refine ⟨hr', hbehind₁.trans hbehind', hlt, hpair, fun K s hs hmet => ?_⟩
  rw [emitted_trans hbehind₁.tape hbehind'.tape, steps_append (hsteps₁ K s),
    hsteps' K _ ((Building.put_holds (by omega)).2 hs) hmet, Building.settled]

/-- The item is stored, or the last of the pending ones. -/
theorem settled_stores (s : Building) (v : Value) (hbase : base = table + 1)
    (hle : pending ≤ count) :
    (s.settled table base count pending v).stores ++
        indexed (count + 1 - if 50 ≤ pending + 1 then 0 else pending + 1)
          ((s.settled table base count pending v).window (table + 1)
            (if 50 ≤ pending + 1 then 0 else pending + 1)) =
      s.stores ++ indexed (count - pending) (s.window (table + 1) pending) ++
        [(itemKey (count + 1), v)] := by
  have hwindow : (s.put (base + pending) v).window (table + 1) (pending + 1) =
      s.window (table + 1) pending ++ [v] := by
    rw [Building.window_succ, hbase]
    congr 1
    · refine Building.window_congr fun i hi => ?_
      exact Function.update_of_ne (by omega) _ _
    · exact congrArg (fun w => [w]) (Function.update_self _ _ _)
  have hstored : indexed (count + 1 - (pending + 1)) (s.window (table + 1) pending ++ [v]) =
      indexed (count - pending) (s.window (table + 1) pending) ++ [(itemKey (count + 1), v)] := by
    rw [Nat.add_sub_add_right, indexed_append, Building.length_window, Nat.sub_add_cancel hle]
    rfl
  unfold Building.settled
  split
  · rw [Building.window_zero, indexed, List.append_nil, Building.flushed, hwindow, hstored,
      List.append_assoc]
    rfl
  · rw [hwindow, hstored, List.append_assoc]
    rfl

/-! ### Fields -/

/-- The code of a positional value keeps to the slot and what is above it. -/
theorem value_spec {value : Expr} {val : ℕ} (hr : EntryReady table base count pending c)
    (h : itemValue value (base + pending) c = Except.ok (val, c')) :
    (c.region table (base + pending)).Holds c' ∧
      (c.region table (base + pending)).Reserved val c' := by
  have hhint : (c.region table (base + pending)).Hint (some (base + pending)) :=
    Hint.of_floor (Nat.le_refl _)
  exact stays_toReg (stays_compileExpr value _ _ (hr.localsBelow _) hhint) hhint c val c' hr.holds h

/-- The code of a key or of its value keeps to the temps that are free. -/
theorem operand_spec {value : Expr} {val : ℕ} (hr : EntryReady table base count 0 c)
    (h : toReg (compileExpr value none) none c = Except.ok (val, c')) :
    (c.region table c.chunk.freereg).Holds c' ∧
      (c.region table c.chunk.freereg).Reserved val c' ∧ EntryReady table base count 0 c' := by
  have hnext := hr.next
  have hslots := hr.slots
  have hin : (c.region table c.chunk.freereg).Holds c :=
    holds_region hr.above (Or.inl (by omega)) (Nat.le_refl _) hr.top hr.room
  obtain ⟨hc, hval⟩ := stays_toReg
    (stays_compileExpr value _ _ (hr.localsBelow _) Hint.none) Hint.none c
    val c' hin h
  exact ⟨hc, hval, hr.of_holds (hr.holds.of_region hr.slots hc)⟩

theorem fieldKey_spec {field : Name} {key : ℕ × ℕ} (hr : EntryReady table base count 0 c)
    (h : allocFieldKey field c = Except.ok (key, c')) :
    EntryReady table base count 0 c' ∧ Behind c c' ∧ c'.chunk.tape = c.chunk.tape ∧
      c'.chunk.constants[key.1]? = some (Value.string field) := by
  obtain ⟨hc, -⟩ := stays_allocFieldKey field c key c' hr.holds h
  obtain ⟨idx, c₁, h₁, hrest⟩ := bind_eq_ok.1 h
  obtain ⟨hquiet, hidx, -⟩ := allocConstant_spec h₁ hr.room
  obtain ⟨ic, c₂, h₂, hpure⟩ := bind_eq_ok.1 hrest
  obtain ⟨rfl, rfl⟩ := pure_eq_ok.1 hpure
  obtain ⟨ch, c₃, h₃, hslot⟩ := bind_eq_ok.1 h₂
  obtain ⟨rfl, rfl⟩ := getChunk_eq_ok.1 h₃
  obtain ⟨u, c₄, h₄, hpure'⟩ := bind_eq_ok.1 hslot
  obtain rfl := modifyChunk_eq_ok.1 h₄
  obtain ⟨-, rfl⟩ := pure_eq_ok.1 hpure'
  exact ⟨hr.of_holds hc, Behind.of_holds hc, hquiet.tape, hidx⟩

/-- A store into the table; its operands are freed. -/
theorem stored_spec {i : Instruction} {free : CompileM Unit} {u : Unit}
    (hr : EntryReady table base count 0 c)
    (hfree : ∀ b : Region, b.locals = table → b.floor = base → b.Stays free fun _ _ => True)
    (hquiet : ∀ c c' u, free c = Except.ok (u, c') → Quiet c c')
    (h : (do emit i; free : CompileM Unit) c = Except.ok (u, c')) :
    EntryReady table base count 0 c' ∧ Behind c c' ∧ c.emitted c' = [i] := by
  obtain ⟨v, c₁, h₁, hrest⟩ := bind_eq_ok.1 h
  have hquiet' := hquiet _ _ _ hrest
  obtain rfl := emit_eq_ok.1 h₁
  let c₁ : Ctx := { c with chunk := { c.chunk with tape := c.chunk.tape ++ [i] } }
  have hr₁ : EntryReady table base count 0 c₁ :=
    ⟨hr.locals, hr.above, hr.next, hr.slots, hr.top, hr.room, hr.counted⟩
  obtain ⟨hc, -⟩ := hfree (c₁.region table base) rfl rfl c₁ u c' hr₁.holds hrest
  have htape : c'.chunk.tape = c.chunk.tape ++ [i] := hquiet'.tape
  refine ⟨hr₁.of_holds hc, ⟨hquiet'.nactvar, hquiet'.constants, ?_⟩, emitted_of_append htape⟩
  rw [htape]
  exact List.prefix_append _ _

/-- A reserved register of a smaller region. -/
theorem owns_of_reserved {b : Region} {floor r : ℕ} (hlocals : b.locals = table)
    (hfloor : b.floor ≤ floor) (h : (c.region table floor).Reserved r c') : b.Owns r := by
  rcases h.1 with hlt | hge
  · have hlt : r < table := hlt
    exact Or.inl (by omega)
  · have hge : floor ≤ r := hge
    exact Or.inr (by omega)

/-! ### Trailing items -/

theorem funcCallSetup_register {b : Region} {target : CompileM ℕ} {args : ℕ → CompileM ℕ}
    {p : ℕ × ℕ} (hc : b.Holds c) (ht : b.Stays target b.Reserved)
    (h : funcCallSetup target args c = Except.ok (p, c')) : p.1 ≤ noReg := by
  have hlast : ∀ func c, func ≤ noReg → (do
      let argsWire ← args func
      return (func, argsWire) : CompileM (ℕ × ℕ)) c = Except.ok (p, c') → p.1 ≤ noReg := by
    intro func c hfunc h
    obtain ⟨wire, c₁, -, hpure⟩ := bind_eq_ok.1 h
    obtain ⟨rfl, -⟩ := pure_eq_ok.1 hpure
    exact hfunc
  obtain ⟨func, c₁, h₁, h⟩ := bind_eq_ok.1 h
  obtain ⟨hc₁, -⟩ := ht c func c₁ hc h₁
  obtain ⟨ch, c₂, h₂, h⟩ := bind_eq_ok.1 h
  obtain ⟨rfl, rfl⟩ := getChunk_eq_ok.1 h₂
  obtain ⟨next, c₃, h₃, h⟩ := bind_eq_ok.1 h
  obtain ⟨hlt, rfl, rfl⟩ := addU8_eq_ok.1 h₃
  split at h
  · obtain ⟨top, c₄, h₄, h⟩ := bind_eq_ok.1 h
    obtain ⟨-, -, -, htop, -⟩ := reserveReg_spec h₄
    obtain ⟨u, c₅, -, h⟩ := bind_eq_ok.1 h
    obtain ⟨x, c₆, h₆, h⟩ := bind_eq_ok.1 h
    obtain ⟨rfl, rfl⟩ := pure_eq_ok.1 h₆
    exact hlast _ _ (by rw [htop]; exact hc₁.top) h
  · obtain ⟨x, c₆, h₆, h⟩ := bind_eq_ok.1 h
    obtain ⟨rfl, rfl⟩ := pure_eq_ok.1 h₆
    exact hlast _ _ (by rw [noReg]; omega) h

theorem methodCallSetup_register {object : CompileM ℕ} {method : Name} {args : ℕ → CompileM ℕ}
    {p : ℕ × ℕ} (h : methodCallSetup object method args c = Except.ok (p, c')) : p.1 ≤ noReg := by
  obtain ⟨obj, c₁, -, h⟩ := bind_eq_ok.1 h
  obtain ⟨key, c₂, -, h⟩ := bind_eq_ok.1 h
  obtain ⟨func, c₃, -, h⟩ := bind_eq_ok.1 h
  obtain ⟨u, c₄, -, h⟩ := bind_eq_ok.1 h
  obtain ⟨selfReg, c₅, h₅, h⟩ := bind_eq_ok.1 h
  obtain ⟨hlt, -, -⟩ := addU8_eq_ok.1 h₅
  obtain ⟨v, c₆, -, h⟩ := bind_eq_ok.1 h
  obtain ⟨wire, c₇, -, hpure⟩ := bind_eq_ok.1 h
  obtain ⟨rfl, -⟩ := pure_eq_ok.1 hpure
  rw [noReg]
  omega

/-- A call is set up in a register. -/
theorem setup_register {b : Region} {value : Expr} {setup : CompileM (ℕ × ℕ)} {p : ℕ × ℕ}
    (hc : b.Holds c) (hlocals : b.LocalsBelow)
    (hmulti : compileMultires value = Multires.funcCall setup ∨
      compileMultires value = Multires.method setup)
    (h : setup c = Except.ok (p, c')) : p.1 ≤ noReg := by
  cases value with
  | funcCall target args =>
      rw [compileMultires] at hmulti
      rcases hmulti with hm | hm
      · obtain rfl := Multires.funcCall.inj hm
        exact funcCallSetup_register hc
          (stays_toReg (stays_compileExpr target b none hlocals Hint.none) Hint.none) h
      · exact absurd hm (by simp)
  | method object method args =>
      rw [compileMultires] at hmulti
      rcases hmulti with hm | hm
      · exact absurd hm (by simp)
      · obtain rfl := Multires.method.inj hm
        exact methodCallSetup_register h
  | _ => exact absurd hmulti (by simp [compileMultires])

/-- A trailing item is opened at or above its slot, and in it iff the call is set up there. -/
theorem open_spec {value : Expr} {b : Bool} (hr : EntryReady table base count pending c)
    (hmulti : (compileMultires value).isMulti = true)
    (h : trailingMultires (compileMultires value) (throw Fault.panic) (base + pending) c =
      Except.ok (b, c')) :
    (c.region table (base + pending)).Holds c' ∧
      ∃ (code : List Instruction) (i : Instruction) (land : ℕ), c.emitted c' = code ++ [i] ∧
        i.opensAt = some land ∧ i.mayWrite land = true ∧ base + pending ≤ land ∧ land ≤ noReg ∧
          ((compileMultires value).LandsAt (base + pending) c ↔ land = base + pending) := by
  have hlocals := hr.localsBelow (base + pending)
  have hm := multi_compileMultires value _ hlocals
  obtain ⟨hc, -⟩ := stays_trailingMultires hm
    (Stays.throw (Q := (c.region table (base + pending)).Reserved) Fault.panic)
    (Nat.le_refl _) c b c'
    hr.holds h
  refine ⟨hc, ?_⟩
  have hcall : ∀ setup, (compileMultires value = Multires.funcCall setup ∨
      compileMultires value = Multires.method setup) →
        (c.region table (base + pending)).Setup setup →
      (do
        allocUpTo (base + pending)
        let _ ← callResults setup Want.multRet
        return true : CompileM Bool) c = Except.ok (b, c') →
      ∃ (code : List Instruction) (i : Instruction) (land : ℕ), c.emitted c' = code ++ [i] ∧
        i.opensAt = some land ∧ i.mayWrite land = true ∧ base + pending ≤ land ∧ land ≤ noReg ∧
          ((∀ p c', (do allocUpTo (base + pending); setup : CompileM (ℕ × ℕ)) c =
            Except.ok (p, c') → p.1 = base + pending) ↔ land = base + pending) := by
    intro setup hsetup hstays h
    obtain ⟨u, c₁, h₁, hrest⟩ := bind_eq_ok.1 h
    obtain ⟨regs, c₂, h₂, hpure⟩ := bind_eq_ok.1 hrest
    obtain ⟨-, rfl⟩ := pure_eq_ok.1 hpure
    obtain ⟨p, c₃, h₃, hcall⟩ := bind_eq_ok.1 h₂
    obtain ⟨v, c₄, h₄, hpure'⟩ := bind_eq_ok.1 hcall
    obtain ⟨-, rfl⟩ := pure_eq_ok.1 hpure'
    obtain ⟨hc₁, -⟩ := stays_allocUpTo _ c u c₁ hr.holds h₁
    obtain ⟨hc₃, hle⟩ := hstays c₁ p c₃ hc₁ h₃
    have hreg := setup_register hc₁ hlocals hsetup h₃
    have hrun : (do allocUpTo (base + pending); setup : CompileM (ℕ × ℕ)) c = Except.ok (p, c₃) :=
      bind_eq_ok.2 ⟨u, c₁, h₁, h₃⟩
    obtain rfl := emit_eq_ok.1 h₄
    refine ⟨c.emitted c₃, Instruction.call p.1 p.2 0, p.1, emitted_of_append ?_, rfl, ?_, hle, hreg,
      fun hall => hall p c₃ hrun, fun heq p' c'' hrun' => ?_⟩
    · show c₃.chunk.tape ++ _ = _
      rw [tape_of_holds hc₃, List.append_assoc]
    · simp [Instruction.mayWrite, Instruction.output]
    · obtain ⟨rfl, -⟩ := Prod.mk.inj (Except.ok.inj (hrun.symm.trans hrun'))
      exact heq
  cases hmulti' : compileMultires value with
  | funcCall setup =>
      rw [hmulti'] at h hm
      exact hcall setup (Or.inl hmulti') hm h
  | method setup =>
      rw [hmulti'] at h hm
      exact hcall setup (Or.inr hmulti') hm h
  | varArg =>
      rw [hmulti'] at h
      obtain ⟨u, c₁, h₁, hrest⟩ := bind_eq_ok.1 h
      obtain ⟨v, c₂, h₂, hpure⟩ := bind_eq_ok.1 hrest
      obtain ⟨-, rfl⟩ := pure_eq_ok.1 hpure
      obtain ⟨hquiet, hcur⟩ := allocUpTo_spec h₁
      obtain ⟨hc₁, -⟩ := stays_allocUpTo _ c u c₁ hr.holds h₁
      have htop := hc₁.top
      obtain rfl := emit_eq_ok.1 h₂
      refine ⟨[], Instruction.vararg (base + pending) 0, base + pending, emitted_of_append ?_, rfl,
        ?_, Nat.le_refl _, by omega, iff_of_true trivial rfl⟩
      · show c₁.chunk.tape ++ _ = _
        rw [hquiet.tape]
        rfl
      · simp [Instruction.mayWrite, Instruction.output]
  | single => exact absurd hmulti (by rw [hmulti']; simp [Multires.isMulti])

/-- The last batch: what lies between the table and the top. -/
theorem close_spec {u : Unit} (hr : EntryReady table base count pending c)
    (h : closeItem table base count pending c = Except.ok (u, c')) :
    EntryReady table base 0 0 c' ∧ Behind c c' ∧
      ∀ K s, s.Holds table → base ≤ s.top → (s.need base (s.top - base)).Met →
        ∃ s', Building.steps K (c.emitted c') s = some s' ∧
          s'.stores = s.stores ++ indexed (count - pending) (s.window base (s.top - base)) := by
  obtain ⟨v, c₁, h₁, hrest⟩ := bind_eq_ok.1 h
  obtain rfl := emit_eq_ok.1 h₁
  obtain rfl := setFreereg_eq_ok.1 hrest
  have hslots := hr.slots
  have htop := hr.top
  refine ⟨⟨hr.locals, hr.above, hr.next, Nat.le_refl _, ?_, hr.room, Nat.zero_le _⟩,
    ⟨rfl, List.prefix_refl _, List.prefix_append _ _⟩, fun K s hs hle hmet => ?_⟩
  · show base ≤ noReg
    omega
  · have hcode : c.emitted
        { c with chunk := { c.chunk with
          tape := c.chunk.tape ++ [Instruction.setlist table 0 (count - pending)]
          freereg := base } } = [Instruction.setlist table 0 (count - pending)] :=
      emitted_of_append rfl
    have hs : s.regs table = Value.table s.table := hs
    rw [hcode]
    rw [hr.next] at hle hmet ⊢
    simp only [Building.steps, Building.step, if_pos hs, Building.setlist, if_true]
    rw [if_pos ⟨fun _ => hle, hmet⟩]
    exact ⟨_, rfl, Building.restore_stores _⟩

/-! ### One entry -/

/-- What has been stored, and what is pending. -/
def Building.account (s : Building) (table count pending : ℕ) : List (Value × Value) :=
  s.stores ++ indexed (count - pending) (s.window (table + 1) pending)

theorem Building.account_zero (s : Building) (table count : ℕ) :
    s.account table count 0 = s.stores := by
  rw [Building.account, Building.window_zero, indexed, List.append_nil]

/-- The code of a value leaves the account alone, and the table where it is. -/
theorem Effect.account (h : Effect table (c.emitted c') s s')
    (hr : EntryReady table base count pending c)
    (hc : (c.region table (base + pending)).Holds c')
    (hmet : (s.need table (pending + 1)).Met) :
    s'.account table count pending = s.account table count pending ∧
      (s.Holds table → s'.Holds table) := by
  have hnext := hr.next
  have hlen := (s.need_succ_met table pending).1 hmet
  obtain ⟨hregs, hstores, -, hheld⟩ := h.frame hc (by omega) (by omega)
  refine ⟨?_, hheld⟩
  rw [Building.account, Building.account, hstores,
    Building.window_congr fun i hi => hregs _ (by omega) (by omega)]

theorem single_spec {value : Expr} {val : ℕ} {next : ℕ × ℕ} {c₁ c₂ : Ctx} {s₁ : Building}
    (hr : EntryReady table base count pending c)
    (hvalue : itemValue value (base + pending) c = Except.ok (val, c₁))
    (heffect : Effect table (c.emitted c₁) s s₁)
    (hsettle : settleItem val table base count pending c₁ = Except.ok (next, c₂)) :
    EntryReady table base next.1 next.2 c₂ ∧ Behind c c₂ ∧ count + 1 < 2 ^ 16 ∧
      next.1 = count + 1 ∧
      (s.Holds table → (s.need table (pending + 1)).Met →
        (s₁.need (table + 1) (batch pending)).Met →
          ∃ s₂, Building.steps K (c₁.emitted c₂) s₁ = some s₂ ∧ s₂.Holds table ∧
            s₂.account table next.1 next.2 =
              s.account table count pending ++ [(itemKey (count + 1), s₁.regs val)]) := by
  obtain ⟨hc₁, hval⟩ := value_spec hr hvalue
  obtain ⟨hr₂, hbehind, hlt, hpair, hsteps⟩ := settle_spec hr hc₁ hval hsettle
  refine ⟨hr₂, (Behind.of_holds hc₁).trans hbehind, hlt, by rw [hpair], fun hs hmet hmet' => ?_⟩
  obtain ⟨haccount, hheld⟩ := heffect.account hr hc₁ hmet
  refine ⟨_, hsteps K s₁ (hheld hs) hmet', (Building.settled_holds hr.next).2 (hheld hs), ?_⟩
  rw [hpair, ← haccount]
  exact settled_stores s₁ (s₁.regs val) hr.next hr.counted

theorem opened_spec {value : Expr} {b : Bool} {land : ℕ} {c₁ : Ctx} {s₁ : Building}
    (hr : EntryReady table base count pending c) (hopen : isOpen value [] = true)
    (hvalue : trailingMultires (compileMultires value) (throw Fault.panic) (base + pending) c =
      Except.ok (b, c₁))
    (heffect : Effect table (c.emitted c₁) s s₁)
    (hland : (c.emitted c₁).getLast?.bind Instruction.opensAt = some land) (htop : land ≤ s₁.top)
    (hclose : closeItem table base count pending c₁ = Except.ok ((), c')) :
    Behind c c' ∧ base + pending ≤ land ∧
      ((compileMultires value).LandsAt (base + pending) c ↔ land = base + pending) ∧
      (s.Holds table → (s.need table (pending + 1)).Met →
        (s₁.need (table + 1) (s₁.top - (table + 1))).Met →
          ∃ s', Building.steps K (c₁.emitted c') s₁ = some s' ∧
            s'.stores = s.account table count pending ++
              indexed count (s₁.window (base + pending) (land - (base + pending)) ++
                s₁.window land (s₁.top - land))) := by
  obtain ⟨hc₁, code, i, land', hcode, hi, -, hle, -, hlands⟩ :=
    open_spec hr (by simpa [isOpen] using hopen) hvalue
  obtain rfl : land' = land := by
    rw [hcode, List.getLast?_concat, Option.bind_some, hi] at hland
    exact Option.some.inj hland
  have hnext := hr.next
  obtain ⟨-, hbehind, hsteps⟩ := close_spec (hr.of_holds hc₁) hclose
  refine ⟨(Behind.of_holds hc₁).trans hbehind, hle, hlands, fun hs hmet hmet' => ?_⟩
  obtain ⟨haccount, hheld⟩ := heffect.account hr hc₁ hmet
  rw [← hnext] at hmet'
  obtain ⟨s', hrun, hstores⟩ := hsteps K s₁ (hheld hs) (by omega) hmet'
  refine ⟨s', hrun, ?_⟩
  -- the window up to the top: the pending items, what lies between, the results
  have hwindow : s₁.window base (s₁.top - base) = s₁.window (table + 1) pending ++
      (s₁.window (base + pending) (land' - (base + pending)) ++
        s₁.window land' (s₁.top - land')) := by
    have hsum : s₁.top - base = pending + (land' - (base + pending) + (s₁.top - land')) := by omega
    have hmid : base + pending + (land' - (base + pending)) = land' := by omega
    rw [hsum, Building.window_add, Building.window_add, hmid, hnext]
  rw [hstores, hwindow, indexed_append, Building.length_window, Nat.sub_add_cancel hr.counted,
    ← List.append_assoc, ← haccount]
  rfl

/-- The code of a named field behind the batch in front of it. -/
theorem map_code {field : Name} {value : Expr} {val : ℕ} {key : ℕ × ℕ} {c₂ c₃ : Ctx}
    (hr : EntryReady table base count 0 c) (hkey : allocFieldKey field c = Except.ok (key, c₂))
    (hvalue : toReg (compileExpr value none) none c₂ = Except.ok (val, c₃))
    (hset : (do
      emit (Instruction.setfield val table key.2 key.1)
      freeReg val : CompileM Unit) c₃ = Except.ok ((), c')) :
    EntryReady table base count 0 c' ∧ Behind c c' ∧
      c₃.emitted c' = [Instruction.setfield val table key.2 key.1] ∧
      c'.chunk.constants[key.1]? = some (Value.string field) ∧
      (c₂.region table (table + 1)).Holds c₃ := by
  obtain ⟨hr₂, hbehind₂, -, hconst⟩ := fieldKey_spec hr hkey
  obtain ⟨hc₃, hval, hr₃⟩ := operand_spec hr₂ hvalue
  obtain ⟨hr', hbehind', hcode⟩ := stored_spec hr₃ (fun b hb hfloor => stays_freeReg
    (owns_of_reserved hb (by rw [hfloor]; exact hr₂.slots) hval))
    (fun _ _ _ => freeReg_spec) hset
  have hbehind₃ := (Behind.of_holds hc₃).trans hbehind'
  have hin : (c₂.region table base).Holds c₃ := hr₂.holds.of_region hr₂.slots hc₃
  exact ⟨hr', hbehind₂.trans hbehind₃, hcode, getElem?_of_prefix hbehind₃.constants hconst,
    hr₂.next ▸ hin⟩

theorem map_spec {field : Name} {value : Expr} {val : ℕ} {key : ℕ × ℕ} {c₁ c₂ c₃ c₄ : Ctx}
    {s₁ s₂ : Building} (hr : EntryReady table base count pending c)
    (hflush : flushArray table base count pending c = Except.ok ((), c₁))
    (hflushed : Building.steps K (c.emitted c₁) s = some s₁)
    (hkey : allocFieldKey field c₁ = Except.ok (key, c₂))
    (hvalue : toReg (compileExpr value none) none c₂ = Except.ok (val, c₃))
    (heffect : Effect table (c₂.emitted c₃) s₁ s₂)
    (hset : (do
      emit (Instruction.setfield val table key.2 key.1)
      freeReg val : CompileM Unit) c₃ = Except.ok ((), c₄)) :
    EntryReady table base count 0 c₄ ∧ Behind c c₄ ∧
      (s.Holds table → (s.need (table + 1) pending).Met → (s₁.need table 1).Met →
        ∀ s₃, Building.steps K (c₃.emitted c₄) s₂ = some s₃ → s₃.Holds table ∧
          (c₄.chunk.constants <+: K →
            s₃.stores = s.account table count pending ++ [(Value.string field, s₂.regs val)])) := by
  obtain ⟨hr₁, hbehind₁, hsteps₁⟩ := flush_spec hr hflush
  obtain ⟨hr₄, hbehind₄, hcode, hconst, hc₃⟩ := map_code hr₁ hkey hvalue hset
  refine ⟨hr₄, hbehind₁.trans hbehind₄, fun hs hmet hmet₁ s₃ hstore => ?_⟩
  obtain rfl := Option.some.inj (hflushed.symm.trans (hsteps₁ K s hs hmet))
  obtain ⟨-, hstores, -, hheld⟩ := heffect.frame hc₃ (Nat.lt_succ_self _)
    (((s.flushed table count pending).need_succ_met table 0).1 hmet₁)
  have hs₂ : s₂.regs table = Value.table s₂.table := hheld hs
  rw [hcode] at hstore
  simp only [Building.steps, Building.step, if_pos hs₂] at hstore
  obtain ⟨s₄, hset', hlast⟩ := Option.bind_eq_some_iff.1 hstore
  obtain ⟨k, hk, rfl⟩ := Option.map_eq_some_iff.1 hset'
  obtain rfl := Option.some.inj hlast
  refine ⟨hs₂, fun hK => ?_⟩
  have hkey : K[key.1]? = some (Value.string field) := getElem?_of_prefix hK hconst
  obtain rfl := Option.some.inj (hkey.symm.trans hk)
  show s₂.stores ++ _ = _
  rw [hstores]
  rfl

/-- The code of a computed field behind the batch in front of it. -/
theorem generic_code {index value : Expr} {key val : ℕ} {c₂ c₃ : Ctx}
    (hr : EntryReady table base count 0 c)
    (hkey : toReg (compileExpr index none) none c = Except.ok (key, c₂))
    (hvalue : toReg (compileExpr value none) none c₂ = Except.ok (val, c₃))
    (hset : (do
      emit (Instruction.settable val table key)
      freeRegs val key : CompileM Unit) c₃ = Except.ok ((), c')) :
    EntryReady table base count 0 c' ∧ Behind c c' ∧
      c₃.emitted c' = [Instruction.settable val table key] := by
  obtain ⟨hc₂, hk, hr₂⟩ := operand_spec hr hkey
  obtain ⟨hc₃, hval, hr₃⟩ := operand_spec hr₂ hvalue
  obtain ⟨hr', hbehind', hcode⟩ := stored_spec hr₃ (fun b hb hfloor => stays_freeRegs
    (owns_of_reserved hb (by rw [hfloor]; exact hr₂.slots) hval)
    (owns_of_reserved hb (by rw [hfloor]; exact hr.slots) hk))
    (fun _ _ _ => freeRegs_spec) hset
  exact ⟨hr', (Behind.of_holds hc₂).trans ((Behind.of_holds hc₃).trans hbehind'), hcode⟩

theorem generic_spec {index value : Expr} {key val : ℕ} {c₁ c₂ c₃ c₄ : Ctx}
    {s₁ s₂ s₃ : Building} (hr : EntryReady table base count pending c)
    (hflush : flushArray table base count pending c = Except.ok ((), c₁))
    (hflushed : Building.steps K (c.emitted c₁) s = some s₁)
    (hkey : toReg (compileExpr index none) none c₁ = Except.ok (key, c₂))
    (heffect : Effect table (c₁.emitted c₂) s₁ s₂)
    (hvalue : toReg (compileExpr value none) none c₂ = Except.ok (val, c₃))
    (heffect' : Effect table (c₂.emitted c₃) s₂ s₃)
    (hset : (do
      emit (Instruction.settable val table key)
      freeRegs val key : CompileM Unit) c₃ = Except.ok ((), c₄)) :
    EntryReady table base count 0 c₄ ∧ Behind c c₄ ∧
      (s.Holds table → (s.need (table + 1) pending).Met → (s₁.need table 1).Met →
        (s₂.need table 1).Met → (s₂.need key (if key < table then 0 else 1)).Met →
          ∀ s₄, Building.steps K (c₃.emitted c₄) s₃ = some s₄ → s₄.Holds table ∧
            s₄.stores = s.account table count pending ++
              [(if key < table then s₃.regs key else s₂.regs key, s₃.regs val)]) := by
  obtain ⟨hr₁, hbehind₁, hsteps₁⟩ := flush_spec hr hflush
  obtain ⟨hr₄, hbehind₄, hcode⟩ := generic_code hr₁ hkey hvalue hset
  obtain ⟨hc₂, hk, hr₂⟩ := operand_spec hr₁ hkey
  obtain ⟨hc₃, -, -⟩ := operand_spec hr₂ hvalue
  refine ⟨hr₄, hbehind₁.trans hbehind₄, fun hs hmet hmet₁ hmet₂ hmetKey s₄ hstore => ?_⟩
  obtain rfl := Option.some.inj (hflushed.symm.trans (hsteps₁ K s hs hmet))
  have hnext := hr.next
  have hslots₁ := hr₁.slots
  have hslots₂ := hr₂.slots
  have hin₂ : (c₁.region table base).Holds c₂ := hr₁.holds.of_region hr₁.slots hc₂
  have hin₃ : (c₂.region table base).Holds c₃ := hr₂.holds.of_region hr₂.slots hc₃
  rw [hnext] at hin₂ hin₃
  obtain ⟨-, hstores, -, hheld⟩ :=
    heffect.frame hin₂ (Nat.lt_succ_self _)
      (((s.flushed table count pending).need_succ_met table 0).1 hmet₁)
  obtain ⟨-, hstores', -, hheld'⟩ :=
    heffect'.frame hin₃ (Nat.lt_succ_self _) ((s₂.need_succ_met table 0).1 hmet₂)
  have hs₃ : s₃.regs table = Value.table s₃.table := hheld' (hheld hs)
  -- a key in a temp is not written by the code of the value
  have hkeep : s₃.regs key = if key < table then s₃.regs key else s₂.regs key := by
    split
    · rfl
    · rename_i hge
      rw [if_neg hge] at hmetKey
      have hlen : key < s₂.len := (s₂.need_succ_met key 0).1 hmetKey
      have hcur : key < c₂.chunk.freereg := by
        rcases hk.2 with hlt | hlt
        · exact absurd hlt hge
        · exact hlt
      refine heffect'.regs key (by omega) hlen fun i hi => ?_
      exact not_mayWrite_of_allows rfl (Nat.le_of_not_lt hge) hcur (allows_of_emitted hc₃ hi).output
  rw [hcode] at hstore
  obtain ⟨s₅, hset', hlast⟩ := Option.bind_eq_some_iff.1 hstore
  obtain rfl := Option.some.inj hlast
  simp only [Building.step] at hset'
  split at hset'
  · obtain rfl := Option.some.inj hset'
    refine ⟨hs₃, ?_⟩
    show s₃.stores ++ _ = _
    rw [hstores', hstores, ← hkeep]
    rfl
  · exact absurd hset' (by simp)

end Tcvm
