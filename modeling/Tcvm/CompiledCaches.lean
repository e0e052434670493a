/-
The inline caches of compiled code.

An access instruction names a slot of the cache table of its function and a constant.  The
interpreter reads the table without a check, and takes the entry for one of the constant.  For the
code of a program without too many access sites both is right: whatever the instructions are
executed on, in whatever order, and whatever the collector reclaims in between, no read misses the
table, and the run cannot be told from the run of an interpreter without caches.

* `Prototype.functionAt`, `Prototype.accessAt` — the access instructions of a program;
* `CodeOp`, `cachedCode`, `uncachedCode` — their execution, which fails where a read goes astray;
* `slotKey` — the key of a slot;
* `compiled_caches_transparent` — **the caches of compiled code are transparent**.
-/

import Tcvm.InlineCache
import Tcvm.SlotRecursion

namespace Tcvm

/-! ### Executing the accesses of a program -/

/-- A function of a program, by the positions of the prototypes around it. -/
abbrev Path := List ℕ

namespace Prototype

/-- The function at a path. -/
def functionAt (p : Prototype) : Path → Option Prototype
  | [] => some p
  | i :: rest => p.prototypes[i]?.bind fun q => q.functionAt rest

/-- The key of an access: its constant, which has to be a string. -/
def keyAt (q : Prototype) (idx : ℕ) : Option LuaString :=
  match q.constants[idx]? with
  | some (Value.string key) => some key
  | _ => none

end Prototype

/-- An operation on tables.  An access is given by its place in the code, with the value that its
table operand has and the one that it stores. -/
inductive CodeOp
  | rawSet (t : TableId) (key value : Value)
  | setMetatable (t : TableId) (mt : Option TableId)
  | setUserdataMetatable (u : ℕ) (mt : Option TableId)
  | access (path : Path) (pc : ℕ) (recv value : Value)

/-- The operation of an access instruction on an entry of a cache table. -/
def Instruction.accessOp {ι : Type} (i : Instruction) (ic : ι) (recv value : Value) :
    Option (Op ι) :=
  match i with
  | Instruction.getfield .. => some (Op.getfield ic recv)
  | Instruction.setfield .. => some (Op.setfield ic recv value)
  | Instruction.gettabup .. => some (Op.gettabup ic recv)
  | Instruction.settabup .. => some (Op.settabup ic recv value)
  | _ => none

/-- What an operation does: the key and the entry of an access, and the table it is in. -/
structure Resolved where
  op : Op (Path × ℕ)
  key : LuaString
  slot : ℕ
  icTable : ℕ

/-- The instruction of an access. -/
def Prototype.accessAt (p : Prototype) (path : Path) (pc : ℕ) (recv value : Value) :
    Option Resolved := do
  let q ← p.functionAt path
  let i ← q.code[pc]?
  let a ← i.access
  let key ← q.keyAt a.2
  let op ← i.accessOp (path, a.1) recv value
  return { op := op, key := key, slot := a.1, icTable := q.icTable }

/-- One operation of the interpreter.  The entry is read without a check: where it is not in the
table, there is no result. -/
def cachedCode (p : Prototype) (vm : Vm (Path × ℕ)) : CodeOp → Option (Vm (Path × ℕ) × Outcome)
  | CodeOp.rawSet t key v => some (cachedStep (fun _ => []) vm (Op.rawSet t key v))
  | CodeOp.setMetatable t mt => some (cachedStep (fun _ => []) vm (Op.setMetatable t mt))
  | CodeOp.setUserdataMetatable u mt =>
      some (cachedStep (fun _ => []) vm (Op.setUserdataMetatable u mt))
  | CodeOp.access path pc recv value => do
      let r ← p.accessAt path pc recv value
      if r.slot < r.icTable then some (cachedStep (fun _ => r.key) vm r.op) else none

/-- One operation of an interpreter without caches. -/
def uncachedCode (p : Prototype) (h : Heap) : CodeOp → Option (Heap × Outcome)
  | CodeOp.rawSet t key v => some (h.rawSetOp t key v)
  | CodeOp.setMetatable t mt => some (h.setMetatable t mt, Outcome.done)
  | CodeOp.setUserdataMetatable u mt => some (h.setUserdataMeta u mt, Outcome.done)
  | CodeOp.access path pc recv value => do
      let r ← p.accessAt path pc recv value
      return uncachedStep (fun _ => r.key) h r.op

/-- A run: before every operation the collector may reclaim shapes. -/
def runCode {σ : Type} (step : σ → CodeOp → Option (σ × Outcome))
    (collect : σ → (ShapeId → Bool) → σ) :
    σ → List ((ShapeId → Bool) × CodeOp) → Option (σ × List Outcome)
  | s, [] => some (s, [])
  | s, i :: rest => do
      let r ← step (collect s i.1) i.2
      let r' ← runCode step collect r.1 rest
      return (r'.1, r.2 :: r'.2)

/-- The operations with what the collector reclaims before each. -/
def scheduleCode (gc : ℕ → ShapeId → Bool) (ops : List CodeOp) :
    List ((ShapeId → Bool) × CodeOp) :=
  ops.zipIdx.map fun p => (gc p.2, p.1)

/-- A run of the interpreter with the caches, from a new state. -/
def cachedRun (p : Prototype) (gc : ℕ → ShapeId → Bool) (ops : List CodeOp) :
    Option (Vm (Path × ℕ) × List Outcome) :=
  runCode (cachedCode p) (fun vm c => { vm with heap := vm.heap.collect c }) (Vm.boot (Path × ℕ))
    (scheduleCode gc ops)

/-- A run without the caches. -/
def uncachedRun (p : Prototype) (gc : ℕ → ShapeId → Bool) (ops : List CodeOp) :
    Option (Heap × List Outcome) :=
  runCode (uncachedCode p) Heap.collect Heap.boot (scheduleCode gc ops)

/-- The accesses stand at access instructions of the program. -/
def Prototype.Executes (p : Prototype) : CodeOp → Prop
  | CodeOp.access path pc _ _ =>
      ∃ q i, p.functionAt path = some q ∧ q.code[pc]? = some i ∧ i.access ≠ none
  | _ => True

/-! ### The key of a slot -/

section

variable {p q : Prototype} {path : Path} {pc : ℕ} {recv value : Value} {r : Resolved}

/-- What is at a path is a function of the program. -/
theorem Prototype.function_functionAt (h : p.functionAt path = some q) : p.Function q := by
  induction path generalizing p with
  | nil =>
      obtain rfl := Option.some.inj h
      exact Prototype.Function.self p
  | cons i rest ih =>
      obtain ⟨nested, hi, hrest⟩ := Option.bind_eq_some_iff.1 h
      exact Prototype.Function.nested (List.mem_of_getElem? hi) (ih hrest)

/-- The slot of a function holds entries of the key. -/
def Prototype.SlotKey (p : Prototype) (site : Path × ℕ) (key : LuaString) : Prop :=
  ∃ q idx, p.functionAt site.1 = some q ∧ (site.2, idx) ∈ accesses q.code ∧ q.keyAt idx = some key

theorem Prototype.SlotKey.unique (hs : p.AllSound) {site : Path × ℕ} {key key' : LuaString}
    (h : p.SlotKey site key) (h' : p.SlotKey site key') : key = key' := by
  obtain ⟨q, idx, hq, ha, hkey⟩ := h
  obtain ⟨q', idx', hq', ha', hkey'⟩ := h'
  obtain rfl := Option.some.inj (hq.symm.trans hq')
  have hidx : idx = idx' := (hs q (Prototype.function_functionAt hq)).oneKey _ ha _ ha' rfl
  subst hidx
  exact Option.some.inj (hkey.symm.trans hkey')

open Classical in
/-- The key of a slot, if it has one. -/
noncomputable def Prototype.slotKey (p : Prototype) (site : Path × ℕ) : LuaString :=
  if h : ∃ key, p.SlotKey site key then h.choose else []

theorem Prototype.slotKey_eq (hs : p.AllSound) {site : Path × ℕ} {key : LuaString}
    (h : p.SlotKey site key) : p.slotKey site = key := by
  have hex : ∃ key, p.SlotKey site key := ⟨key, h⟩
  rw [Prototype.slotKey, dif_pos hex]
  exact hex.choose_spec.unique hs h

/-- The entry that an operation works on. -/
def Op.site {ι : Type} : Op ι → Option ι
  | Op.getfield ic _ => some ic
  | Op.setfield ic _ _ => some ic
  | Op.gettabup ic _ => some ic
  | Op.settabup ic _ _ => some ic
  | _ => none

theorem Instruction.site_accessOp {ι : Type} {i : Instruction} {ic : ι} {op : Op ι}
    (h : i.accessOp ic recv value = some op) : op.site = some ic := by
  cases i
  case getfield | setfield | gettabup | settabup =>
    obtain rfl := Option.some.inj h
    rfl
  all_goals cases h

/-- **What an access resolves to**: an entry in the table, of the key of its slot. -/
theorem Prototype.accessAt_spec (hs : p.AllSound) (h : p.accessAt path pc recv value = some r) :
    r.op.site = some (path, r.slot) ∧ r.slot < r.icTable ∧ p.slotKey (path, r.slot) = r.key := by
  obtain ⟨q, hq, h⟩ := Option.bind_eq_some_iff.1 h
  obtain ⟨i, hi, h⟩ := Option.bind_eq_some_iff.1 h
  obtain ⟨a, ha, h⟩ := Option.bind_eq_some_iff.1 h
  obtain ⟨key, hkey, h⟩ := Option.bind_eq_some_iff.1 h
  obtain ⟨op, hop, h⟩ := Option.bind_eq_some_iff.1 h
  obtain rfl := Option.some.inj h
  have hmem : a ∈ accesses q.code := mem_accesses.2 ⟨pc, i, hi, ha⟩
  have hsound := hs q (Prototype.function_functionAt hq)
  exact ⟨Instruction.site_accessOp hop, hsound.inRange a hmem,
    Prototype.slotKey_eq hs ⟨q, a.2, hq, hmem, hkey⟩⟩

/-- **Every access of a program resolves.** -/
theorem Prototype.accessAt_isSome (hk : ∀ q, p.Function q → q.Keyed)
    (h : p.Executes (CodeOp.access path pc recv value)) :
    ∃ r, p.accessAt path pc recv value = some r := by
  obtain ⟨q, i, hq, hi, ha⟩ := h
  obtain ⟨a, ha⟩ := Option.ne_none_iff_exists'.1 ha
  obtain ⟨key, hkey⟩ := hk q (Prototype.function_functionAt hq) a (mem_accesses.2 ⟨pc, i, hi, ha⟩)
  have hkeyAt : q.keyAt a.2 = some key := by
    unfold Prototype.keyAt
    rw [hkey]
  obtain ⟨op, hop⟩ : ∃ op, i.accessOp (path, a.1) recv value = some op := by
    cases i
    case getfield | setfield | gettabup | settabup => exact ⟨_, rfl⟩
    all_goals cases ha
  refine ⟨{ op := op, key := key, slot := a.1, icTable := q.icTable }, ?_⟩
  unfold Prototype.accessAt
  rw [hq, Option.bind_eq_bind, Option.bind_some, hi, Option.bind_eq_bind, Option.bind_some, ha,
    Option.bind_eq_bind, Option.bind_some, hkeyAt, Option.bind_eq_bind, Option.bind_some, hop]
  rfl

end

/-! ### The two interpreters -/

section

variable {ι : Type} [DecidableEq ι] {keyAt keyAt' : ι → LuaString}

/-- A step through the caches looks at the key of its entry only. -/
theorem cachedStep_congr (op : Op ι) (vm : Vm ι)
    (h : ∀ ic, op.site = some ic → keyAt ic = keyAt' ic) :
    cachedStep keyAt vm op = cachedStep keyAt' vm op := by
  have hget : ∀ ic t, keyAt ic = keyAt' ic → vm.cachedGet keyAt ic t = vm.cachedGet keyAt' ic t :=
    fun ic t hk => by rw [Vm.cachedGet, Vm.cachedGet, Vm.fillIcForConstantKey,
      Vm.fillIcForConstantKey, hk]
  have hset : ∀ ic t v, keyAt ic = keyAt' ic →
      vm.cachedSet keyAt ic t v = vm.cachedSet keyAt' ic t v :=
    fun ic t v hk => by rw [Vm.cachedSet, Vm.cachedSet, Vm.fillIcForConstantKey,
      Vm.fillIcForConstantKey, hk]
  cases op with
  | rawSet t key v => rfl
  | setMetatable t mt => rfl
  | setUserdataMetatable u mt => rfl
  | getfield ic recv =>
      have hk := h ic rfl
      rw [cachedStep, cachedStep, Vm.opGetfield, Vm.opGetfield, hk]
      simp only [hget ic _ hk]
  | setfield ic recv v =>
      rw [cachedStep, cachedStep, Vm.opSetfield, Vm.opSetfield]
      simp only [hset ic _ v (h ic rfl)]
  | gettabup ic upvalue =>
      rw [cachedStep, cachedStep, Vm.opGettabup, Vm.opGettabup]
      simp only [hget ic _ (h ic rfl)]
  | settabup ic upvalue v =>
      rw [cachedStep, cachedStep, Vm.opSettabup, Vm.opSettabup]
      simp only [hset ic _ v (h ic rfl)]

omit [DecidableEq ι] in
theorem uncachedStep_congr (op : Op ι) (h : Heap)
    (hk : ∀ ic, op.site = some ic → keyAt ic = keyAt' ic) :
    uncachedStep keyAt h op = uncachedStep keyAt' h op := by
  cases op with
  | rawSet t key v => rfl
  | setMetatable t mt => rfl
  | setUserdataMetatable u mt => rfl
  | getfield ic recv => rw [uncachedStep, uncachedStep, hk ic rfl]
  | setfield ic recv v => rw [uncachedStep, uncachedStep, hk ic rfl]
  | gettabup ic upvalue => rw [uncachedStep, uncachedStep, hk ic rfl]
  | settabup ic upvalue v => rw [uncachedStep, uncachedStep, hk ic rfl]

end

section

variable {p : Prototype}

/-- **An operation of the code** is an operation on the slots, in both interpreters. -/
theorem exists_op (hs : p.AllSound) (hk : ∀ q, p.Function q → q.Keyed) {op : CodeOp}
    (hop : p.Executes op) :
    ∃ o : Op (Path × ℕ), (∀ vm, cachedCode p vm op = some (cachedStep p.slotKey vm o)) ∧
      ∀ h, uncachedCode p h op = some (uncachedStep p.slotKey h o) := by
  cases op with
  | rawSet t key v => exact ⟨Op.rawSet t key v, fun _ => rfl, fun _ => rfl⟩
  | setMetatable t mt => exact ⟨Op.setMetatable t mt, fun _ => rfl, fun _ => rfl⟩
  | setUserdataMetatable u mt => exact ⟨Op.setUserdataMetatable u mt, fun _ => rfl, fun _ => rfl⟩
  | access path pc recv value =>
      obtain ⟨r, hr⟩ := Prototype.accessAt_isSome hk hop
      obtain ⟨hsite, hlt, hkey⟩ := Prototype.accessAt_spec hs hr
      -- the key that the instruction names is the key of its slot
      have hsame : ∀ ic, r.op.site = some ic → r.key = p.slotKey ic := by
        intro ic hic
        obtain rfl := Option.some.inj (hsite.symm.trans hic)
        exact hkey.symm
      refine ⟨r.op, fun vm => ?_, fun h => ?_⟩
      · rw [cachedCode, hr, Option.bind_eq_bind, Option.bind_some, if_pos hlt,
          cachedStep_congr r.op vm hsame]
      · rw [uncachedCode, hr, Option.bind_eq_bind, Option.bind_some,
          uncachedStep_congr r.op h hsame]
        rfl

/-- A run of the code is a run of the machine whose steps its operations are. -/
theorem runCode_eq {σ : Type} {step : σ → CodeOp → Option (σ × Outcome)}
    {collect : σ → (ShapeId → Bool) → σ} {M : Machine σ (Input (Path × ℕ)) Outcome}
    {onSlots : CodeOp → Op (Path × ℕ)} {inputs : List ((ShapeId → Bool) × CodeOp)}
    (h : ∀ i ∈ inputs, ∀ s, step (collect s i.1) i.2 = some (M.step s (i.1, onSlots i.2))) (s : σ) :
    runCode step collect s inputs = some (M.run s (inputs.map fun i => (i.1, onSlots i.2))) := by
  induction inputs generalizing s with
  | nil => rfl
  | cons i rest ih =>
      have hrest := ih (fun j hj => h j (List.mem_cons_of_mem i hj)) (M.step s (i.1, onSlots i.2)).1
      rw [runCode, h i List.mem_cons_self s, Option.bind_eq_bind, Option.bind_some, hrest]
      rfl

theorem map_scheduleCode (gc : ℕ → ShapeId → Bool) (onSlots : CodeOp → Op (Path × ℕ))
    (ops : List CodeOp) :
    (scheduleCode gc ops).map (fun i => (i.1, onSlots i.2)) = schedule gc (ops.map onSlots) := by
  unfold scheduleCode schedule
  rw [List.zipIdx_map, List.map_map, List.map_map]
  rfl

theorem executes_of_mem_scheduleCode {gc : ℕ → ShapeId → Bool} {ops : List CodeOp}
    (hops : ∀ op ∈ ops, p.Executes op) {i : (ShapeId → Bool) × CodeOp}
    (hi : i ∈ scheduleCode gc ops) : p.Executes i.2 := by
  obtain ⟨pair, hpair, rfl⟩ := List.mem_map.1 hi
  exact hops _ (List.fst_mem_of_mem_zipIdx hpair)

/-- **The caches of compiled code are transparent.**  In a program whose functions do not have too
many access sites, the accesses of the code find their entries, and the run cannot be told from the
run without caches. -/
theorem compiled_caches_transparent {num : NumOps} {block : List Stmt} {p : Prototype}
    (h : compile num block = Except.ok p) (hn : ∀ n ∈ accessCounts block, n ≤ icLimit)
    (ops : List CodeOp) (hops : ∀ op ∈ ops, p.Executes op) (gc gc' : ℕ → ShapeId → Bool) :
    ∃ vm heap outs, cachedRun p gc ops = some (vm, outs) ∧
      uncachedRun p gc' ops = some (heap, outs) ∧ Indistinguishable vm.heap heap := by
  obtain ⟨hsound, hkeyed⟩ := counted_compile h
  have hexists : ∀ op, ∃ o : Op (Path × ℕ), p.Executes op →
      (∀ vm, cachedCode p vm op = some (cachedStep p.slotKey vm o)) ∧
        ∀ h, uncachedCode p h op = some (uncachedStep p.slotKey h o) := by
    intro op
    by_cases hop : p.Executes op
    · obtain ⟨o, ho⟩ := exists_op (hsound.2 hn) hkeyed hop
      exact ⟨o, fun _ => ho⟩
    · exact ⟨Op.setMetatable 0 none, fun h => absurd h hop⟩
  choose onSlots hslots using hexists
  -- both runs are runs of the machines on the same operations on slots
  have hcached : cachedRun p gc ops =
      some ((cachedMachine p.slotKey).run (Vm.boot (Path × ℕ))
        (schedule gc (ops.map onSlots))) := by
    rw [← map_scheduleCode]
    exact runCode_eq (fun i hi vm => (hslots i.2 (executes_of_mem_scheduleCode hops hi)).1 _) _
  have huncached : uncachedRun p gc' ops =
      some ((uncachedMachine p.slotKey).run Heap.boot (schedule gc' (ops.map onSlots))) := by
    rw [← map_scheduleCode]
    exact runCode_eq (fun i hi heap => (hslots i.2 (executes_of_mem_scheduleCode hops hi)).2 _) _
  have hboot : CachedPresents p.slotKey (Vm.boot (Path × ℕ)) Heap.boot.world :=
    ⟨⟨heapOk_boot, rfl⟩, fun _ _ _ hic => by cases hic⟩
  have hin : (schedule gc (ops.map onSlots)).map Prod.snd =
      (schedule gc' (ops.map onSlots)).map Prod.snd := by
    rw [map_snd_schedule, map_snd_schedule]
  obtain ⟨hout, w, hpresents, hpresents'⟩ :=
    (cachedMachine_simulation p.slotKey).comparable (uncachedMachine_simulation p.slotKey) hboot
      ⟨heapOk_boot, rfl⟩ hin
  refine ⟨_, _, _, hcached, ?_, hpresents.1.indistinguishable hpresents'⟩
  rw [huncached, hout]

/-- The field is read twice: the first access fills the entry, the second one finds it there. -/
theorem compiled_caches_transparent_fieldRead :
    ∃ p vm heap outs, compile noFolding fieldRead = Except.ok p ∧
      cachedRun p (fun _ _ => false) (List.replicate 2
        (CodeOp.access [] 2 (Value.table 0) Value.nil)) = some (vm, outs) ∧
      uncachedRun p (fun _ _ => true) (List.replicate 2
        (CodeOp.access [] 2 (Value.table 0) Value.nil)) = some (heap, outs) ∧
      Indistinguishable vm.heap heap := by
  obtain ⟨p, hp, hexecutes⟩ : ∃ p, compile noFolding fieldRead = Except.ok p ∧
      p.Executes (CodeOp.access [] 2 (Value.table 0) Value.nil) :=
    ⟨_, rfl, _, _, rfl, rfl, by simp [Instruction.access]⟩
  have hops : ∀ op ∈ List.replicate 2 (CodeOp.access [] 2 (Value.table 0) Value.nil),
      p.Executes op := by
    intro op hop
    rw [(List.mem_replicate.1 hop).2]
    exact hexecutes
  obtain ⟨vm, heap, outs, hrun⟩ :=
    compiled_caches_transparent hp accessCounts_fieldRead _ hops (fun _ _ => false) fun _ _ => true
  exact ⟨p, vm, heap, outs, hp, hrun⟩

end

end Tcvm
