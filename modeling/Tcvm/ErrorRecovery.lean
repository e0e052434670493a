/-
# Errors inside a coroutine

`coroutine.resume` leaves a sequence below the frame the resumer waits in.  An error that was
pushed as a frame leaves the frames of the failed coroutine, and of every coroutine between it and
the resumer, and the sequence returns `false` and the error.  The sequences it passes hand it on:
those of `coroutine.wrap`, and those of `table.sort` and `string.gsub`, whose `?` returns it.  An
error an instruction raises by itself, and a resume of a coroutine that cannot be resumed, go to
the host instead.

## Main definitions

* `Choice.HandsOn` — a sequence that is polled with an error returns it;
* `ComesTo` — whatever else is chosen, the loop comes to a state with a property;
* `Frame.Rethrows`, `Unwinds`, `Escapes` — what an error leaves, and the captured variables after
  that;
* `CoroutineCall` — a coroutine that runs below a `coroutine.resume`;
* `CoroutineCall.Raises`, `CoroutineCall.Returned` — the errors, and the threads after one has been
  returned.

## Main results

* `unwinds_closes`, `escapes_closes` — the variables the failed coroutines captured are closed;
* `unwindError_comesTo`, `escape_comesTo` — an error leaves a thread, and all threads up to the
  resumer;
* `pcall_comesTo` — the sequence returns `false` and the error;
* **`coroutine_errors_return`** — an error is returned exactly when it was pushed as a frame, the
  frames can be left, and the two values fit.
-/

import Tcvm.ExecutorShape

namespace Tcvm

open StackWindow

/-! ### Whatever is chosen -/

/-- `SequenceImpl::error`, for the sequences of `table.sort` and `string.gsub`: the call that is
awaited fails, and the error is returned, with the window as it is. -/
def Choice.HandsOn (c : Choice) (d : Driver) : Prop :=
  ∀ top below id cs err rest, d.threadStack = top :: below →
    (d.threads top).frames = Frame.sequence (Sequence.other id) cs (some err) :: rest →
      c.poll = PollOutcome.error err ((d.threads top).stack.drop cs.bottom)

/-- Some choice hands an error on. -/
theorem exists_handsOn (d : Driver) : ∃ c : Choice, c.HandsOn d := by
  have c := Choice.ofNative (NativeOutcome.ok CallbackAction.ret [])
  by_cases h : ∃ top below id cs err rest, d.threadStack = top :: below ∧
      (d.threads top).frames = Frame.sequence (Sequence.other id) cs (some err) :: rest
  · obtain ⟨top, below, id, cs, err, rest, hstack, hframes⟩ := h
    refine ⟨{ c with poll := PollOutcome.error err ((d.threads top).stack.drop cs.bottom) }, ?_⟩
    intro top' below' id' cs' err' rest' hstack' hframes'
    obtain ⟨rfl, -⟩ := List.cons.inj (hstack.symm.trans hstack')
    have hframe := (List.cons.inj (hframes.symm.trans hframes')).1
    simp only [Frame.sequence.injEq, Option.some.injEq] at hframe
    rw [hframe.2.1, hframe.2.2]
  · exact ⟨c, fun top below id cs err rest hstack hframes =>
      absurd ⟨top, below, id, cs, err, rest, hstack, hframes⟩ h⟩

/-- Whatever else is chosen, the loop comes to a state with a property. -/
inductive ComesTo (P : Driver → Prop) : Driver → Prop
  | here {d : Driver} (h : P d) : ComesTo P d
  | step {d d' : Driver} (h : ∀ c : Choice, c.HandsOn d → iterate d c = DriveOutcome.next d')
      (hrest : ComesTo P d') : ComesTo P d

/-- An outcome from which the loop comes to a state with a property. -/
def DriveOutcome.ComesTo (P : Driver → Prop) (out : DriveOutcome) : Prop :=
  ∃ d, out = DriveOutcome.next d ∧ Tcvm.ComesTo P d

theorem comesTo_next {P : Driver → Prop} {d : Driver} :
    (DriveOutcome.next d).ComesTo P ↔ ComesTo P d := by
  constructor
  · rintro ⟨d', heq, h⟩
    cases heq
    exact h
  · intro h
    exact ⟨d, rfl, h⟩

theorem not_comesTo_panic {P : Driver → Prop} : ¬ DriveOutcome.panic.ComesTo P := by
  rintro ⟨d, heq, -⟩
  cases heq

theorem not_comesTo_error {P : Driver → Prop} {e : RuntimeError} {d : Driver} :
    ¬ (DriveOutcome.error e d).ComesTo P := by
  rintro ⟨d', heq, -⟩
  cases heq

/-- A step that does not depend on the choice. -/
theorem comesTo_iff_of_iterate {P : Driver → Prop} {d : Driver} {out : DriveOutcome}
    (h : ∀ c : Choice, c.HandsOn d → iterate d c = out) (hP : ¬ P d) :
    ComesTo P d ↔ out.ComesTo P := by
  constructor
  · intro hcomesTo
    cases hcomesTo with
    | here hd => exact absurd hd hP
    | @step _ d' hiter hrest =>
        obtain ⟨c, hc⟩ := exists_handsOn d
        exact ⟨d', (h c hc).symm.trans (hiter c hc), hrest⟩
  · rintro ⟨d', rfl, hrest⟩
    exact ComesTo.step h hrest

/-! ### Leaving frames -/

/-- A frame that an error leaves: bytecode, and every sequence but that of `coroutine.resume`. -/
def Frame.Rethrows : Frame → Prop
  | Frame.lua _ => True
  | Frame.sequence Sequence.unwrapResume _ _ => True
  | Frame.sequence (Sequence.other _) _ _ => True
  | _ => False

/-- A sequence that an error leaves returns it, and leaves its window. -/
theorem pollSequence_rethrows {c : Choice} {d : Driver} {top : ThreadId} {below : List ThreadId}
    {seq : Sequence} {cs : CallSite} {e : Option Value} {err : Value} {rest : List Frame}
    (hrethrows : (Frame.sequence seq cs e).Rethrows) (hc : c.HandsOn d)
    (hstack : d.threadStack = top :: below)
    (hframes : (d.threads top).frames = Frame.sequence seq cs (some err) :: rest) :
    pollSequence seq (some err) ((d.threads top).stack.drop cs.bottom) c.poll =
      PollOutcome.error err ((d.threads top).stack.drop cs.bottom) := by
  cases seq with
  | pcall => exact absurd hrethrows id
  | unwrapResume => rfl
  | other id => exact hc top below id cs err rest hstack hframes

/-- The frames of a thread can be left, and the captured variables end as `cells'`: those of every
frame of bytecode are closed while they are on the stack, and the window of every sequence starts
on the stack. -/
def Unwinds : List Frame → List Value → List UpvalueId → Cells → Cells → Prop
  | [], _, _, cells, cells' => cells' = cells
  | Frame.lua lf :: rest, s, uvs, cells, cells' =>
      ∃ r, closeList s lf.base uvs cells = some r ∧
        Unwinds rest (s.take lf.base) r.1 r.2 cells'
  | Frame.sequence _ cs _ :: rest, s, uvs, cells, cells' =>
      cs.bottom ≤ s.length ∧ Unwinds rest s uvs cells cells'
  | _ :: _, _, _, _, _ => False

/-- A cell is closed, or kept. -/
theorem closeCells_eq_or (s : List Value) (start : ℕ) (uvs : List UpvalueId) (cells : Cells)
    (uv : UpvalueId) : closeCells s start uvs cells uv = cells uv ∨
      ∃ v, closeCells s start uvs cells uv = UpvalueState.closed v := by
  unfold closeCells
  split
  · cases hcell : cells uv with
    | closed v => exact Or.inl rfl
    | openAt t index =>
        by_cases hle : start ≤ index
        · exact Or.inr ⟨_, if_pos hle⟩
        · exact Or.inl (if_neg hle)
  · exact Or.inl rfl

theorem closeCells_of_closed {s : List Value} {start : ℕ} {uvs : List UpvalueId} {cells : Cells}
    {uv : UpvalueId} {v : Value} (h : cells uv = UpvalueState.closed v) :
    closeCells s start uvs cells uv = UpvalueState.closed v := by
  unfold closeCells
  split
  · rw [h]
    rfl
  · exact h

/-- A cell that is closed stays closed. -/
theorem unwinds_closed {frames : List Frame} {s : List Value} {uvs : List UpvalueId}
    {cells cells' : Cells} (h : Unwinds frames s uvs cells cells') {uv : UpvalueId} {v : Value}
    (hclosed : cells uv = UpvalueState.closed v) : cells' uv = UpvalueState.closed v := by
  induction frames generalizing s uvs cells with
  | nil =>
      rw [show cells' = cells from h]
      exact hclosed
  | cons fr rest ih =>
      cases fr with
      | lua lf =>
          obtain ⟨r, hr, hrest⟩ := h
          refine ih hrest ?_
          rw [(closeList_cells hr).2]
          exact closeCells_of_closed hclosed
      | sequence seq cs e => exact ih h.2 hclosed
      | start f => exact absurd h id
      | waitThread wt => exact absurd h id
      | error e => exact absurd h id

/-- A cell is closed, or kept. -/
theorem unwinds_eq_or {frames : List Frame} {s : List Value} {uvs : List UpvalueId}
    {cells cells' : Cells} (h : Unwinds frames s uvs cells cells') (uv : UpvalueId) :
    cells' uv = cells uv ∨ ∃ v, cells' uv = UpvalueState.closed v := by
  induction frames generalizing s uvs cells with
  | nil => exact Or.inl (congrFun h uv)
  | cons fr rest ih =>
      cases fr with
      | lua lf =>
          obtain ⟨r, hr, hrest⟩ := h
          rcases closeCells_eq_or s lf.base uvs cells uv with hkeep | ⟨v, hclosed⟩
          · rcases ih hrest with heq | hclosed
            · left
              rw [heq, (closeList_cells hr).2]
              exact hkeep
            · exact Or.inr hclosed
          · right
            refine ⟨v, unwinds_closed hrest ?_⟩
            rw [(closeList_cells hr).2]
            exact hclosed
      | sequence seq cs e => exact ih h.2
      | start f => exact absurd h id
      | waitThread wt => exact absurd h id
      | error e => exact absurd h id

/-- **Leaving the frames of a thread** closes what they captured, with the value of its slot. -/
theorem unwinds_closes {frames : List Frame} {s : List Value} {uvs : List UpvalueId}
    {cells cells' : Cells} (h : Unwinds frames s uvs cells cells') {uv : UpvalueId}
    (hmem : uv ∈ uvs) {t : ThreadId} {index : ℕ} (hopen : cells uv = UpvalueState.openAt t index)
    {lf : LuaFrame} (hlf : Frame.lua lf ∈ frames) (hle : lf.base ≤ index) :
    cells' uv = UpvalueState.closed (s.getD index Value.nil) := by
  induction frames generalizing s uvs cells with
  | nil => exact absurd hlf List.not_mem_nil
  | cons fr rest ih =>
      cases fr with
      | lua lf' =>
          obtain ⟨r, hr, hrest⟩ := h
          have hcells := (closeList_cells hr).2
          have hcell : r.2 uv = closeCell s lf'.base (UpvalueState.openAt t index) := by
            rw [hcells]
            simp only [closeCells, if_pos hmem, hopen]
          by_cases hle' : lf'.base ≤ index
          · -- the frame on top has captured it
            refine unwinds_closed hrest ?_
            rw [hcell, closeCell, if_pos hle']
          · have hlf' : Frame.lua lf ∈ rest := by
              rcases List.mem_cons.1 hlf with heq | hlf'
              · cases heq
                exact absurd hle hle'
              · exact hlf'
            rw [closeCell, if_neg hle'] at hcell
            rw [ih hrest ((closeList_kept hr hcell).2 hmem) hcell hlf']
            congr 1
            rw [List.getD_eq_getElem?_getD, List.getD_eq_getElem?_getD,
              List.getElem?_take_of_lt (Nat.lt_of_not_le hle')]
      | sequence seq cs e =>
          exact ih h.2 hmem hopen ((List.mem_cons.1 hlf).resolve_left (by simp))
      | start f => exact absurd h id
      | waitThread wt => exact absurd h id
      | error e => exact absurd h id

/-! ### Leaving a thread -/

theorem Driver.store_self (d : Driver) (t : ThreadId) (ts : ThreadState) (cells : Cells) :
    (d.store t ts cells).threads t = ts := d.setThread_self t ts

theorem Driver.store_store (d : Driver) (t : ThreadId) (ts ts' : ThreadState) (c c' : Cells) :
    (d.store t ts c).store t ts' c' = d.store t ts' c' := by
  simp only [Driver.store, Driver.setThread, Function.update_idem]

theorem Driver.setThread_store (d : Driver) (t : ThreadId) (ts ts' : ThreadState) (c : Cells) :
    (d.store t ts c).setThread t ts' = d.store t ts' c := by
  simp only [Driver.store, Driver.setThread, Function.update_idem]

section Steps

variable {d : Driver} {top : ThreadId} {below : List ThreadId}

/-- A frame of bytecode is left, if what it captured can be closed. -/
theorem unwindError_lua {err : Value} {lf : LuaFrame} {rest : List Frame}
    {r : ThreadState × Cells} (h : closeUpvalues (d.threads top) d.cells lf.base = some r) :
    unwindError d top below err (Frame.lua lf :: rest) =
      unwindError (d.store top ((closeTbcVars r.1 lf.base).setStack (r.1.stack.take lf.base)) r.2)
        top below err rest := by
  simp only [unwindError, unwindFrames, h, Driver.store_self, Driver.store_store]
  rfl

theorem unwindError_lua_panic {err : Value} {lf : LuaFrame} {rest : List Frame}
    (h : closeUpvalues (d.threads top) d.cells lf.base = none) :
    unwindError d top below err (Frame.lua lf :: rest) = DriveOutcome.panic := by
  simp only [unwindError, unwindFrames, h]

end Steps

/-- The error has left a thread: the thread below it fails. -/
def Driver.handOver (d : Driver) (top : ThreadId) (ts : ThreadState) (cells : Cells)
    (resumer : ThreadId) (below : List ThreadId) (err : Value) : Driver :=
  { (d.store top ts cells).setThread resumer
      { d.threads resumer with
        frames := Frame.error err :: (d.threads resumer).frames.tail
        status := ThreadStatus.normal } with
    threadStack := resumer :: below }

theorem Driver.handOver_store (d : Driver) {top resumer : ThreadId} (hne : resumer ≠ top)
    (ts ts' : ThreadState) (c c' : Cells) (below : List ThreadId) (err : Value) :
    (d.store top ts c).handOver top ts' c' resumer below err =
      d.handOver top ts' c' resumer below err := by
  have hthreads : (d.store top ts c).threads resumer = d.threads resumer :=
    d.setThread_of_ne hne ts
  simp only [Driver.handOver, Driver.store_store, hthreads]

theorem handOver_fields {d d₁ : Driver} {top resumer : ThreadId} {ts : ThreadState} {c : Cells}
    {below : List ThreadId} {err : Value} (hne : resumer ≠ top)
    (h : d.handOver top ts c resumer below err = d₁) :
    d₁.threads resumer =
        { d.threads resumer with
          frames := Frame.error err :: (d.threads resumer).frames.tail
          status := ThreadStatus.normal } ∧
      d₁.threads top = ts ∧ (∀ t, t ≠ top → t ≠ resumer → d₁.threads t = d.threads t) ∧
      d₁.cells = c ∧ d₁.threadStack = resumer :: below := by
  subst h
  refine ⟨Driver.setThread_self .., ?_, fun t ht hres => ?_, rfl, rfl⟩
  · show ((d.store top ts c).setThread resumer _).threads top = ts
    rw [Driver.setThread_of_ne _ (Ne.symm hne), d.store_self]
  · show ((d.store top ts c).setThread resumer _).threads t = d.threads t
    rw [Driver.setThread_of_ne _ hres]
    exact d.setThread_of_ne ht ts

/-- **An error leaves a thread**: it comes to the thread below exactly when the frames can be
left. -/
theorem unwindError_comesTo {frames : List Frame} (hframes : ∀ fr ∈ frames, fr.Rethrows)
    {d : Driver} {top resumer : ThreadId} {below : List ThreadId} {wt : CallSite}
    {waiting : List Frame} (hstack : d.threadStack = top :: resumer :: below)
    (hne : resumer ≠ top) (hstatus : (d.threads top).status = ThreadStatus.normal)
    (hpending : (d.threads top).pendingAction = none)
    (hwait : (d.threads resumer).frames = Frame.waitThread wt :: waiting) (err : Value) :
    (∀ cells', Unwinds frames (d.threads top).stack (d.threads top).openUpvalues d.cells cells' →
      ∃ ts, ts.frames = [] ∧ ∀ P : Driver → Prop,
        (∀ d', P d' → d'.threadStack ≠ top :: resumer :: below) →
        ((unwindError d top (resumer :: below) err frames).ComesTo P ↔
          ComesTo P (d.handOver top ts cells' resumer below err))) ∧
    ((¬ ∃ cells', Unwinds frames (d.threads top).stack (d.threads top).openUpvalues d.cells
        cells') → ∀ P : Driver → Prop,
        (∀ d', P d' → d'.threadStack ≠ top :: resumer :: below) →
        ¬ (unwindError d top (resumer :: below) err frames).ComesTo P) := by
  induction frames generalizing d with
  | nil =>
      refine ⟨fun cells' h => ⟨{ d.threads top with frames := [] }, rfl, fun P _ => ?_⟩,
        fun h => absurd ⟨d.cells, rfl⟩ h⟩
      have hcells : cells' = d.cells := h
      have hsame : (d.store top { d.threads top with frames := [] } d.cells).threads resumer =
          d.threads resumer := d.setThread_of_ne hne _
      rw [hcells, ← comesTo_next]
      simp only [unwindError, unwindFrames, hsame, hwait, Driver.handOver, List.tail_cons]
  | cons fr rest ih =>
      have hrest : ∀ fr ∈ rest, fr.Rethrows := fun fr' h => hframes fr' (List.mem_cons_of_mem _ h)
      cases fr with
      | lua lf =>
          cases hclose : closeList (d.threads top).stack lf.base (d.threads top).openUpvalues
            d.cells with
          | none =>
              have hnone : closeUpvalues (d.threads top) d.cells lf.base = none := by
                rw [closeUpvalues, hclose, Option.map_none]
              refine ⟨fun cells' h => ?_, fun _ P _ => ?_⟩
              · obtain ⟨r, hr, -⟩ := h
                exact absurd (hclose.symm.trans hr) (by simp)
              · rw [unwindError_lua_panic hnone]
                exact not_comesTo_panic
          | some r =>
              have hsome : closeUpvalues (d.threads top) d.cells lf.base =
                  some ({ d.threads top with openUpvalues := r.1 }, r.2) := by
                rw [closeUpvalues, hclose, Option.map_some]
              rw [unwindError_lua hsome]
              obtain ⟨ts, hts, hstack', huvs, hstatus', hpending'⟩ : ∃ ts : ThreadState,
                  (closeTbcVars { d.threads top with openUpvalues := r.1 } lf.base).setStack
                    ((d.threads top).stack.take lf.base) = ts ∧
                  ts.stack = (d.threads top).stack.take lf.base ∧ ts.openUpvalues = r.1 ∧
                  ts.status = ThreadStatus.normal ∧ ts.pendingAction = none :=
                ⟨_, rfl, rfl, rfl, hstatus, hpending⟩
              simp only [hts]
              have hself := d.store_self top ts r.2
              obtain ⟨hleft, hnone⟩ := ih hrest (d := d.store top ts r.2) hstack
                (by rw [hself, hstatus']) (by rw [hself, hpending'])
                (by rw [← hwait]; exact congrArg ThreadState.frames (d.setThread_of_ne hne ts))
              rw [hself, hstack', huvs] at hleft hnone
              constructor
              · rintro cells' ⟨r', hr', hunwinds⟩
                obtain rfl := Option.some.inj (hclose.symm.trans hr')
                obtain ⟨ts', hnil, hiff⟩ := hleft cells' hunwinds
                refine ⟨ts', hnil, fun P hP => ?_⟩
                rw [hiff P hP, d.handOver_store hne]
              · intro hnot P hP
                exact hnone
                  (fun h => hnot (h.imp fun cells' hunwinds => ⟨r, hclose, hunwinds⟩)) P hP
      | sequence seq cs e =>
          have hrethrows := hframes _ (List.mem_cons_self ..)
          -- the error is handed to the sequence, which raises it again
          obtain ⟨d₁, hd₁⟩ : ∃ d₁, d.store top { d.threads top with
              frames := Frame.sequence seq cs (some err) :: rest } d.cells =
                d₁ := ⟨_, rfl⟩
          have hself₁ : d₁.threads top = { d.threads top with
              frames := Frame.sequence seq cs (some err) :: rest } := by
            rw [← hd₁, d.store_self]
          have hstack₁ : d₁.threadStack = top :: resumer :: below := by
            rw [← hd₁]
            exact hstack
          have hcaught : unwindError d top (resumer :: below) err
              (Frame.sequence seq cs e :: rest) = DriveOutcome.next d₁ := by
            simp only [unwindError, unwindFrames, hd₁]
          have hpump := iterate_sequence hstack₁ (by rw [hself₁]; exact hstatus)
            (by rw [hself₁]; exact hpending) (by rw [hself₁])
          rw [hcaught]
          by_cases hlen : cs.bottom ≤ (d.threads top).stack.length
          · obtain ⟨d₂, hd₂⟩ : ∃ d₂, d.store top { d.threads top with
                frames := Frame.error err :: rest } d.cells = d₂ := ⟨_, rfl⟩
            have hself₂ : d₂.threads top = { d.threads top with
                frames := Frame.error err :: rest } := by
              rw [← hd₂, d.store_self]
            have hstack₂ : d₂.threadStack = top :: resumer :: below := by
              rw [← hd₂]
              exact hstack
            have hcells₂ : d₂.cells = d.cells := by
              rw [← hd₂]
              rfl
            have hraise : ∀ c : Choice, c.HandsOn d₁ → iterate d₁ c = DriveOutcome.next d₂ := by
              intro c hc
              have hpoll := pollSequence_rethrows hrethrows hc hstack₁ (by rw [hself₁])
              rw [hself₁] at hpoll
              rw [hpump, pumpSequence, hself₁, if_pos (by exact hlen)]
              simp only [hpoll, PollOutcome.window, List.take_append_drop, ← hd₁, ← hd₂,
                Driver.setThread_store]
              rfl
            have herror := iterate_error hstack₂ (by rw [hself₂]; exact hstatus)
              (by rw [hself₂]; exact hpending) (by rw [hself₂])
            have hsteps : ∀ P : Driver → Prop,
                (∀ d', P d' → d'.threadStack ≠ top :: resumer :: below) →
                ((DriveOutcome.next d₁).ComesTo P ↔
                  (unwindError d₂ top (resumer :: below) err rest).ComesTo P) := by
              intro P hP
              rw [comesTo_next, comesTo_iff_of_iterate hraise fun h => hP _ h hstack₁,
                comesTo_next,
                comesTo_iff_of_iterate (fun c _ => herror c) fun h => hP _ h hstack₂]
            obtain ⟨hleft, hnone⟩ := ih hrest (d := d₂) hstack₂ (by rw [hself₂]; exact hstatus)
              (by rw [hself₂]; exact hpending)
              (by rw [← hwait, ← hd₂]; exact congrArg ThreadState.frames (d.setThread_of_ne hne _))
            rw [hself₂, hcells₂] at hleft hnone
            constructor
            · rintro cells' ⟨-, hunwinds⟩
              obtain ⟨ts', hnil, hiff⟩ := hleft cells' hunwinds
              refine ⟨ts', hnil, fun P hP => ?_⟩
              rw [hsteps P hP, hiff P hP, ← hd₂, d.handOver_store hne]
            · intro hnot P hP
              rw [hsteps P hP]
              exact hnone (fun h => hnot (h.imp fun cells' hunwinds => ⟨hlen, hunwinds⟩)) P hP
          · -- the window of the sequence is past the end of the stack
            have hpanic : ∀ c, iterate d₁ c = DriveOutcome.panic := by
              intro c
              rw [hpump, pumpSequence, hself₁, if_neg (by exact hlen)]
            refine ⟨fun cells' h => absurd h.1 hlen, fun _ P hP => ?_⟩
            rw [comesTo_next, comesTo_iff_of_iterate (fun c _ => hpanic c) fun h => hP _ h hstack₁]
            exact not_comesTo_panic
      | start f => exact absurd (hframes _ (List.mem_cons_self ..)) id
      | waitThread wt => exact absurd (hframes _ (List.mem_cons_self ..)) id
      | error e => exact absurd (hframes _ (List.mem_cons_self ..)) id

/-! ### Leaving all threads up to the resumer -/

/-- The frames of the threads, without the one on top of each, can be left one thread after
another. -/
def Escapes (threads : ThreadId → ThreadState) : List ThreadId → Cells → Cells → Prop
  | [], cells, cells' => cells' = cells
  | t :: ts, cells, cells' =>
      ∃ c, Unwinds (threads t).frames.tail (threads t).stack (threads t).openUpvalues cells c ∧
        Escapes threads ts c cells'

theorem escapes_congr {threads threads' : ThreadId → ThreadState} {ts : List ThreadId}
    (h : ∀ t ∈ ts, (threads' t).frames.tail = (threads t).frames.tail ∧
      (threads' t).stack = (threads t).stack ∧
      (threads' t).openUpvalues = (threads t).openUpvalues) {cells cells' : Cells} :
    Escapes threads' ts cells cells' ↔ Escapes threads ts cells cells' := by
  induction ts generalizing cells with
  | nil => exact Iff.rfl
  | cons t ts ih =>
      obtain ⟨hframes, hstack, huvs⟩ := h t (List.mem_cons_self ..)
      have hrest : ∀ {c : Cells}, Escapes threads' ts c cells' ↔ Escapes threads ts c cells' :=
        ih fun t' ht' => h t' (List.mem_cons_of_mem _ ht')
      simp only [Escapes, hframes, hstack, huvs, hrest]

theorem escapes_closed {threads : ThreadId → ThreadState} {ts : List ThreadId}
    {cells cells' : Cells} (h : Escapes threads ts cells cells') {uv : UpvalueId} {v : Value}
    (hclosed : cells uv = UpvalueState.closed v) : cells' uv = UpvalueState.closed v := by
  induction ts generalizing cells with
  | nil =>
      rw [show cells' = cells from h]
      exact hclosed
  | cons t ts ih =>
      obtain ⟨c, hunwinds, hrest⟩ := h
      exact ih hrest (unwinds_closed hunwinds hclosed)

/-- **Leaving the threads** closes what their frames captured. -/
theorem escapes_closes {threads : ThreadId → ThreadState} {ts : List ThreadId}
    {cells cells' : Cells} (h : Escapes threads ts cells cells') {t : ThreadId} (ht : t ∈ ts)
    {uv : UpvalueId} (hmem : uv ∈ (threads t).openUpvalues) {t' : ThreadId} {index : ℕ}
    (hopen : cells uv = UpvalueState.openAt t' index) {lf : LuaFrame}
    (hlf : Frame.lua lf ∈ (threads t).frames.tail) (hle : lf.base ≤ index) :
    ∃ v, cells' uv = UpvalueState.closed v := by
  induction ts generalizing cells with
  | nil => exact absurd ht List.not_mem_nil
  | cons t₁ ts ih =>
      obtain ⟨c, hunwinds, hrest⟩ := h
      rcases List.mem_cons.1 ht with rfl | ht
      · exact ⟨_, escapes_closed hrest (unwinds_closes hunwinds hmem hopen hlf hle)⟩
      · rcases unwinds_eq_or hunwinds uv with hkeep | ⟨v, hclosed⟩
        · exact ih hrest ht (hkeep.trans hopen)
        · exact ⟨v, escapes_closed hrest hclosed⟩

/-- A thread that waits, and does not catch an error. -/
structure Forwards (ts : ThreadState) : Prop where
  pending : ts.pendingAction = none
  frames : ∃ wt rest, ts.frames = Frame.waitThread wt :: rest ∧ ∀ fr ∈ rest, fr.Rethrows

/-- The error has come to the resumer: the threads above it have no frames. -/
structure Escaped (d d' : Driver) (failed : List ThreadId) (resumer : ThreadId)
    (below : List ThreadId) (err : Value) : Prop where
  stack : d'.threadStack = resumer :: below
  left : ∀ t ∈ failed, (d'.threads t).frames = []
  fails : d'.threads resumer =
    { d.threads resumer with
      frames := Frame.error err :: (d.threads resumer).frames.tail
      status := ThreadStatus.normal }
  others : ∀ t, t ∉ failed → t ≠ resumer → d'.threads t = d.threads t

theorem above_ne (top resumer : ThreadId) (mids below : List ThreadId) :
    top :: (mids ++ resumer :: below) ≠ resumer :: below := by
  intro heq
  have hlen := congrArg List.length heq
  simp only [List.length_cons, List.length_append] at hlen
  omega

/-- The first step: the frames of the failing thread are unwound. -/
theorem failing_comesTo {mids : List ThreadId} {d : Driver} {top resumer : ThreadId}
    {below : List ThreadId} {err : Value} {frames : List Frame}
    (hstack : d.threadStack = top :: (mids ++ resumer :: below))
    (hstatus : (d.threads top).status = ThreadStatus.normal)
    (hpending : (d.threads top).pendingAction = none)
    (htop : (d.threads top).frames = Frame.error err :: frames) {P : Driver → Prop}
    (hP : ∀ d', P d' → d'.threadStack = resumer :: below) :
    ComesTo P d ↔ (unwindError d top (mids ++ resumer :: below) err frames).ComesTo P :=
  comesTo_iff_of_iterate (fun c _ => iterate_error hstack hstatus hpending htop c) fun h =>
    above_ne top resumer mids below (hstack.symm.trans (hP d h))

/-- **An error leaves all threads up to the resumer**, exactly when their frames can be left. -/
theorem escape_comesTo {mids : List ThreadId} {d : Driver} {top resumer : ThreadId}
    {below : List ThreadId} {err : Value} {frames : List Frame} {wt : CallSite}
    {waiting : List Frame} (hstack : d.threadStack = top :: (mids ++ resumer :: below))
    (hnodup : (top :: (mids ++ [resumer])).Nodup)
    (hstatus : (d.threads top).status = ThreadStatus.normal)
    (hpending : (d.threads top).pendingAction = none)
    (htop : (d.threads top).frames = Frame.error err :: frames)
    (hframes : ∀ fr ∈ frames, fr.Rethrows) (hmids : ∀ t ∈ mids, Forwards (d.threads t))
    (hwait : (d.threads resumer).frames = Frame.waitThread wt :: waiting) :
    (∀ cells', Escapes d.threads (top :: mids) d.cells cells' →
      ∃ d', Escaped d d' (top :: mids) resumer below err ∧ d'.cells = cells' ∧
        ∀ P : Driver → Prop, (∀ d', P d' → d'.threadStack = resumer :: below) →
          (ComesTo P d ↔ ComesTo P d')) ∧
    ((¬ ∃ cells', Escapes d.threads (top :: mids) d.cells cells') →
      ∀ P : Driver → Prop, (∀ d', P d' → d'.threadStack = resumer :: below) → ¬ ComesTo P d) := by
  have hlonger := above_ne
  induction mids generalizing d top frames with
  | nil =>
      have htail : (d.threads top).frames.tail = frames := by rw [htop, List.tail_cons]
      have hne : resumer ≠ top := by
        rintro rfl
        exact (List.nodup_cons.1 hnodup).1 (List.mem_singleton.2 rfl)
      obtain ⟨hleft, hnone⟩ :=
        unwindError_comesTo hframes hstack hne hstatus hpending hwait err
      constructor
      · rintro cells' ⟨c, hunwinds, hcells⟩
        rw [htail] at hunwinds
        obtain rfl : cells' = c := hcells
        obtain ⟨ts, hnil, hiff⟩ := hleft cells' hunwinds
        refine ⟨d.handOver top ts cells' resumer below err, ⟨rfl, ?_, ?_, ?_⟩, rfl, fun P hP => ?_⟩
        · intro t ht
          rw [List.mem_singleton.1 ht]
          show (((d.store top ts cells').setThread resumer _).threads top).frames = []
          rw [Driver.setThread_of_ne _ (Ne.symm hne), d.store_self, hnil]
        · exact Driver.setThread_self ..
        · intro t ht hres
          show ((d.store top ts cells').setThread resumer _).threads t = d.threads t
          rw [Driver.setThread_of_ne _ hres]
          exact d.setThread_of_ne (fun heq => ht (List.mem_singleton.2 heq)) ts
        · rw [failing_comesTo hstack hstatus hpending htop hP]
          exact hiff P fun d' hd' heq => hlonger _ _ [] _ (heq.symm.trans (hP d' hd'))
      · intro hnot P hP
        rw [failing_comesTo hstack hstatus hpending htop hP]
        refine hnone (fun ⟨c, hunwinds⟩ => hnot ⟨c, c, ?_, rfl⟩) P fun d' hd' heq =>
          hlonger _ _ [] _ (heq.symm.trans (hP d' hd'))
        rwa [htail]
  | cons m mids ih =>
      have htail : (d.threads top).frames.tail = frames := by rw [htop, List.tail_cons]
      have hnodupM : (m :: (mids ++ [resumer])).Nodup := (List.nodup_cons.1 hnodup).2
      have htopM : top ∉ m :: (mids ++ [resumer]) := (List.nodup_cons.1 hnodup).1
      have hne : m ≠ top := fun heq => htopM (heq ▸ List.mem_cons_self ..)
      have hres : resumer ∈ mids ++ [resumer] :=
        List.mem_append_right _ (List.mem_singleton.2 rfl)
      have hresTop : resumer ≠ top := fun heq => htopM (heq ▸ List.mem_cons_of_mem _ hres)
      have hresM : resumer ≠ m := fun heq => (List.nodup_cons.1 hnodupM).1 (heq ▸ hres)
      have hmidsM : ∀ t ∈ mids, t ≠ top ∧ t ≠ m := by
        intro t ht
        have hmem : t ∈ mids ++ [resumer] := List.mem_append_left _ ht
        exact ⟨fun heq => htopM (heq ▸ List.mem_cons_of_mem _ hmem),
          fun heq => (List.nodup_cons.1 hnodupM).1 (heq ▸ hmem)⟩
      obtain ⟨hpendingM, wtM, framesM, hframesM, hrethrowsM⟩ := hmids m (List.mem_cons_self ..)
      have htailM : (d.threads m).frames.tail = framesM := by rw [hframesM, List.tail_cons]
      obtain ⟨hleft, hnone⟩ :=
        unwindError_comesTo hframes hstack hne hstatus hpending hframesM err
      have hP' : ∀ P : Driver → Prop, (∀ d', P d' → d'.threadStack = resumer :: below) →
          ∀ d', P d' → d'.threadStack ≠ top :: m :: (mids ++ resumer :: below) :=
        fun P hP d' hd' heq => hlonger top resumer (m :: mids) below (heq.symm.trans (hP d' hd'))
      constructor
      · rintro cells' ⟨c, hunwinds, hescapes⟩
        rw [htail] at hunwinds
        obtain ⟨ts, hnil, hiff⟩ := hleft c hunwinds
        obtain ⟨d₁, hd₁⟩ : ∃ d₁, d.handOver top ts c m (mids ++ resumer :: below) err = d₁ :=
          ⟨_, rfl⟩
        obtain ⟨hselfM, hself, hothers, hcells₁, hstack₁⟩ := handOver_fields hne hd₁
        rw [htailM] at hselfM
        have hsame : Escapes d₁.threads (m :: mids) d₁.cells cells' := by
          rw [hcells₁]
          refine (escapes_congr fun t ht => ?_).2 hescapes
          rcases List.mem_cons.1 ht with rfl | ht
          · rw [hselfM, htailM]
            exact ⟨rfl, rfl, rfl⟩
          · rw [hothers t (hmidsM t ht).1 (hmidsM t ht).2]
            exact ⟨rfl, rfl, rfl⟩
        obtain ⟨hyes, -⟩ := ih hstack₁ hnodupM (by rw [hselfM]) (by rw [hselfM]; exact hpendingM)
          (by rw [hselfM]) hrethrowsM
          (fun t ht => by
            rw [hothers t (hmidsM t ht).1 (hmidsM t ht).2]
            exact hmids t (List.mem_cons_of_mem _ ht))
          (by rw [hothers resumer hresTop hresM]; exact hwait)
        obtain ⟨d', hescaped, hcells', hiff'⟩ := hyes cells' hsame
        refine ⟨d', ⟨hescaped.stack, ?_, ?_, ?_⟩, hcells', fun P hP => ?_⟩
        · intro t ht
          rcases List.mem_cons.1 ht with rfl | ht
          · rw [hescaped.others t (fun hmem => htopM ?_) (Ne.symm hresTop), hself, hnil]
            rcases List.mem_cons.1 hmem with heq | hmem
            · exact heq ▸ List.mem_cons_self ..
            · exact List.mem_cons_of_mem _ (List.mem_append_left _ hmem)
          · exact hescaped.left t ht
        · rw [hescaped.fails, hothers resumer hresTop hresM]
        · intro t ht hne'
          have htop' : t ≠ top := fun heq => ht (heq ▸ List.mem_cons_self ..)
          have hmid' : t ∉ m :: mids := fun hmem => ht (List.mem_cons_of_mem _ hmem)
          rw [hescaped.others t hmid' hne',
            hothers t htop' fun heq => hmid' (heq ▸ List.mem_cons_self ..)]
        · have hnext : ComesTo P (d.handOver top ts c m (mids ++ resumer :: below) err) ↔
              ComesTo P d' := by
            rw [hd₁]
            exact hiff' P hP
          exact (failing_comesTo hstack hstatus hpending htop hP).trans
            ((hiff P (hP' P hP)).trans hnext)
      · intro hnot P hP
        rw [failing_comesTo hstack hstatus hpending htop hP]
        by_cases hex : ∃ c, Unwinds frames (d.threads top).stack (d.threads top).openUpvalues
          d.cells c
        · obtain ⟨c, hunwinds⟩ := hex
          obtain ⟨ts, hnil, hiff⟩ := hleft c hunwinds
          obtain ⟨d₁, hd₁⟩ : ∃ d₁, d.handOver top ts c m (mids ++ resumer :: below) err = d₁ :=
            ⟨_, rfl⟩
          obtain ⟨hselfM, hself, hothers, hcells₁, hstack₁⟩ := handOver_fields hne hd₁
          rw [htailM] at hselfM
          obtain ⟨-, hno⟩ := ih hstack₁ hnodupM (by rw [hselfM]) (by rw [hselfM]; exact hpendingM)
            (by rw [hselfM]) hrethrowsM
            (fun t ht => by
              rw [hothers t (hmidsM t ht).1 (hmidsM t ht).2]
              exact hmids t (List.mem_cons_of_mem _ ht))
            (by rw [hothers resumer hresTop hresM]; exact hwait)
          intro hcomes
          have hnext : ComesTo P (d.handOver top ts c m (mids ++ resumer :: below) err) :=
            (hiff P (hP' P hP)).1 hcomes
          rw [hd₁] at hnext
          refine hno (fun ⟨cells', hescapes⟩ => hnot ⟨cells', c, by rwa [htail], ?_⟩) P hP
            hnext
          rw [hcells₁] at hescapes
          refine (escapes_congr fun t ht => ?_).1 hescapes
          rcases List.mem_cons.1 ht with rfl | ht
          · rw [hselfM, htailM]
            exact ⟨rfl, rfl, rfl⟩
          · rw [hothers t (hmidsM t ht).1 (hmidsM t ht).2]
            exact ⟨rfl, rfl, rfl⟩
        · exact hnone hex P (hP' P hP)

/-! ### The sequence of `coroutine.resume` -/

/-- The resumer, when its sequence has been polled with an error. -/
def ThreadState.polled (ts : ThreadState) (cs : CallSite) (rest : List Frame) (err : Value) :
    ThreadState :=
  { ts with
    frames := rest, stack := ts.stack.take cs.bottom ++ [Value.boolean false, err]
    status := ThreadStatus.normal }

/-- **The sequence of `coroutine.resume`** returns `false` and the error, exactly when its window
starts on the stack and the two values can be landed. -/
theorem pcall_comesTo {d : Driver} {resumer : ThreadId} {below : List ThreadId} {err : Value}
    {cs : CallSite} {e : Option Value} {rest : List Frame}
    (hstack : d.threadStack = resumer :: below)
    (hstatus : (d.threads resumer).status = ThreadStatus.normal)
    (hpending : (d.threads resumer).pendingAction = none)
    (hframes : (d.threads resumer).frames =
      Frame.error err :: Frame.sequence Sequence.pcall cs e :: rest) {P : Driver → Prop}
    (hP : ∀ d', P d' → (d'.threads resumer).frames.length = rest.length) :
    ComesTo P d ↔ cs.bottom ≤ (d.threads resumer).stack.length ∧
      ∃ ts, landCallResults ((d.threads resumer).polled cs rest err) cs = some ts ∧
        ComesTo P (d.store resumer ts d.cells) := by
  obtain ⟨d₁, hd₁⟩ : ∃ d₁, d.store resumer { d.threads resumer with
      frames := Frame.sequence Sequence.pcall cs (some err) :: rest } d.cells = d₁ := ⟨_, rfl⟩
  have hself : d₁.threads resumer = { d.threads resumer with
      frames := Frame.sequence Sequence.pcall cs (some err) :: rest } := by
    rw [← hd₁, d.store_self]
  have hstack₁ : d₁.threadStack = resumer :: below := by
    rw [← hd₁]
    exact hstack
  have hcaught : ∀ c, iterate d c = DriveOutcome.next d₁ := by
    intro c
    rw [iterate_error hstack hstatus hpending hframes c]
    simp only [unwindError, unwindFrames, hd₁]
  have hnot : ¬ P d := by
    intro h
    have hlen := hP d h
    rw [hframes, List.length_cons, List.length_cons] at hlen
    omega
  have hnot₁ : ¬ P d₁ := by
    intro h
    have hlen := hP d₁ h
    rw [hself, List.length_cons] at hlen
    omega
  have hpump := iterate_sequence hstack₁ (by rw [hself]; exact hstatus)
    (by rw [hself]; exact hpending) (by rw [hself])
  rw [comesTo_iff_of_iterate (fun c _ => hcaught c) hnot, comesTo_next]
  by_cases hlen : cs.bottom ≤ (d.threads resumer).stack.length
  · have hland : ∀ c, iterate d₁ c =
        d₁.continueWith resumer (landCallResults ((d.threads resumer).polled cs rest err) cs) := by
      intro c
      rw [hpump, pumpSequence, hself, if_pos (by exact hlen)]
      simp only [pollSequence, PollOutcome.window, ThreadState.polled,
        ThreadState.setStack, hstatus]
    rw [comesTo_iff_of_iterate (fun c _ => hland c) hnot₁]
    cases hresult : landCallResults ((d.threads resumer).polled cs rest err) cs with
    | none =>
        refine iff_of_false not_comesTo_panic ?_
        rintro ⟨-, ts, hts, -⟩
        exact absurd hts (by simp)
    | some ts =>
        simp only [Driver.continueWith, comesTo_next, ← hd₁, Driver.setThread_store]
        constructor
        · intro h
          exact ⟨hlen, ts, rfl, h⟩
        · rintro ⟨-, ts', hts', h⟩
          obtain rfl := Option.some.inj hts'
          exact h
  · have hpanic : ∀ c, iterate d₁ c = DriveOutcome.panic := by
      intro c
      rw [hpump, pumpSequence, hself, if_neg (by exact hlen)]
    rw [comesTo_iff_of_iterate (fun c _ => hpanic c) hnot₁]
    exact iff_of_false not_comesTo_panic fun h => hlen h.1

/-- Values that were landed for a frame of bytecode are where the convention asks for. -/
theorem landed_of_landCallResults {ts ts' : ThreadState} {below vals : List Value}
    {caller : LuaFrame} {rest : List Frame} {bottom returns : ℕ}
    (hframes : ts.frames = Frame.lua caller :: rest)
    (hbelow : ts.stack.take below.length = below) (habove : below.length ≤ bottom)
    (hlen : bottom ≤ ts.stack.length) (hvals : ts.stack.drop bottom = vals)
    (h : landCallResults ts
      { bottom := bottom, funcIdx := below.length, returns := returns, cont := none } = some ts') :
    Landed (Frame.lua caller :: rest) below returns vals ts' := by
  have hfits : Fits below.length returns vals.length ts.stack.length := by
    by_cases hreturns : returns = 0
    · exact Or.inl hreturns
    · have hretc : ts.stack.length - bottom = vals.length := by
        rw [← hvals, List.length_drop]
      simp only [landCallResults, if_neg hreturns, hretc] at h
      obtain ⟨s, hs, -⟩ := Option.map_eq_some_iff.1 h
      have hblock : (ts.stack.drop bottom).take vals.length = vals := by
        rw [hvals, List.take_length]
      exact ((Call.landValues_fixed hreturns habove (by omega) hblock).1 hs).1
  obtain ⟨ts'', h', hlanded⟩ :=
    (Call.landCallResults_lands hframes hbelow habove hlen hvals).2 hfits
  obtain rfl := Option.some.inj (h'.symm.trans h)
  exact hlanded

/-! ### Errors that go to the host -/

/-- A thread that is not suspended is not switched to. -/
theorem scheduleThreadResume_refused {d : Driver} {top target : ThreadId} {argsBottom : ℕ}
    {wt : CallSite} {P : Driver → Prop}
    (h : target ≠ top → (d.threads target).status ≠ ThreadStatus.suspended) :
    ¬ (scheduleThreadResume d top target argsBottom wt).ComesTo P := by
  unfold scheduleThreadResume
  simp only
  split
  · have hstatus : ((d.setThread top ((d.threads top).waiting argsBottom wt)).threads
        target).status ≠ ThreadStatus.suspended := by
      by_cases heq : target = top
      · rw [heq, d.setThread_self]
        exact fun h => by cases h
      · rw [d.setThread_of_ne heq]
        exact h heq
    split
    · next ts hresume => exact absurd (resumeWith_suspended hresume) hstatus
    · exact not_comesTo_panic
    · exact not_comesTo_error
  · exact not_comesTo_panic

/-! ### A coroutine below `coroutine.resume` -/

/-- A coroutine that runs below a `coroutine.resume`: the coroutines between it and the resumer wait
without a sequence that catches errors, and the resumer waits above the sequence of
`coroutine.resume`, whose caller has the frames `rest`. -/
structure CoroutineCall where
  d : Driver
  top : ThreadId
  mids : List ThreadId
  resumer : ThreadId
  below : List ThreadId
  wt : CallSite
  cs : CallSite
  rest : List Frame
  stack : d.threadStack = top :: (mids ++ resumer :: below)
  nodup : (top :: (mids ++ [resumer])).Nodup
  running : (d.threads top).status = ThreadStatus.normal
  forwards : ∀ t ∈ mids, Forwards (d.threads t)
  resumerPending : (d.threads resumer).pendingAction = none
  resumed : (d.threads resumer).frames =
    Frame.waitThread wt :: Frame.sequence Sequence.pcall cs none :: rest

namespace CoroutineCall

variable (s : CoroutineCall)

/-- The coroutines an error fails. -/
def failed : List ThreadId := s.top :: s.mids

/-- The coroutine raises an error, which no frame of it catches: it was pushed as a frame, by a
native callback or a sequence, or an instruction raises it, or a thread is resumed that cannot be
resumed. -/
inductive Raises (c : Choice) (err : Value) : Prop
  | pushed {frames : List Frame} (hpending : (s.d.threads s.top).pendingAction = none)
      (hframes : (s.d.threads s.top).frames = Frame.error err :: frames)
      (hrethrows : ∀ fr ∈ frames, fr.Rethrows)
  | instruction {lf : LuaFrame} {frames : List Frame}
      (hpending : (s.d.threads s.top).pendingAction = none)
      (hframes : (s.d.threads s.top).frames = Frame.lua lf :: frames)
      (hraise : c.instr = Instr.raise)
  | refused {p : PendingAction} {target : ThreadId} {andThen : Option Sequence}
      (hpending : (s.d.threads s.top).pendingAction = some p)
      (haction : p.action = CallbackAction.resume target andThen)
      (htarget : (s.d.threads target).status ≠ ThreadStatus.suspended)
  | refusedPoll {seq : Sequence} {cs : CallSite} {e : Option Value} {frames : List Frame}
      {poll : SequencePoll} {window : List Value} {next : Sequence} {target : ThreadId}
      (hpending : (s.d.threads s.top).pendingAction = none)
      (hframes : (s.d.threads s.top).frames = Frame.sequence seq cs e :: frames)
      (hpoll : pollSequence seq e ((s.d.threads s.top).stack.drop cs.bottom) c.poll =
        PollOutcome.ok poll window next)
      (hresume : (∃ bottom, poll = SequencePoll.resume target bottom) ∨
        poll = SequencePoll.tailResume target)
      (htarget : (s.d.threads target).status ≠ ThreadStatus.suspended)

/-- `coroutine.resume` has returned `false` and the error: the frames of the failed coroutines are
left and what they captured is closed, the two values have been landed above the registers of the
caller, and no other thread has changed. -/
structure Returned (err : Value) (d' : Driver) : Prop where
  stack : d'.threadStack = s.resumer :: s.below
  unwound : ∀ t ∈ s.failed, (d'.threads t).frames = []
  closed : ∀ t ∈ s.failed, ∀ uv ∈ (s.d.threads t).openUpvalues, ∀ t' index lf,
    s.d.cells uv = UpvalueState.openAt t' index → Frame.lua lf ∈ (s.d.threads t).frames →
      lf.base ≤ index → ∃ v, d'.cells uv = UpvalueState.closed v
  returned : landCallResults ((s.d.threads s.resumer).polled s.cs s.rest err) s.cs =
    some (d'.threads s.resumer)
  landed : ∀ caller frames, s.rest = Frame.lua caller :: frames → s.cs.cont = none →
    s.cs.funcIdx ≤ s.cs.bottom →
      Landed s.rest ((s.d.threads s.resumer).stack.take s.cs.funcIdx) s.cs.returns
        [Value.boolean false, err] (d'.threads s.resumer)
  others : ∀ t, t ∉ s.failed → t ≠ s.resumer → d'.threads t = s.d.threads t

/-- The error was pushed as a frame. -/
def Pushed (err : Value) : Prop :=
  (s.d.threads s.top).pendingAction = none ∧
    ∃ frames, (s.d.threads s.top).frames = Frame.error err :: frames

/-- The frames of the failed coroutines can be left. -/
def Leavable : Prop := ∃ cells', Escapes s.d.threads s.failed s.d.cells cells'

/-- The two values can be landed. -/
def Lands (err : Value) : Prop :=
  s.cs.bottom ≤ (s.d.threads s.resumer).stack.length ∧
    ∃ ts, landCallResults ((s.d.threads s.resumer).polled s.cs s.rest err) s.cs = some ts

variable {s}

theorem Returned.length_frames {err : Value} {d' : Driver} (h : s.Returned err d') :
    (d'.threads s.resumer).frames.length = s.rest.length := by
  have hshape := (landCallResults_shape h.returned).frames
  rcases hshape with heq | ⟨lf, lf', frames, heq, heq'⟩
  · exact congrArg List.length heq
  · have hrest : s.rest = Frame.lua lf :: frames := heq
    rw [heq', hrest, List.length_cons, List.length_cons]

/-- An error that was not pushed as a frame goes to the host. -/
theorem Raises.not_comesTo {c : Choice} {err : Value} (h : s.Raises c err)
    (hpushed : ¬ s.Pushed err) (P : Driver → Prop) : ¬ (iterate s.d c).ComesTo P := by
  rw [iterate_normal s.stack s.running]
  cases h with
  | pushed hpending hframes hrethrows => exact absurd ⟨hpending, _, hframes⟩ hpushed
  | instruction hpending hframes hraise =>
      simp only [drive, hpending, pumpFrame, hframes, hraise, execInstr]
      exact not_comesTo_error
  | refused hpending haction htarget =>
      simp only [drive, hpending, applyPendingAction, haction]
      refine scheduleThreadResume_refused fun hne => ?_
      rw [Driver.setThread_of_ne _ hne, Driver.setThread_of_ne _ hne]
      exact htarget
  | @refusedPoll seq cs e frames poll window next target hpending hframes hpoll hresume htarget =>
      simp only [drive, hpending, pumpFrame, hframes, pumpSequence]
      split
      · rw [hpoll]
        rcases hresume with ⟨bottom, rfl⟩ | rfl
        · refine scheduleThreadResume_refused fun hne => ?_
          rw [Driver.setThread_of_ne _ hne]
          exact htarget
        · refine scheduleThreadResume_refused fun hne => ?_
          rw [Driver.setThread_of_ne _ hne]
          exact htarget
      · exact not_comesTo_panic

theorem resumer_notMem (s : CoroutineCall) : s.resumer ∉ s.failed := by
  have hnodup := s.nodup
  rw [← List.cons_append] at hnodup
  intro hmem
  exact (List.nodup_append.1 hnodup).2.2 _ hmem _ (List.mem_singleton.2 rfl) rfl

/-- The frame on top of a failed thread is not one of bytecode. -/
theorem lua_mem_tail {s : CoroutineCall} {err : Value} (hpushed : s.Pushed err) {t : ThreadId}
    (ht : t ∈ s.failed) {lf : LuaFrame} (hlf : Frame.lua lf ∈ (s.d.threads t).frames) :
    Frame.lua lf ∈ (s.d.threads t).frames.tail := by
  rcases List.mem_cons.1 ht with rfl | ht
  · obtain ⟨-, frames, hframes⟩ := hpushed
    rw [hframes] at hlf ⊢
    exact (List.mem_cons.1 hlf).resolve_left (by simp)
  · obtain ⟨-, wt, frames, hframes, -⟩ := s.forwards t ht
    rw [hframes] at hlf ⊢
    exact (List.mem_cons.1 hlf).resolve_left (by simp)

/-- Where the error has come to the resumer and the values have been landed, all that is asked for
holds. -/
theorem returned_store {s : CoroutineCall} {err : Value} {d' : Driver} {cells' : Cells}
    {ts : ThreadState} (hpushed : s.Pushed err)
    (hescapes : Escapes s.d.threads s.failed s.d.cells cells')
    (hescaped : Escaped s.d d' s.failed s.resumer s.below err) (hcells : d'.cells = cells')
    (hlen : s.cs.bottom ≤ (s.d.threads s.resumer).stack.length)
    (hland : landCallResults ((s.d.threads s.resumer).polled s.cs s.rest err) s.cs = some ts) :
    s.Returned err (d'.store s.resumer ts d'.cells) := by
  have hself := d'.store_self s.resumer ts d'.cells
  have hother : ∀ t, t ≠ s.resumer → (d'.store s.resumer ts d'.cells).threads t = d'.threads t :=
    fun t ht => d'.setThread_of_ne ht ts
  refine ⟨hescaped.stack, ?_, ?_, ?_, ?_, ?_⟩
  · intro t ht
    rw [hother t fun heq => s.resumer_notMem (heq ▸ ht)]
    exact hescaped.left t ht
  · intro t ht uv huv t' index lf hopen hlf hle
    show ∃ v, d'.cells uv = UpvalueState.closed v
    rw [hcells]
    exact escapes_closes hescapes ht huv hopen (lua_mem_tail hpushed ht hlf) hle
  · rw [hself]
    exact hland
  · intro caller frames hrest hcont hle
    have hbelow : ((s.d.threads s.resumer).stack.take s.cs.funcIdx).length = s.cs.funcIdx := by
      rw [List.length_take]
      omega
    have htake : ((s.d.threads s.resumer).stack.take s.cs.bottom).length = s.cs.bottom := by
      rw [List.length_take]
      omega
    have hland' : landCallResults ((s.d.threads s.resumer).polled s.cs s.rest err)
        { bottom := s.cs.bottom
          funcIdx := ((s.d.threads s.resumer).stack.take s.cs.funcIdx).length
          returns := s.cs.returns, cont := none } = some ts := by
      rw [hbelow, ← hcont]
      exact hland
    rw [hself, hrest]
    refine landed_of_landCallResults (by exact hrest) ?_ ?_ ?_ ?_ hland'
    · show (((s.d.threads s.resumer).stack.take s.cs.bottom ++ _).take _) = _
      rw [hbelow, List.take_append_of_le_length (by omega), List.take_take, Nat.min_eq_left hle]
    · rw [hbelow]
      exact hle
    · show s.cs.bottom ≤ ((s.d.threads s.resumer).stack.take s.cs.bottom ++ _).length
      rw [List.length_append, htake]
      omega
    · show ((s.d.threads s.resumer).stack.take s.cs.bottom ++ _).drop s.cs.bottom = _
      rw [List.drop_append_of_le_length (by omega), List.drop_of_length_le (by omega)]
      rfl
  · intro t ht hne
    rw [hother t hne]
    exact hescaped.others t ht hne

/-- **Errors inside a coroutine**: `coroutine.resume` returns `false` and the error exactly when it
was pushed as a frame, the frames of the failed coroutines can be left, and the two values can be
landed. -/
theorem coroutine_errors_return (s : CoroutineCall) {c : Choice} {err : Value}
    (h : s.Raises c err) :
    (iterate s.d c).ComesTo (s.Returned err) ↔ s.Pushed err ∧ s.Leavable ∧ s.Lands err := by
  by_cases hpushed : s.Pushed err
  · obtain ⟨hpending, frames, hframes⟩ := id hpushed
    have hrethrows : ∀ fr ∈ frames, fr.Rethrows := by
      cases h with
      | pushed _ hframes' hrethrows =>
          cases hframes.symm.trans hframes'
          exact hrethrows
      | instruction _ hframes' hraise => exact absurd (hframes.symm.trans hframes') (by simp)
      | refused hpending' _ _ => exact absurd (hpending.symm.trans hpending') (by simp)
      | refusedPoll _ hframes' _ _ _ => exact absurd (hframes.symm.trans hframes') (by simp)
    have hstack : ∀ d', s.Returned err d' → d'.threadStack = s.resumer :: s.below :=
      fun d' hd' => hd'.stack
    have hstart : (iterate s.d c).ComesTo (s.Returned err) ↔ ComesTo (s.Returned err) s.d := by
      rw [iterate_error s.stack s.running hpending hframes c]
      exact (failing_comesTo s.stack s.running hpending hframes hstack).symm
    obtain ⟨hyes, hno⟩ := escape_comesTo s.stack s.nodup s.running hpending hframes hrethrows
      s.forwards s.resumed
    rw [hstart]
    by_cases hleave : s.Leavable
    · obtain ⟨cells', hescapes⟩ := id hleave
      obtain ⟨d', hescaped, hcells, hiff⟩ := hyes cells' hescapes
      have hfails : d'.threads s.resumer = { s.d.threads s.resumer with
          frames := Frame.error err :: Frame.sequence Sequence.pcall s.cs none :: s.rest
          status := ThreadStatus.normal } := by
        rw [hescaped.fails, s.resumed, List.tail_cons]
      have hpcall := pcall_comesTo hescaped.stack (by rw [hfails])
        (by rw [hfails]; exact s.resumerPending) (by rw [hfails])
        fun d'' (hd'' : s.Returned err d'') => hd''.length_frames
      rw [hiff _ hstack, hpcall]
      have hpolled : (d'.threads s.resumer).polled s.cs s.rest err =
          (s.d.threads s.resumer).polled s.cs s.rest err := by
        rw [hfails]
        rfl
      have hsame : (d'.threads s.resumer).stack = (s.d.threads s.resumer).stack := by rw [hfails]
      rw [hpolled, hsame]
      constructor
      · rintro ⟨hlen, ts, hland, -⟩
        exact ⟨hpushed, hleave, hlen, ts, hland⟩
      · rintro ⟨-, -, hlen, ts, hland⟩
        exact ⟨hlen, ts, hland,
          ComesTo.here (returned_store hpushed hescapes hescaped hcells hlen hland)⟩
    · exact iff_of_false (hno hleave _ hstack) fun hand => hleave hand.2.1
  · exact iff_of_false (h.not_comesTo hpushed _) fun hand => hpushed hand.1

/-- `coroutine.resume` is called by the main function, and the coroutine has the frames `frames`. -/
def ofFrames (frames : List Frame) : CoroutineCall :=
  let cs := { bottom := 2, funcIdx := 1, returns := 3, cont := none }
  { d :=
      { threads := fun t =>
          if t = 0 then
            { ThreadState.new 0 with
              stack := [Value.function 0, Value.function 1]
              frames :=
                [Frame.waitThread cs, Frame.sequence Sequence.pcall cs none,
                  Frame.lua (mainFrame 3)]
              status := ThreadStatus.normal }
          else
            { ThreadState.new t with frames := frames, status := ThreadStatus.normal }
        cells := fun _ => UpvalueState.closed Value.nil, freshThread := 2, freshUpvalue := 0
        threadStack := [1, 0], mode := ExecutorMode.normal }
    top := 1, mids := [], resumer := 0, below := [], wt := cs, cs := cs
    rest := [Frame.lua (mainFrame 3)], stack := rfl, nodup := by decide, running := rfl
    forwards := fun _ h => absurd h List.not_mem_nil, resumerPending := rfl, resumed := rfl }

/-- The error has been raised by a function that a sequence has called. -/
def inSequence : CoroutineCall :=
  ofFrames [Frame.error Value.nil,
    Frame.sequence (Sequence.other 0)
      { bottom := 0, funcIdx := 0, returns := 0, cont := none } none]

theorem coroutine_errors_return_nil :
    (iterate inSequence.d (Choice.ofNative (NativeOutcome.ok CallbackAction.ret []))).ComesTo
      (inSequence.Returned Value.nil) :=
  (coroutine_errors_return inSequence
    (Raises.pushed rfl rfl fun fr h => by
      rw [List.mem_singleton.1 h]
      trivial)).2
    ⟨⟨rfl, _, rfl⟩, ⟨_, _, ⟨Nat.le_refl 0, rfl⟩, rfl⟩, by decide, _, rfl⟩

/-- The coroutine runs bytecode, whose instruction raises. -/
theorem not_coroutine_errors_return :
    ¬ ∀ (s : CoroutineCall) (c : Choice) (err : Value), s.Raises c err →
      (iterate s.d c).ComesTo (s.Returned err) := by
  intro h
  have hraises : (ofFrames [Frame.lua (mainFrame 3)]).Raises
      (Choice.ofNative (NativeOutcome.ok CallbackAction.ret [])) Value.nil :=
    Raises.instruction rfl rfl rfl
  exact not_comesTo_error (h _ _ _ hraises)

end CoroutineCall

end Tcvm
