/-
The context of the garbage collector.

`dmm/types.rs` lays out the boxes of an arena, and `dmm/context.rs` allocates them, shades them and
frees them.  The memory is a map from addresses to the boxes allocated there.  An operation that
touches a box that is not there, or that a debug assertion stops, is a fault, `none`; what is
proved about the collector is above all that no fault happens.

* `GcBoxInner`, `Context` — a box with its header, and the state of the collector;
* `Context.allocate`, `trace`, `traceWeak`, `upgrade`, `resurrect`, the four barriers;
* `Context.markOne`, `Context.sweepOne` — one unit of marking and one of sweeping;
* `Context.doCollection` — the loop that runs them, up to a stop or until the debt is paid;
* `Context.dropAll` — what is left is dropped and freed with the context.
-/

import Mathlib.Data.List.Basic

namespace Tcvm.Dmm

/-! ### Boxes -/

/-- The address of a box. -/
abbrev GcBox := ℕ

inductive GcColor
  | white
  | whiteWeak
  | gray
  | black
  deriving DecidableEq, Repr

/-- A pointer that a value holds: a `Gc`, or a `GcWeak`. -/
inductive Pointer
  | gc (p : GcBox)
  | weak (p : GcBox)
  deriving DecidableEq, Repr

/-- A box: the link and the flags of its header, and its value as the pointers that `trace` visits,
in their order. -/
structure GcBoxInner where
  next : Option GcBox
  color : GcColor
  needsTrace : Bool
  isLive : Bool
  value : List Pointer
  deriving DecidableEq, Repr

inductive Phase
  | mark
  | sweep
  | sleep
  | drop
  deriving DecidableEq, Repr

inductive RunUntil
  | payDebt
  | stop
  deriving DecidableEq, Repr

inductive Stop
  | fullyMarked
  | atSweep
  | finishCycle
  | full
  deriving DecidableEq, Repr

/-- The order in which `Stop` is declared. -/
def Stop.rank : Stop → ℕ
  | fullyMarked => 0
  | atSweep => 1
  | finishCycle => 2
  | full => 3

instance : LE Stop := ⟨fun a b => a.rank ≤ b.rank⟩

instance (a b : Stop) : Decidable (a ≤ b) := inferInstanceAs (Decidable (a.rank ≤ b.rank))

/-- What the metrics are told of a box, and of a cycle. -/
inductive Event
  | allocated (p : GcBox)
  | dropped (p : GcBox)
  | freed (p : GcBox)
  | finished
  deriving DecidableEq, Repr

/-- The state of the collector, with the memory it works on.  The two queues have their last
element in front, and so has the record of the metrics. -/
structure Context where
  heap : GcBox → Option GcBoxInner
  metrics : List Event
  phase : Phase
  all : Option GcBox
  sweep : Option GcBox
  sweepPrev : Option GcBox
  rootNeedsTrace : Bool
  gray : List GcBox
  grayAgain : List GcBox

/-- How a unit of work ends: `ControlFlow::Continue`, `ControlFlow::Break`, or a panic of the
`trace` that it calls. -/
inductive Flow
  | goOn
  | done
  | panicked
  deriving DecidableEq, Repr

/-- How a run of a loop ends; `timeout` says that the rounds were not enough. -/
inductive Outcome (α : Type)
  | done (a : α)
  | panicked (a : α)
  | fault
  | timeout

/-- One turn of the loop of `Context::do_collection`. -/
inductive Turn
  | goOn (hasSlept : Bool) (cx : Context)
  | stop (cx : Context)
  | panicked (cx : Context)

/-- What the collector finds outside itself at a turn of its loop: whether there is debt, and
whether the `trace` that it calls panics. -/
structure Tick where
  debt : Bool
  panics : Option ℕ

namespace Context

/-- `Context::new`. -/
def new : Context where
  heap := fun _ => none
  metrics := []
  phase := .sleep
  all := none
  sweep := none
  sweepPrev := none
  rootNeedsTrace := true
  gray := []
  grayAgain := []

/-- A box is written. -/
def setBox (cx : Context) (p : GcBox) (b : GcBoxInner) : Context :=
  { cx with heap := Function.update cx.heap p (some b) }

/-- `GcBoxHeader::set_color`, for the box `b` at `p`. -/
def setColor (cx : Context) (p : GcBox) (b : GcBoxInner) (color : GcColor) : Context :=
  cx.setBox p { b with color := color }

/-- `GcBox::drop_in_place`: the value at `p` is dropped. -/
def dropInPlace (cx : Context) (p : GcBox) : Context :=
  { cx with metrics := .dropped p :: cx.metrics }

/-- `GcBox::dealloc`: the memory at `p` is given back. -/
def dealloc (cx : Context) (p : GcBox) : Context :=
  { cx with heap := Function.update cx.heap p none, metrics := .freed p :: cx.metrics }

def rootBarrier (cx : Context) : Context :=
  if cx.phase = .mark then { cx with rootNeedsTrace := true } else cx

def grayRemaining (cx : Context) : Bool :=
  !cx.gray.isEmpty || !cx.grayAgain.isEmpty || cx.rootNeedsTrace

/-! ### Allocation -/

/-- `Context::allocate`, at the address `p` that the allocator finds. -/
def allocate (cx : Context) (p : GcBox) (needsTrace : Bool) (value : List Pointer) : Context :=
  let header : GcBoxInner :=
    { next := cx.all, color := .white, needsTrace := needsTrace, isLive := true, value := value }
  { cx.setBox p header with
    all := some p
    sweepPrev := if cx.phase = .sweep ∧ cx.sweepPrev = none then some p else cx.sweepPrev
    metrics := .allocated p :: cx.metrics }

/-! ### Shading -/

/-- `Context::make_gray_again`. -/
def makeGrayAgain (cx : Context) (p : GcBox) : Option Context := do
  let b ← cx.heap p
  if b.color = .black then
    some { cx.setColor p b .gray with grayAgain := p :: cx.grayAgain }
  else none

/-- `Context::trace`. -/
def trace (cx : Context) (p : GcBox) : Option Context := do
  let b ← cx.heap p
  match b.color with
  | .black | .gray => some cx
  | .white | .whiteWeak =>
      if b.needsTrace then
        if b.isLive then some { cx.setColor p b .gray with gray := p :: cx.gray } else none
      else some (cx.setColor p b .black)

/-- `Context::trace_weak`. -/
def traceWeak (cx : Context) (p : GcBox) : Option Context := do
  let b ← cx.heap p
  if b.color = .white then some (cx.setColor p b .whiteWeak) else some cx

/-- What `trace` does with one pointer of a value. -/
def tracePointer (cx : Context) : Pointer → Option Context
  | .gc p => cx.trace p
  | .weak p => cx.traceWeak p

/-- `Collect::trace` of a value that holds these pointers. -/
def traceValue (cx : Context) : List Pointer → Option Context
  | [] => some cx
  | q :: rest => (cx.tracePointer q).bind fun cx => cx.traceValue rest

/-- `Context::upgrade`. -/
def upgrade (cx : Context) (p : GcBox) : Option Bool := do
  let b ← cx.heap p
  if b.isLive = false then some false
  else if cx.phase = .sweep ∧ b.color = .whiteWeak then some false
  else some true

/-- `Context::resurrect`. -/
def resurrect (cx : Context) (p : GcBox) : Option Context := do
  let b ← cx.heap p
  if cx.phase = .mark ∧ b.isLive then
    match b.color with
    | .white | .whiteWeak => some { cx.setColor p b .gray with gray := p :: cx.gray }
    | .gray | .black => some cx
  else none

/-! ### Barriers -/

/-- `Context::backward_barrier`. -/
def backwardBarrier (cx : Context) (parent : GcBox) (child : Option GcBox) : Option Context := do
  let b ← cx.heap parent
  if cx.phase = .mark ∧ b.color = .black then
    match child with
    | none => cx.makeGrayAgain parent
    | some c =>
        let child ← cx.heap c
        if child.color = .white ∨ child.color = .whiteWeak then cx.makeGrayAgain parent
        else some cx
  else some cx

/-- `Context::backward_barrier_weak`. -/
def backwardBarrierWeak (cx : Context) (parent child : GcBox) : Option Context := do
  let b ← cx.heap parent
  if cx.phase = .mark ∧ b.color = .black then
    let child ← cx.heap child
    if child.color = .white then cx.makeGrayAgain parent else some cx
  else some cx

/-- The test that both forward barriers make of their parent. -/
def parentIsBlack (cx : Context) : Option GcBox → Option Bool
  | none => some true
  | some p => (cx.heap p).map fun b => decide (b.color = .black)

/-- `Context::forward_barrier`. -/
def forwardBarrier (cx : Context) (parent : Option GcBox) (child : GcBox) : Option Context :=
  if cx.phase = .mark then do
    if ← cx.parentIsBlack parent then cx.trace child else some cx
  else some cx

/-- `Context::forward_barrier_weak`. -/
def forwardBarrierWeak (cx : Context) (parent : Option GcBox) (child : GcBox) : Option Context :=
  if cx.phase = .mark then do
    if ← cx.parentIsBlack parent then cx.traceWeak child else some cx
  else some cx

/-! ### One unit of work -/

/-- The next gray box: the normal queue comes first. -/
def popGray (cx : Context) : Option (GcBox × Context) :=
  match cx.gray, cx.grayAgain with
  | p :: rest, _ => some (p, { cx with gray := rest })
  | [], p :: rest => some (p, { cx with grayAgain := rest })
  | [], [] => none

/-- `Context::mark_one`.  Where `panics` is a number, the `trace` that is called panics behind that
many pointers: the guard puts the box back. -/
def markOne (cx : Context) (root : List Pointer) (panics : Option ℕ) : Option (Flow × Context) :=
  match cx.popGray with
  | some (p, cx) => do
      let b ← cx.heap p
      let cx := cx.setColor p b .black
      if b.isLive then
        match panics with
        | none => do
            let cx ← cx.traceValue b.value
            some (.goOn, cx)
        | some k => do
            let cx ← cx.traceValue (b.value.take k)
            let cx ← cx.makeGrayAgain p
            some (.panicked, cx)
      else none
  | none =>
      if cx.rootNeedsTrace then
        match panics with
        | none => do
            let cx ← cx.traceValue root
            some (.goOn, { cx with rootNeedsTrace := false })
        | some k => do
            let cx ← cx.traceValue (root.take k)
            some (.panicked, cx)
      else some (.done, cx)

/-- A white box leaves the list: the box in front of it, or the head of the list, is pointed to the
box behind. -/
def unlink (cx : Context) (p : GcBox) (next : Option GcBox) : Option Context :=
  match cx.sweepPrev with
  | some prev => do
      let b ← cx.heap prev
      some (cx.setBox prev { b with next := next })
  | none => if cx.all = some p then some { cx with all := next } else none

/-- `Context::sweep_one`. -/
def sweepOne (cx : Context) : Option (Flow × Context) :=
  match cx.sweep with
  | none => some (.done, { cx with sweepPrev := none })
  | some p => do
      let b ← cx.heap p
      let cx := { cx with sweep := b.next }
      match b.color with
      | .white => do
          let cx ← cx.unlink p b.next
          let cx := if b.isLive then cx.dropInPlace p else cx
          some (.goOn, cx.dealloc p)
      | .whiteWeak =>
          let cx := { cx with sweepPrev := some p }
          let cx := cx.setBox p { b with color := .white, isLive := false }
          some (.goOn, if b.isLive then cx.dropInPlace p else cx)
      | .black => some (.goOn, { cx.setColor p b .white with sweepPrev := some p })
      | .gray => none

/-! ### The loop -/

/-- The body of the loop of `Context::do_collection`, up to the test of the debt. -/
def turn (cx : Context) (root : List Pointer) (stop : Stop) (panics : Option ℕ)
    (hasSlept : Bool) : Option Turn :=
  match cx.phase with
  | .sleep => some (.goOn true { cx with phase := .mark })
  | .mark => do
      let (flow, cx) ← cx.markOne root panics
      match flow with
      | .goOn => some (.goOn hasSlept cx)
      | .panicked => some (.panicked cx)
      | .done =>
          if stop ≤ .fullyMarked then some (.stop cx)
          else some (.goOn hasSlept { cx with phase := .sweep, sweep := cx.all })
  | .sweep =>
      if stop ≤ .atSweep then some (.stop cx)
      else do
        let (flow, cx) ← cx.sweepOne
        match flow with
        | .goOn => some (.goOn hasSlept cx)
        | .panicked => some (.panicked cx)
        | .done =>
            let cx := { cx with
              metrics := .finished :: cx.metrics, rootNeedsTrace := true, phase := .sleep }
            if stop = .finishCycle then some (.stop cx)
            else if hasSlept then if stop = .full then some (.stop cx) else none
            else some (.goOn hasSlept cx)
  | .drop => none

/-- The loop of `Context::do_collection`, for `rounds` turns at most. -/
def collectLoop (root : List Pointer) (runUntil : RunUntil) (stop : Stop) :
    ℕ → (ℕ → Tick) → Bool → Context → Outcome Context
  | 0, _, _, _ => .timeout
  | rounds + 1, ticks, hasSlept, cx =>
      match cx.turn root stop (ticks 0).panics hasSlept with
      | none => .fault
      | some (.stop cx) => .done cx
      | some (.panicked cx) => .panicked cx
      | some (.goOn hasSlept cx) =>
          if runUntil = .payDebt ∧ (ticks 0).debt = false then .done cx
          else collectLoop root runUntil stop rounds (fun n => ticks (n + 1)) hasSlept cx

/-- `Context::do_collection`. -/
def doCollection (cx : Context) (root : List Pointer) (runUntil : RunUntil) (stop : Stop)
    (rounds : ℕ) (ticks : ℕ → Tick) : Outcome Context :=
  if runUntil = .payDebt ∧ (ticks 0).debt = false then .done cx
  else collectLoop root runUntil stop rounds (fun n => ticks (n + 1)) false cx

/-! ### The end of the context -/

/-- The walk of `DropAll` along the list of all boxes, for `rounds` boxes at most. -/
def dropAll : ℕ → Option GcBox → Context → Outcome Context
  | _, none, cx => .done cx
  | 0, some _, _ => .timeout
  | rounds + 1, some p, cx =>
      match cx.heap p with
      | none => .fault
      | some b =>
          let cx := if b.isLive then cx.dropInPlace p else cx
          dropAll rounds b.next (cx.dealloc p)

/-- `Context::drop`. -/
def drop (cx : Context) (rounds : ℕ) : Outcome Context :=
  dropAll rounds cx.all { cx with phase := .drop }

end Context

end Tcvm.Dmm
