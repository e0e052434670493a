/-
The arena: callbacks and collections.

`dmm/arena.rs` lets a program at the boxes in callbacks only.  The lifetime `'gc` keeps what a
callback sees inside it: the pointers that it holds come from the root, from values that it reads,
from what it allocates and from weak pointers that it upgrades, and none of them outlives it.
Between two callbacks the collector runs.  What the types and the documented contract of `Collect`
allow is `Arena.Permits`; what happens is `Arena.perform`.

* `Permit` — the adoptions that a write barrier allows until the callback ends;
* `Session`, `Arena` — a callback that is running, and an arena;
* `Action`, `Arena.Permits`, `Arena.perform` — everything that happens to an arena;
* `Arena.Steps`, `Arena.Reachable` — the runs, in any order of steps.
-/

import Mathlib.Logic.Relation
import Tcvm.GcContext

namespace Tcvm.Dmm

/-! ### Callbacks -/

/-- What a write barrier has been called for: a parent may adopt anything, a parent may adopt this
child, or anything may adopt this child; the last two also for weak children. -/
inductive Permit
  | parent (p : GcBox)
  | pair (p child : GcBox)
  | child (child : GcBox)
  | pairWeak (p child : GcBox)
  | childWeak (child : GcBox)
  deriving DecidableEq, Repr

/-- The parent may adopt the pointer. -/
def Permit.covers (p : GcBox) (q : Pointer) : Permit → Prop
  | .parent p' => p' = p
  | .pair p' c => p' = p ∧ q = .gc c
  | .child c => q = .gc c
  | .pairWeak p' c => p' = p ∧ q = .weak c
  | .childWeak c => q = .weak c

instance (p : GcBox) (q : Pointer) : (permit : Permit) → Decidable (permit.covers p q)
  | .parent p' => inferInstanceAs (Decidable (p' = p))
  | .pair p' c => inferInstanceAs (Decidable (p' = p ∧ q = .gc c))
  | .child c => inferInstanceAs (Decidable (q = .gc c))
  | .pairWeak p' c => inferInstanceAs (Decidable (p' = p ∧ q = .weak c))
  | .childWeak c => inferInstanceAs (Decidable (q = .weak c))

/-- The callbacks: `mutate`; `new`, `mutate_root` and `map_root`, which write the root; and
`finalize`. -/
inductive SessionKind
  | mutate
  | mutateRoot
  | finalize
  deriving DecidableEq, Repr

/-- A callback that is running, with the pointers that it holds and the barriers it has called. -/
structure Session where
  kind : SessionKind
  held : List Pointer
  permits : List Permit

/-- An arena: its context, the pointers of its root, and the callback that is running. -/
structure Arena where
  context : Context
  root : List Pointer
  session : Option Session

/-- What happens to an arena.  A callback allocates, reads a value or the root, makes weak pointers
and upgrades them, calls barriers, and writes values; the arena lets callbacks in, and collects;
and a `DynamicRoot` that is dropped takes its pointer out of the value of its set. -/
inductive Action
  | allocate (p : GcBox) (needsTrace : Bool) (value : List Pointer)
  | read (p : GcBox) (i : ℕ)
  | readRoot (q : Pointer)
  | downgrade (p : GcBox)
  | upgrade (p : GcBox)
  | resurrect (p : GcBox)
  | resurrectWeak (p : GcBox)
  | backwardBarrier (parent : GcBox) (child : Option GcBox)
  | backwardBarrierWeak (parent child : GcBox)
  | forwardBarrier (parent : Option GcBox) (child : GcBox)
  | forwardBarrierWeak (parent : Option GcBox) (child : GcBox)
  | store (p : GcBox) (value : List Pointer)
  | storeRoot (root : List Pointer)
  | enter (kind : SessionKind)
  | leave
  | release (p : GcBox) (value : List Pointer)
  | collect (runUntil : RunUntil) (stop : Stop) (ticks : ℕ → Tick)
  | startSweeping (ticks : ℕ → Tick)

namespace Arena

/-- `Arena::new`, when its callback begins: the root is what the callback makes it. -/
def new : Arena where
  context := .new
  root := []
  session := some { kind := .mutateRoot, held := [], permits := [] }

def held (a : Arena) : List Pointer := (a.session.map Session.held).getD []

def permits (a : Arena) : List Permit := (a.session.map Session.permits).getD []

/-- A callback of this kind is running. -/
def Runs (a : Arena) (kind : SessionKind) : Prop := a.session.map Session.kind = some kind

instance (a : Arena) (kind : SessionKind) : Decidable (a.Runs kind) :=
  inferInstanceAs (Decidable (_ = _))

/-- `Arena::mark_debt` and `Arena::finish_marking` give a `MarkedArena` then. -/
def FullyMarked (a : Arena) : Prop :=
  a.context.phase = .mark ∧ a.context.grayRemaining = false

instance (a : Arena) : Decidable a.FullyMarked := inferInstanceAs (Decidable (_ ∧ _))

/-- The value that a box holds. -/
def valueOf (a : Arena) (p : GcBox) : List Pointer :=
  ((a.context.heap p).map GcBoxInner.value).getD []

/-- The `NEEDS_TRACE` of the type of a value: where it is not set there are no pointers to adopt. -/
def NeedsTrace (a : Arena) (p : GcBox) : Prop := ∀ b ∈ a.context.heap p, b.needsTrace = true

instance (a : Arena) (p : GcBox) : Decidable (a.NeedsTrace p) :=
  match h : a.context.heap p with
  | none => isTrue fun b hb => by simp [h] at hb
  | some b => decidable_of_iff (b.needsTrace = true)
      ⟨fun hb b' hb' => by
        obtain rfl : b = b' := by simpa [h] using hb'
        exact hb, fun hall => hall b (by simp [h])⟩

/-- What the types, and the contract of `Collect`, let happen. -/
def Permits (a : Arena) : Action → Prop
  | .allocate p needsTrace value =>
      a.session.isSome ∧ a.context.heap p = none ∧ (∀ q ∈ value, q ∈ a.held) ∧
        (needsTrace = false → value = [])
  | .read p _ => .gc p ∈ a.held
  | .readRoot q => a.session.isSome ∧ q ∈ a.root
  | .downgrade p => .gc p ∈ a.held
  | .upgrade p => .weak p ∈ a.held
  | .resurrect p => a.Runs .finalize ∧ .gc p ∈ a.held
  | .resurrectWeak p => a.Runs .finalize ∧ .weak p ∈ a.held
  | .backwardBarrier parent child =>
      .gc parent ∈ a.held ∧ ∀ c ∈ child, Pointer.gc c ∈ a.held
  | .backwardBarrierWeak parent child => .gc parent ∈ a.held ∧ .weak child ∈ a.held
  | .forwardBarrier parent child =>
      (∀ p ∈ parent, Pointer.gc p ∈ a.held) ∧ .gc child ∈ a.held
  | .forwardBarrierWeak parent child =>
      (∀ p ∈ parent, Pointer.gc p ∈ a.held) ∧ .weak child ∈ a.held
  | .store p value =>
      .gc p ∈ a.held ∧ (value ≠ [] → a.NeedsTrace p) ∧
        ∀ q ∈ value, q ∈ a.valueOf p ∨ (q ∈ a.held ∧ ∃ permit ∈ a.permits, permit.covers p q)
  | .storeRoot root => a.Runs .mutateRoot ∧ ∀ q ∈ root, q ∈ a.held ∨ q ∈ a.root
  | .enter kind => a.session = none ∧ (kind = .finalize → a.FullyMarked)
  | .leave => a.session.isSome
  | .release p value =>
      (a.context.heap p).any GcBoxInner.isLive ∧ ∀ q ∈ value, q ∈ a.valueOf p
  | .collect _ _ _ => a.session = none
  | .startSweeping _ => a.session = none ∧ a.FullyMarked

/-! ### What happens -/

/-- The callback holds another pointer. -/
def hold (a : Arena) (q : Pointer) : Arena :=
  { a with session := a.session.map fun s => { s with held := q :: s.held } }

/-- A barrier has been called. -/
def permit (a : Arena) (permit : Permit) : Arena :=
  { a with session := a.session.map fun s => { s with permits := permit :: s.permits } }

/-- The dereference of a `Gc`: its box has to be there, and its value must not be dropped. -/
def deref (a : Arena) (p : GcBox) : Option GcBoxInner :=
  (a.context.heap p).filter GcBoxInner.isLive

/-- A value is written. -/
def write (a : Arena) (p : GcBox) (value : List Pointer) : Option Arena :=
  (a.deref p).map fun b => { a with context := a.context.setBox p { b with value := value } }

/-- The callback goes on behind an operation of the context. -/
def within (a : Arena) (cx : Option Context) : Option Arena :=
  cx.map fun cx => { a with context := cx }

/-- What a callback does, and what is done at its ends. -/
def act (a : Arena) : Action → Option Arena
  | .allocate p needsTrace value =>
      some ({ a with context := a.context.allocate p needsTrace value }.hold (.gc p))
  | .read p i => (a.deref p).map fun b => b.value[i]?.elim a a.hold
  | .readRoot q => some (a.hold q)
  | .downgrade p => some (a.hold (.weak p))
  | .upgrade p => (a.context.upgrade p).map fun ok => if ok then a.hold (.gc p) else a
  | .resurrect p => a.within (a.context.resurrect p)
  | .resurrectWeak p => do
      let b ← a.context.heap p
      if b.isLive then
        let a ← a.within (a.context.resurrect p)
        some (a.hold (.gc p))
      else some a
  | .backwardBarrier parent child =>
      (a.within (a.context.backwardBarrier parent child)).map fun a =>
        a.permit (child.elim (.parent parent) (.pair parent))
  | .backwardBarrierWeak parent child =>
      (a.within (a.context.backwardBarrierWeak parent child)).map fun a =>
        a.permit (.pairWeak parent child)
  | .forwardBarrier parent child =>
      (a.within (a.context.forwardBarrier parent child)).map fun a =>
        a.permit (parent.elim (.child child) fun p => .pair p child)
  | .forwardBarrierWeak parent child =>
      (a.within (a.context.forwardBarrierWeak parent child)).map fun a =>
        a.permit (parent.elim (.childWeak child) fun p => .pairWeak p child)
  | .store p value => a.write p value
  | .storeRoot root => some { a with root := root }
  | .enter kind => some { a with
      context := if kind = .mutateRoot then a.context.rootBarrier else a.context
      session := some { kind := kind, held := [], permits := [] } }
  | .leave => some { a with session := none }
  | .release p value => a.write p value
  | .collect _ _ _ => some a
  | .startSweeping _ => some a

/-- The arena behind a collection. -/
def afterCollection (a : Arena) : Outcome Context → Outcome Arena
  | .done cx => .done { a with context := cx }
  | .panicked cx => .panicked { a with context := cx }
  | .fault => .fault
  | .timeout => .timeout

/-- What happens; a collection makes `rounds` turns at most.  `MarkedArena::start_sweeping` asserts
that it has reached the sweep. -/
def perform (a : Arena) (rounds : ℕ) : Action → Outcome Arena
  | .collect runUntil stop ticks =>
      a.afterCollection (a.context.doCollection a.root runUntil stop rounds ticks)
  | .startSweeping ticks =>
      match a.context.doCollection a.root .stop .atSweep rounds ticks with
      | .done cx =>
          if cx.phase = .sweep then .done { a with context := cx } else .fault
      | outcome => a.afterCollection outcome
  | action =>
      match a.act action with
      | some a => .done a
      | none => .fault

/-! ### Runs -/

/-- One step: something that is permitted happens, and ends, or ends in a panic. -/
def Steps (a a' : Arena) : Prop :=
  ∃ action rounds, a.Permits action ∧
    (a.perform rounds action = .done a' ∨ a.perform rounds action = .panicked a')

/-- The arenas that a program can make, in any number of steps in any order. -/
def Reachable (a : Arena) : Prop := Relation.ReflTransGen Steps new a

end Arena

end Tcvm.Dmm
