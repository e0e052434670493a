/-
Calls of values that are not functions.

A callee that is a table is replaced by its `__call` metamethod, and becomes the first argument.
The count of the arguments is a byte, whose zero stands for all values up to the top of the stack;
with it, nothing but a function is called.

* `resolveCallChain` — the loop over the hops;
* `opCallChain` — `CALL`, with it;
* `Heap.CallsThrough` — a chain of callees that ends at a function;
* `resolveLoop_spec`, `resolveLoop_long` — a chain is followed, if it is short enough;
* `call_chain` — **the last function of a chain is called with the callees in front**.
-/

import Tcvm.CallOps
import Tcvm.Numeric
import Mathlib.Data.List.Induction

namespace Tcvm

open StackWindow

/-! ### The loop -/

/-- Why a chain is not followed to a function: the instruction raises, over the stack it has made,
or the host panics. -/
inductive ChainFault
  | refused (stack : List Value)
  | panic
  deriving DecidableEq

/-- `nargs += 1` on a byte, which panics in a build that checks for overflow. -/
def addArgument (checked : Bool) (nargs : ℕ) : Except ChainFault ℕ :=
  if nargs < 255 then Except.ok (nargs + 1)
  else if checked then Except.error ChainFault.panic else Except.ok 0

/-- The arguments at `start` move up by one, the last one first. -/
def shiftArgs? (s : List Value) (start : ℕ) : ℕ → Option (List Value)
  | 0 => some s
  | n + 1 => do
      let v ← s[start + n]?
      let s ← set? s (start + 1 + n) v
      shiftArgs? s start n

/-- One hop: `mm` becomes the callee, and `funcVal` its first argument. -/
def hop? (s : List Value) (funcIdx args : ℕ) (funcVal mm : Value) : Option (List Value) := do
  let s ← shiftArgs? (grow s (funcIdx + 2 + args) Value.nil) (funcIdx + 1) args
  let s ← set? s (funcIdx + 1) funcVal
  set? s funcIdx mm

variable (checked : Bool) (h : Heap)

/-- The loop of `resolve_call_chain`: the target, the count of its arguments and the stack. -/
def resolveLoop (funcIdx : ℕ) :
    ℕ → List Value → ℕ → Except ChainFault (FunctionId × ℕ × List Value)
  | 0, s, _ => Except.error (ChainFault.refused s)
  | n + 1, s, nargs =>
      match s[funcIdx]? with
      | none => Except.error ChainFault.panic
      | some (Value.function f) => Except.ok (f, nargs, s)
      | some funcVal =>
          match funcVal.getTable with
          | none => Except.error (ChainFault.refused s)
          | some t =>
              let mm := h.getMetamethod t Metamethod.call.name
              if mm.isNil then Except.error (ChainFault.refused s)
              -- a call with a variable number of arguments is not supported
              else if nargs = 0 then Except.error (ChainFault.refused s)
              else
                match hop? s funcIdx (nargs - 1) funcVal mm with
                | none => Except.error ChainFault.panic
                | some s => do
                    let nargs ← addArgument checked nargs
                    resolveLoop funcIdx n s nargs

/-- `resolve_call_chain`. -/
def resolveCallChain (s : List Value) (funcIdx nargs : ℕ) :
    Except ChainFault (FunctionId × ℕ × List Value) :=
  resolveLoop checked h funcIdx maxTagLoop s nargs

/-- `op_call`. -/
def opCallChain (kind : FunctionId → CallTarget) (ts : ThreadState) (cells : Cells)
    (ip func nargs returns : ℕ) : VmResult :=
  let funcIdx := (ts.topLua.map LuaFrame.base).getD 0 + func
  match resolveCallChain checked h ts.stack funcIdx nargs with
  | Except.error ChainFault.panic => none
  | Except.error (ChainFault.refused s) => some (Flow.raise, ts.setStack s, cells)
  | Except.ok (f, nargs, s) => opCall (ts.setStack s) cells ip func nargs returns (kind f)

/-! ### Chains -/

/-- Behind the callees, each the `__call` metamethod of the one before it, there is a function. -/
inductive Heap.CallsThrough (h : Heap) : Value → List Value → FunctionId → Prop
  | function (f : FunctionId) : h.CallsThrough (Value.function f) [] f
  | hop {t : TableId} {callees : List Value} {f : FunctionId}
      (hmm : (h.getMetamethod t Metamethod.call.name).isNil = false)
      (hrest : h.CallsThrough (h.getMetamethod t Metamethod.call.name) callees f) :
      h.CallsThrough (Value.table t) (Value.table t :: callees) f

/-- A value with at least this many hops. -/
inductive Heap.HopsFrom (h : Heap) : Value → ℕ → Prop
  | zero (v : Value) : h.HopsFrom v 0
  | succ {t : TableId} {k : ℕ}
      (hrest : h.HopsFrom (h.getMetamethod t Metamethod.call.name) k) :
      h.HopsFrom (Value.table t) (k + 1)

/-! ### One hop -/

variable {checked : Bool} {h : Heap}

theorem set?_append (pre rest : List Value) (w v : Value) :
    set? (pre ++ w :: rest) pre.length v = some (pre ++ v :: rest) := by
  rw [set?, if_pos (by simp), List.set_append_right _ _ (Nat.le_refl _), Nat.sub_self,
    List.set_cons_zero]

/-- The arguments stand one higher, over what was behind them. -/
theorem shiftArgs?_eq (pre args : List Value) :
    ∀ (w : Value) (rest : List Value), ∃ w',
      shiftArgs? (pre ++ (args ++ w :: rest)) pre.length args.length =
        some (pre ++ w' :: (args ++ rest)) := by
  induction args using List.reverseRecOn with
  | nil =>
      intro w rest
      exact ⟨w, rfl⟩
  | append_singleton args a ih =>
      intro w rest
      obtain ⟨w', hw⟩ := ih a (a :: rest)
      refine ⟨w', ?_⟩
      have hread : (pre ++ (args ++ [a] ++ w :: rest))[pre.length + args.length]? = some a := by
        rw [List.getElem?_append_right (by omega), Nat.add_sub_cancel_left, List.append_assoc,
          List.getElem?_append_right (Nat.le_refl _), Nat.sub_self]
        rfl
      have hwrite : set? (pre ++ (args ++ [a] ++ w :: rest)) (pre.length + 1 + args.length) a =
          some (pre ++ (args ++ a :: a :: rest)) := by
        have := set?_append (pre ++ (args ++ [a])) rest w a
        simp only [List.append_assoc, List.length_append, List.length_singleton,
          List.singleton_append] at this ⊢
        rw [← this]
        congr 1
        omega
      rw [List.length_append, List.length_singleton, shiftArgs?, hread]
      change (set? _ _ a).bind _ = _
      rw [hwrite]
      change shiftArgs? _ _ _ = _
      rw [hw]
      simp

/-- One hop puts the callee in front of the arguments. -/
theorem hop?_eq (pre args rest : List Value) (v mm : Value) :
    hop? (pre ++ v :: (args ++ rest)) pre.length args.length v mm =
      some (pre ++ mm :: (v :: args ++ rest.drop 1)) := by
  obtain ⟨w, hgrow⟩ : ∃ w, grow (pre ++ v :: (args ++ rest)) (pre.length + 2 + args.length)
      Value.nil = pre ++ [v] ++ (args ++ w :: rest.drop 1) := by
    cases rest with
    | nil =>
        refine ⟨Value.nil, ?_⟩
        have hone : pre.length + 2 + args.length - (pre ++ v :: (args ++ [])).length = 1 := by
          simp only [List.length_append, List.length_cons, List.length_nil]
          omega
        rw [grow, hone]
        simp
    | cons w rest =>
        refine ⟨w, ?_⟩
        rw [grow_of_le]
        · simp
        · simp only [List.length_append, List.length_cons]
          omega
  obtain ⟨w', hshift⟩ := shiftArgs?_eq (pre ++ [v]) args w (rest.drop 1)
  have hlen : (pre ++ [v]).length = pre.length + 1 := by simp
  rw [hlen] at hshift
  have hfirst := set?_append (pre ++ [v]) (args ++ rest.drop 1) w' v
  rw [hlen] at hfirst
  have hcallee := set?_append pre (v :: args ++ rest.drop 1) v mm
  rw [hop?, hgrow, hshift]
  change (set? _ _ v).bind _ = _
  rw [hfirst, List.append_assoc]
  exact hcallee

/-! ### The hops in a row -/

theorem getElem?_callee (pre rest : List Value) (v : Value) :
    (pre ++ v :: rest)[pre.length]? = some v := by
  rw [List.getElem?_append_right (Nat.le_refl _), Nat.sub_self]
  rfl

/-- A function is the target. -/
theorem resolveLoop_function (pre rest : List Value) (f n nargs : ℕ) :
    resolveLoop checked h pre.length (n + 1) (pre ++ Value.function f :: rest) nargs =
      Except.ok (f, nargs, pre ++ Value.function f :: rest) := by
  rw [resolveLoop, getElem?_callee]

/-- A table with a metamethod is a hop, as long as the count of the arguments fits. -/
theorem resolveLoop_hop {t : TableId} (pre args rest : List Value) (n : ℕ)
    (hmm : (h.getMetamethod t Metamethod.call.name).isNil = false)
    (hcount : args.length + 1 < 255) :
    resolveLoop checked h pre.length (n + 1) (pre ++ Value.table t :: (args ++ rest))
        (args.length + 1) =
      resolveLoop checked h pre.length n
        (pre ++ h.getMetamethod t Metamethod.call.name ::
          (Value.table t :: args ++ rest.drop 1)) (args.length + 2) := by
  rw [resolveLoop, getElem?_callee]
  simp only [Value.getTable, hmm, Bool.false_eq_true, if_false, Nat.add_one_ne_zero,
    Nat.add_sub_cancel, hop?_eq, addArgument, if_pos hcount]
  rfl

/-- A chain is followed, as long as the count of the arguments fits. -/
theorem resolveLoop_spec {v : Value} {callees : List Value} {f : FunctionId}
    (hchain : h.CallsThrough v callees f) :
    ∀ (n : ℕ) (pre args rest : List Value), callees.length < n →
      args.length + 1 + callees.length ≤ 255 →
        resolveLoop checked h pre.length n (pre ++ v :: (args ++ rest)) (args.length + 1) =
          Except.ok (f, args.length + 1 + callees.length,
            pre ++ Value.function f ::
              (callees.reverse ++ args ++ rest.drop callees.length)) := by
  induction hchain with
  | function f =>
      intro n pre args rest hn _
      obtain ⟨n, rfl⟩ := Nat.exists_eq_succ_of_ne_zero (Nat.ne_of_gt hn)
      exact resolveLoop_function pre (args ++ rest) f n (args.length + 1)
  | @hop t callees f hmm _ ih =>
      intro n pre args rest hn hcount
      obtain ⟨n, rfl⟩ := Nat.exists_eq_succ_of_ne_zero (Nat.ne_of_gt (Nat.zero_lt_of_lt hn))
      rw [List.length_cons] at hn hcount
      rw [resolveLoop_hop pre args rest n hmm (by omega)]
      -- the callee has become the first argument
      have hrest := ih n pre (Value.table t :: args) (rest.drop 1) (by omega)
        (by rw [List.length_cons]; omega)
      have hgiven : callees.reverse ++ Value.table t :: args =
          (Value.table t :: callees).reverse ++ args := by
        rw [List.reverse_cons, List.append_assoc, List.singleton_append]
      have hlen : args.length + 1 + 1 + callees.length =
        args.length + 1 + (callees.length + 1) := by
        omega
      rw [List.length_cons] at hrest
      rw [hrest, List.drop_drop, hgiven, List.length_cons, hlen, Nat.add_comm 1 callees.length]

/-- With a variable number of arguments nothing but a function is called. -/
theorem resolveLoop_variadic {funcIdx : ℕ} {s : List Value} {t : TableId}
    (hcallee : s[funcIdx]? = some (Value.table t)) (n : ℕ) :
    resolveLoop checked h funcIdx n s 0 = Except.error (ChainFault.refused s) := by
  cases n with
  | zero => rfl
  | succ n =>
      rw [resolveLoop, hcallee]
      simp only [Value.getTable, if_true, ite_self]

/-- A chain that is too long is refused, unless the check for overflow ends it. -/
theorem resolveLoop_long {v : Value} {n : ℕ} (hhops : h.HopsFrom v n) :
    ∀ (pre args rest : List Value), args.length < 255 →
      (∃ s, resolveLoop checked h pre.length n (pre ++ v :: (args ++ rest)) (args.length + 1) =
          Except.error (ChainFault.refused s)) ∨
        (checked = true ∧
          resolveLoop checked h pre.length n (pre ++ v :: (args ++ rest)) (args.length + 1) =
            Except.error ChainFault.panic) := by
  induction hhops with
  | zero v =>
      intro pre args rest _
      exact Or.inl ⟨_, rfl⟩
  | @succ t n hrest ih =>
      intro pre args rest hlt
      cases hmm : (h.getMetamethod t Metamethod.call.name).isNil with
      | true =>
          refine Or.inl ⟨pre ++ Value.table t :: (args ++ rest), ?_⟩
          rw [resolveLoop, getElem?_callee]
          simp only [Value.getTable, hmm, if_true]
      | false =>
          by_cases hcount : args.length + 1 < 255
          · rw [resolveLoop_hop pre args rest n hmm hcount]
            exact ih pre (Value.table t :: args) (rest.drop 1) (by rw [List.length_cons]; omega)
          · -- the count overflows: a panic, or a call with a variable number of arguments
            rw [resolveLoop, getElem?_callee]
            simp only [Value.getTable, hmm, Bool.false_eq_true, if_false, Nat.add_one_ne_zero,
              Nat.add_sub_cancel, hop?_eq, addArgument, if_neg hcount]
            cases checked with
            | true => exact Or.inr ⟨rfl, rfl⟩
            | false =>
                left
                generalize h.getMetamethod t Metamethod.call.name = mm at hrest ⊢
                cases hrest with
                | zero => exact ⟨_, rfl⟩
                | succ => exact ⟨_, resolveLoop_variadic (getElem?_callee _ _ _) _⟩

/-! ### The call -/

/-- What `CALL` does with a function and these arguments.  A callback is run on them and nothing
else, a Lua function gets a frame whose first registers they are, with nil for the parameters that
get none. -/
def CallTarget.CalledWith (target : CallTarget) (args : List Value) (pre : List Value)
    (callee : Value) (ts : ThreadState) (cells : Cells) (ip returns : ℕ) (r : VmResult) : Prop :=
  match target with
  | CallTarget.lua closure =>
      closure.proto.numParams ≤ closure.proto.maxStackSize → ∃ ts' tail,
        r = some (Flow.dispatch 0, ts', cells) ∧
          ts'.frames = Frame.lua
            { closure := closure, base := pre.length + 1, pc := 0, numResults := returns
              numExtras := extraArgs closure args.length, continuation := none } ::
            (ts.savePc ip).frames ∧
          ts'.stack = pre ++ callee ::
            (args ++ List.replicate (closure.proto.numParams - args.length) Value.nil ++ tail)
  | CallTarget.native f =>
      let left := ts.setStack (pre ++ callee :: (f args).window)
      match f args with
      | NativeOutcome.error err _ =>
          r = some (Flow.exit, (left.savePc ip).push (Frame.error err), cells)
      | NativeOutcome.ok CallbackAction.ret _ =>
          r = (opCallReturn left pre.length returns).map fun ts' => (Flow.dispatch ip, ts', cells)
      | NativeOutcome.ok action _ =>
          r = some (Flow.exit,
            { left.savePc ip with
              pendingAction := some
                { action := action
                  callSite :=
                    { bottom := pre.length + 1, funcIdx := pre.length, returns := returns
                      cont := none } } },
            cells)

theorem savePc_stack (ts : ThreadState) (pc : ℕ) : (ts.savePc pc).stack = ts.stack := by
  unfold ThreadState.savePc
  split <;> rfl

/-- The window of a callback is its arguments. -/
theorem invokeNative_given {ts : ThreadState} {pre args rest : List Value} {callee : Value}
    (hstack : ts.stack = pre ++ callee :: (args ++ rest)) (f : NativeFn) :
    invokeNative ts (pre.length + 1) args.length f =
      (ts.setStack (pre ++ callee :: (f args).window), f args) := by
  have hlen : (pre ++ callee :: args).length = pre.length + 1 + args.length := by
    rw [List.length_append, List.length_cons]
    omega
  have hcut : resize ts.stack (pre.length + 1 + args.length) Value.nil = pre ++ callee :: args := by
    have hsplit : pre ++ callee :: (args ++ rest) = pre ++ callee :: args ++ rest := by simp
    rw [hstack, hsplit, resize_of_le (by rw [List.length_append, hlen]; omega), ← hlen,
      List.take_left]
  have hargs : (pre ++ callee :: args).drop (pre.length + 1) = args := by
    rw [List.drop_append, List.drop_eq_nil_of_le (by omega), Nat.add_sub_cancel_left]
    rfl
  have hbelow : (pre ++ callee :: args).take (pre.length + 1) = pre ++ [callee] := by
    rw [List.take_append, List.take_of_length_le (by omega), Nat.add_sub_cancel_left]
    rfl
  rw [invokeNative, hcut, hargs, hbelow, List.append_assoc]
  rfl

/-- A function is called with its arguments. -/
theorem opCall_calledWith {ts : ThreadState} {pre args rest : List Value} {callee : Value}
    {func : ℕ} (hfunc : (ts.topLua.map LuaFrame.base).getD 0 + func = pre.length)
    (hstack : ts.stack = pre ++ callee :: (args ++ rest)) (target : CallTarget) (cells : Cells)
    (ip returns : ℕ) :
    target.CalledWith args pre callee ts cells ip returns
      (opCall ts cells ip func (args.length + 1) returns target) := by
  have hargc : argCount ts (pre.length + 1) (args.length + 1) = args.length := by
    rw [argCount, if_neg (Nat.succ_ne_zero _), Nat.add_sub_cancel]
  cases target with
  | native f =>
      simp only [opCall, hfunc, hargc, invokeNative_given hstack, CallTarget.CalledWith]
      cases f args with
      | error err w => rfl
      | ok action w => cases action <;> rfl
  | lua closure =>
      intro hparams
      obtain ⟨behind, hgrow⟩ : ∃ behind,
          grow ts.stack (pre.length + 1 + closure.proto.maxStackSize) Value.nil =
            pre ++ callee :: args ++ behind := by
        refine ⟨rest ++ List.replicate
          (pre.length + 1 + closure.proto.maxStackSize - ts.stack.length) Value.nil, ?_⟩
        rw [grow, hstack]
        simp
      have hlen : (pre ++ callee :: args).length = pre.length + 1 + args.length := by
        rw [List.length_append, List.length_cons]
        omega
      have hroom : pre.length + 1 + args.length +
          (closure.proto.numParams - args.length) ≤ (pre ++ callee :: args ++ behind).length := by
        have hlong := length_grow ts.stack (pre.length + 1 + closure.proto.maxStackSize) Value.nil
        rw [hgrow, List.length_append, hlen] at hlong
        rw [List.length_append, hlen]
        omega
      obtain ⟨tail, hpad⟩ : ∃ tail, fill? Value.nil (pre ++ callee :: args ++ behind)
          (pre.length + 1 + args.length) (closure.proto.numParams - args.length) =
            some (pre ++ callee :: (args ++
              List.replicate (closure.proto.numParams - args.length) Value.nil ++ tail)) := by
        rw [fill?_eq Value.nil hroom, overwrite, ← hlen, List.take_left]
        simp only [List.append_assoc, List.cons_append]
        exact ⟨_, rfl⟩
      refine ⟨((ts.savePc ip).setStack (pre ++ callee :: (args ++
        List.replicate (closure.proto.numParams - args.length) Value.nil ++ tail))).push _, tail,
        ?_, rfl, rfl⟩
      simp only [opCall, hfunc, hargc, pushCall, savePc_stack, hgrow, padParams, hpad]
      rfl

/-- What was on the stack does not matter. -/
theorem CallTarget.CalledWith.of_setStack {target : CallTarget} {args pre s : List Value}
    {callee : Value} {ts : ThreadState} {cells : Cells} {ip returns : ℕ} {r : VmResult}
    (hcalled : target.CalledWith args pre callee (ts.setStack s) cells ip returns r) :
    target.CalledWith args pre callee ts cells ip returns r := by
  cases target with
  | native f => exact hcalled
  | lua closure =>
      intro hparams
      obtain ⟨ts', tail, hr, hframes, hstack⟩ := hcalled hparams
      refine ⟨ts', tail, hr, ?_, hstack⟩
      rw [hframes]
      unfold ThreadState.savePc
      rw [ThreadState.topLua_setStack]
      cases ts.topLua <;> rfl

/-- **The function at the end of a chain is called with the callees in front of the arguments, the
original callee last among them**, if the count of all of them is a byte.  A chain of `MAX_TAG_LOOP`
hops or more raises, and so does a call of a table with a variable number of arguments. -/
theorem call_chain (checked : Bool) {h : Heap} (kind : FunctionId → CallTarget) {ts : ThreadState}
    {pre args rest : List Value} {callee : Value} {func : ℕ}
    (hfunc : (ts.topLua.map LuaFrame.base).getD 0 + func = pre.length)
    (hstack : ts.stack = pre ++ callee :: (args ++ rest)) (cells : Cells) (ip returns : ℕ) :
    (∀ callees f, h.CallsThrough callee callees f → args.length + 1 + callees.length ≤ 255 →
      (kind f).CalledWith (callees.reverse ++ args) pre (Value.function f) ts cells ip returns
        (opCallChain checked h kind ts cells ip func (args.length + 1) returns)) ∧
    (h.HopsFrom callee maxTagLoop → args.length < 255 →
      (∃ ts', opCallChain checked h kind ts cells ip func (args.length + 1) returns =
          some (Flow.raise, ts', cells)) ∨
        checked = true ∧
          opCallChain checked h kind ts cells ip func (args.length + 1) returns = none) ∧
    ∀ t, callee = Value.table t →
      opCallChain checked h kind ts cells ip func 0 returns = some (Flow.raise, ts, cells) := by
  refine ⟨fun callees f hchain hcount => ?_, fun hhops hlt => ?_, ?_⟩
  · have hloop := @resolveLoop_spec checked h _ _ _ hchain maxTagLoop pre args rest
      (by rw [maxTagLoop]; omega) hcount
    have hnargs : args.length + 1 + callees.length = (callees.reverse ++ args).length + 1 := by
      rw [List.length_append, List.length_reverse]
      omega
    simp only [opCallChain, hfunc, hstack, resolveCallChain, hloop, hnargs]
    have hdirect := @opCall_calledWith (ts.setStack (pre ++ Value.function f ::
      (callees.reverse ++ args ++ rest.drop callees.length))) pre (callees.reverse ++ args) _
      (Value.function f) func hfunc rfl (kind f) cells ip returns
    exact hdirect.of_setStack
  · rcases @resolveLoop_long checked h _ _ hhops pre args rest hlt with
      ⟨s, hs⟩ | ⟨hcheck, hs⟩
    · refine Or.inl ⟨ts.setStack s, ?_⟩
      simp only [opCallChain, hfunc, hstack, resolveCallChain, hs]
    · refine Or.inr ⟨hcheck, ?_⟩
      simp only [opCallChain, hfunc, hstack, resolveCallChain, hs]
  · rintro t rfl
    have hs := @resolveLoop_variadic checked h _ _ _
      (getElem?_callee pre (args ++ rest) (Value.table t)) maxTagLoop
    simp only [opCallChain, hfunc, hstack, resolveCallChain, hs]
    rw [← hstack]
    rfl

/-- The table 0 is called through the function 7, the table 2 through the table 0, and the table 4
through itself. -/
def callHeap : Heap :=
  let call := Value.string Metamethod.call.name
  let stored := (Heap.boot.rawSet 1 call (Value.function 7)).bind fun h =>
    (h.rawSet 3 call (Value.table 0)).bind fun h => h.rawSet 5 call (Value.table 4)
  (((stored.getD Heap.boot).setMetatable 0 (some 1)).setMetatable 2 (some 3)).setMetatable 4
    (some 5)

theorem callHeap_chain :
    callHeap.CallsThrough (Value.table 2) [Value.table 2, Value.table 0] 7 :=
  Heap.CallsThrough.hop rfl (Heap.CallsThrough.hop rfl (Heap.CallsThrough.function 7))

theorem callHeap_loop (n : ℕ) : callHeap.HopsFrom (Value.table 4) n := by
  induction n with
  | zero => exact Heap.HopsFrom.zero _
  | succ n ih => exact Heap.HopsFrom.succ ih

/-- A thread with these values, outside of any frame. -/
def callThread (stack : List Value) : ThreadState :=
  { ThreadState.new 0 with stack := stack, top := stack.length }

/-- A callback that returns its arguments. -/
def returnArgs (_ : FunctionId) : CallTarget :=
  CallTarget.native fun args => NativeOutcome.ok CallbackAction.ret args

/-- No captured variables. -/
def noCells : Cells := fun _ => UpvalueState.closed Value.nil

/-- Two hops, and a table that is called through itself. -/
theorem call_chain_two :
    (returnArgs 7).CalledWith [Value.table 0, Value.table 2, Value.integer 5] []
        (Value.function 7) (callThread [Value.table 2, Value.integer 5]) noCells 0 0
        (opCallChain true callHeap returnArgs (callThread [Value.table 2, Value.integer 5])
          noCells 0 0 2 0) ∧
      ∃ ts', opCallChain false callHeap returnArgs (callThread [Value.table 4]) noCells 0 0 1 0 =
        some (Flow.raise, ts', noCells) := by
  refine ⟨?_, ?_⟩
  · have hcalls := @call_chain true callHeap returnArgs
      (callThread [Value.table 2, Value.integer 5]) [] [Value.integer 5] []
        (Value.table 2) 0 rfl rfl
      noCells 0 0
    exact hcalls.1 _ _ callHeap_chain (by decide)
  · have hcalls := @call_chain false callHeap returnArgs (callThread [Value.table 4]) [] [] []
      (Value.table 4) 0 rfl rfl noCells 0 0
    rcases hcalls.2.1 (callHeap_loop _) (by decide) with hraise | ⟨hchecked, -⟩
    · exact hraise
    · exact nomatch hchecked

/-- A table is not called with the values of a last call, although its chain ends at a function. -/
theorem variadic_call_refused :
    callHeap.CallsThrough (Value.table 2) [Value.table 2, Value.table 0] 7 ∧
      ¬ (returnArgs 7).CalledWith [Value.table 0, Value.table 2, Value.integer 5] []
        (Value.function 7) (callThread [Value.table 2, Value.integer 5]) noCells 0 0
        (opCallChain true callHeap returnArgs (callThread [Value.table 2, Value.integer 5])
          noCells 0 0 0 0) := by
  refine ⟨callHeap_chain, fun hcalled => ?_⟩
  have hraise : opCallChain true callHeap returnArgs
      (callThread [Value.table 2, Value.integer 5]) noCells 0 0 0 0 =
        some (Flow.raise, callThread [Value.table 2, Value.integer 5], noCells) := rfl
  rw [hraise] at hcalled
  exact nomatch hcalled

end Tcvm
