/-
Assignments to variables that may not be assigned.

A name resolves to its nearest binding, in the function itself or in one around it.  What the
compiler knows of a binding of another function is an upvalue, unless the binding has a compile-time
value, and an upvalue says nothing about the declaration.  So an assignment is decided by three
things: how many functions lie between the declaration and the use, the attribute of the
declaration, and whether the value is known.  Compared with what the manual says of the
declarations, this refuses too little for `close` variables and for captured constants without a
known value, and too much for the variables behind the first one of a generic `for`.

* `nearestIn` — the nearest binding, with the number of functions in between;
* `Capturable` — what the functions have captured has no known value;
* `LocalAttr.refuses`, `bindingRules` — assignments decided by the declarations;
* `follows_bindingRules` — the compiler decides them so, on every program;
* `frameScoping`, `binds_of_alike` — a declaration binds its names by their attributes;
* `const_enforcement_iff` — **when an assignment is refused exactly as the declarations say**.
-/

import Tcvm.ManualScoping

namespace Tcvm

open CompileM StateExcept Discipline

/-! ### The nearest binding -/

/-- The nearest binding of a name in a chain of functions, and how many functions lie between it
and the first one of the chain. -/
def nearestIn : List Enclosing → Name → Option (ℕ × VariableData)
  | [], _ => none
  | f :: fs, name =>
      match resolveLocalIn f.scope name with
      | some data => some (0, data)
      | none => (nearestIn fs name).map fun b => (b.1 + 1, b.2)

/-- The compiler inlines a binding of this kind in the functions inside. -/
def VarKind.isKnown : VarKind → Bool
  | VarKind.const (some _) => true
  | _ => false

/-- What the functions of a chain have captured are variables whose value is not known. -/
def Capturable : List Enclosing → Prop
  | [] => True
  | f :: fs =>
      (∀ u ∈ f.upvalues, ∀ b, nearestIn fs u.1 = some b →
        b.2.kind ≠ VarKind.global ∧ b.2.kind.isKnown = false) ∧ Capturable fs

section

variable {f : Enclosing} {fs fs' : List Enclosing} {name : Name}

theorem nearestIn_cons_of_some {data : VariableData} (h : resolveLocalIn f.scope name = some data) :
    nearestIn (f :: fs) name = some (0, data) := by
  rw [nearestIn, h]

theorem nearestIn_cons_of_none (h : resolveLocalIn f.scope name = none) :
    nearestIn (f :: fs) name = (nearestIn fs name).map fun b => (b.1 + 1, b.2) := by
  rw [nearestIn, h]

/-- Only the scopes of the functions matter. -/
theorem nearestIn_congr (h : fs.map Enclosing.scope = fs'.map Enclosing.scope) (name : Name) :
    nearestIn fs name = nearestIn fs' name := by
  induction fs generalizing fs' with
  | nil =>
      rw [List.map_nil] at h
      rw [List.map_eq_nil_iff.1 h.symm]
  | cons f fs ih =>
      cases fs' with
      | nil => exact absurd h (by simp)
      | cons f' fs' =>
          obtain ⟨hf, hfs⟩ := List.cons.inj h
          rw [nearestIn, nearestIn, hf, ih hfs]

theorem kindIn_eq_nearestIn (fs : List Enclosing) (name : Name) :
    kindIn fs name = (nearestIn fs name).map fun b => b.2.kind := by
  induction fs with
  | nil => rfl
  | cons f fs ih =>
      cases hlocal : resolveLocalIn f.scope name with
      | some data => rw [kindIn_cons_of_some hlocal, nearestIn_cons_of_some hlocal]; rfl
      | none =>
          rw [kindIn_cons_of_none hlocal, nearestIn_cons_of_none hlocal, ih, Option.map_map]
          rfl

theorem Capturable.congr_head {f' : Enclosing} (hu : f'.upvalues = f.upvalues)
    (h : Capturable (f :: fs)) : Capturable (f' :: fs) := by
  obtain ⟨hf, hfs⟩ := h
  rw [← hu] at hf
  exact ⟨hf, hfs⟩

/-! ### Resolving for a nested function -/

/-- A captured name is a variable whose value is not known, by induction on the functions. -/
theorem resolveForChild_upvalue (name : Name) (fs : List Enclosing) (hc : Capturable fs) :
    (∀ desc b, (resolveForChild name fs).1 = some (ChildResolution.upvalue desc) →
        nearestIn fs name = some b → b.2.kind ≠ VarKind.global ∧ b.2.kind.isKnown = false) ∧
      Capturable (resolveForChild name fs).2 := by
  induction fs with
  | nil => exact ⟨fun desc b h => absurd h (by simp [resolveForChild]), trivial⟩
  | cons f fs ih =>
      unfold resolveForChild
      cases hlocal : resolveLocalIn f.scope name with
      | some data =>
          obtain ⟨reg, kind⟩ := data
          have hnear : ∀ b, nearestIn (f :: fs) name = some b →
              b = (0, ({ register := reg, kind := kind } : VariableData)) := by
            intro b hb
            rw [nearestIn_cons_of_some hlocal] at hb
            exact (Option.some.inj hb).symm
          have hcap : ∀ (desc : UpValueDescriptor) (b : ℕ × VariableData),
              some (ChildResolution.upvalue (UpValueDescriptor.parentLocal reg)) =
                some (ChildResolution.upvalue desc) →
              kind ≠ VarKind.global → kind.isKnown = false →
              nearestIn (f :: fs) name = some b →
                b.2.kind ≠ VarKind.global ∧ b.2.kind.isKnown = false := by
            intro desc b _ hg hk hb
            rw [hnear b hb]
            exact ⟨hg, hk⟩
          cases kind with
          | global => exact ⟨fun desc b h => absurd h (by simp), hc⟩
          | const v =>
              cases v with
              | some v => exact ⟨fun desc b h => absurd h (by simp), hc⟩
              | none => exact ⟨fun desc b h hb => hcap desc b h (by simp) rfl hb, hc⟩
          | varargParam =>
              exact ⟨fun desc b h hb => hcap desc b h (by simp) rfl hb,
                Capturable.congr_head rfl hc⟩
          | reg => exact ⟨fun desc b h hb => hcap desc b h (by simp) rfl hb, hc⟩
          | toClose => exact ⟨fun desc b h hb => hcap desc b h (by simp) rfl hb, hc⟩
      | none =>
          obtain ⟨hups, hrest⟩ := hc
          have hnear : ∀ b, nearestIn (f :: fs) name = some b →
              ∃ b', nearestIn fs name = some b' ∧ b'.2 = b.2 := by
            intro b hb
            rw [nearestIn_cons_of_none hlocal] at hb
            obtain ⟨b', hb', rfl⟩ := Option.map_eq_some_iff.1 hb
            exact ⟨b', hb', rfl⟩
          dsimp only
          cases hup : upvalueIndex f.upvalues name with
          | some i =>
              obtain ⟨u, hu, rfl⟩ := exists_of_upvalueIndex hup
              refine ⟨fun desc b _ hb => ?_, hups, hrest⟩
              obtain ⟨b', hb', heq⟩ := hnear b hb
              rw [← heq]
              exact hups u hu b' hb'
          | none =>
              dsimp only
              obtain ⟨ih₁, ih₂⟩ := ih hrest
              have hscopes := (captures_resolveForChild name fs).scopes
              generalize resolveForChild name fs = r at ih₁ ih₂ hscopes ⊢
              obtain ⟨r, fs'⟩ := r
              have hcapturable : ∀ upvalues : List (Name × UpValueDescriptor),
                  (∀ u ∈ upvalues, ∀ b, nearestIn fs u.1 = some b →
                    b.2.kind ≠ VarKind.global ∧ b.2.kind.isKnown = false) →
                  Capturable ({ f with upvalues := upvalues } :: fs') := by
                refine fun upvalues hu => ⟨fun u hm b hb => hu u hm b ?_, ih₂⟩
                rw [← hb]
                exact nearestIn_congr hscopes u.1
              rcases r with _ | v | desc
              · exact ⟨fun desc b h => absurd h (by simp), hcapturable _ hups⟩
              · exact ⟨fun desc b h => absurd h (by simp), hcapturable _ hups⟩
              · have hnew : ∀ b, nearestIn fs name = some b →
                    b.2.kind ≠ VarKind.global ∧ b.2.kind.isKnown = false :=
                  fun b hb => ih₁ desc b rfl hb
                refine ⟨fun desc' b _ hb => ?_, hcapturable _ fun u hu => ?_⟩
                · obtain ⟨b', hb', heq⟩ := hnear b hb
                  rw [← heq]
                  exact hnew b' hb'
                · rcases List.mem_append.1 hu with hu | hu
                  · exact hups u hu
                  · obtain rfl := List.mem_singleton.1 hu
                    exact hnew

/-- What a function resolves in the functions around it follows the nearest binding. -/
theorem resolveOrCapture_nearest {c c' : Ctx} {r : Option ResolvedName} {b : ℕ × VariableData}
    (hcaptured : Captured c.names.functions) (hcapturable : Capturable c.names.functions)
    (hb : nearestIn c.capture name = some b) (h : resolveOrCapture name c = Except.ok (r, c')) :
    (b.2.kind = VarKind.global ∧ r = none ∧ c' = c) ∨
      (∃ v, b.2.kind = VarKind.const (some v) ∧ r = some (ResolvedName.const v)) ∨
        (b.2.kind ≠ VarKind.global ∧ b.2.kind.isKnown = false ∧
          ∃ idx, r = some (ResolvedName.upvalue idx)) := by
  have hkind : kindIn c.capture name = some b.2.kind := by rw [kindIn_eq_nearestIn, hb]; rfl
  obtain ⟨hbound, hfree, -⟩ := resolveOrCapture_spec hcaptured h
  rcases resolveOrCapture_eq_ok h with
    ⟨i, hup, rfl, -⟩ | ⟨-, ⟨-, rfl, -⟩ | ⟨v, hv, rfl, -⟩ | ⟨desc, hdesc, rfl, -⟩⟩
  · obtain ⟨u, hu, rfl⟩ := exists_of_upvalueIndex hup
    obtain ⟨hg, hk⟩ := hcapturable.1 u hu b hb
    exact Or.inr (Or.inr ⟨hg, hk, i, rfl⟩)
  · by_cases hg : b.2.kind = VarKind.global
    · refine Or.inl ⟨hg, hfree fun hb' => ?_⟩
      rw [hg] at hkind
      exact not_bound_of_global hkind hb'
    · exact absurd rfl (hbound (Or.inl ⟨_, hkind, hg⟩))
  · have hconst := resolveForChild_const _ hv
    exact Or.inr (Or.inl ⟨v, Option.some.inj (hkind.symm.trans hconst), rfl⟩)
  · obtain ⟨hg, hk⟩ := (resolveForChild_upvalue name _ hcapturable.2).1 desc b hdesc hb
    exact Or.inr (Or.inr ⟨hg, hk, _, rfl⟩)

/-- Capturing a name keeps the captures. -/
theorem Capturable.resolve {c c' : Ctx} {r : Option ResolvedName}
    (hc : Capturable c.names.functions) (h : resolveOrCapture name c = Except.ok (r, c')) :
    Capturable c'.names.functions := by
  obtain ⟨hups, hrest⟩ := hc
  have hups : ∀ u ∈ c.upvalues, ∀ b, nearestIn c.capture u.1 = some b →
      b.2.kind ≠ VarKind.global ∧ b.2.kind.isKnown = false := hups
  have hmore : Capturable (resolveForChild name c.capture).2 :=
    (resolveForChild_upvalue name c.capture hrest).2
  have hscopes := (captures_resolveForChild name c.capture).scopes
  have hnear : ∀ n, nearestIn (resolveForChild name c.capture).2 n = nearestIn c.capture n :=
    fun n => (nearestIn_congr hscopes n).symm
  rcases resolveOrCapture_eq_ok h with
    ⟨i, -, -, rfl⟩ | ⟨-, ⟨-, -, rfl⟩ | ⟨v, -, -, rfl⟩ | ⟨desc, hdesc, -, rfl⟩⟩
  · exact ⟨hups, hrest⟩
  · exact ⟨fun u hu b hb => hups u hu b (by rw [← hnear]; exact hb), hmore⟩
  · exact ⟨fun u hu b hb => hups u hu b (by rw [← hnear]; exact hb), hmore⟩
  · refine ⟨fun u hu b hb => ?_, hmore⟩
    have hb : nearestIn c.capture u.1 = some b := by rw [← hnear]; exact hb
    rcases List.mem_append.1 hu with hu | hu
    · exact hups u hu b hb
    · obtain rfl := List.mem_singleton.1 hu
      exact (resolveForChild_upvalue _ c.capture hrest).1 desc b hdesc hb

end

/-! ### Assignments by the declarations -/

/-- Does the compiler refuse an assignment from a function that `depth` functions lie outside of? -/
def refusesAssign (depth : ℕ) (kind : VarKind) : Bool :=
  if depth = 0 then kind.isConst else kind.isKnown

/-- What this makes of the attributes of the declarations. -/
def LocalAttr.refuses (depth : ℕ) (known : Bool) : LocalAttr → Bool
  | plain => false
  | const => decide (depth = 0) || known
  | close => false
  | control => decide (depth = 0)
  | loopVar => decide (depth = 0)

theorem LocalAttr.Binds.refuses_eq {attr : LocalAttr} {kind : VarKind} (h : attr.Binds kind)
    (depth : ℕ) : attr.refuses depth kind.isKnown = refusesAssign depth kind := by
  cases attr with
  | plain => rcases h with rfl | rfl <;>
      simp [refuses, refusesAssign, VarKind.isConst, VarKind.isKnown]
  | const =>
      obtain ⟨v, rfl⟩ := h
      by_cases hdepth : depth = 0 <;> simp [refuses, refusesAssign, VarKind.isConst, hdepth]
  | close =>
      obtain rfl : kind = VarKind.toClose := h
      simp [refuses, refusesAssign, VarKind.isConst, VarKind.isKnown]
  | control =>
      obtain rfl : kind = VarKind.const none := h
      by_cases hdepth : depth = 0 <;>
        simp [refuses, refusesAssign, VarKind.isConst, VarKind.isKnown, hdepth]
  | loopVar =>
      obtain rfl : kind = VarKind.const none := h
      by_cases hdepth : depth = 0 <;>
        simp [refuses, refusesAssign, VarKind.isConst, VarKind.isKnown, hdepth]

/-- The target of an assignment to a name, decided by the attribute of its declaration. -/
def bindingLvalue (ds : Declarations) (name : Name) : CompileM Lvalue := do
  let c ← get
  match ds.nearest name, nearestIn c.names.functions name with
  | some (Referent.variable attr), some (depth, data) =>
      if attr.refuses depth data.kind.isKnown then ice "assignment to const variable"
      else if depth = 0 then return Lvalue.local data.register
      else
        match ← resolveOrCapture name with
        | some (ResolvedName.upvalue idx) => return Lvalue.upvalue idx
        | _ => throw Fault.panic
  | _, _ => identLvalue name

/-- The uses of names as the compiler has them, but for the assignments. -/
def bindingRules : NameRules where
  read _ := compileExprIdent
  write := bindingLvalue
  varargBase _ := resolveVarargBase

section

variable {ds : Declarations} {n : NameState} {c : Ctx} {name : Name}

/-- What is declared as a variable is bound, with a kind for its attribute. -/
theorem Accounts.binding (h : Accounts ds n) {attr : LocalAttr}
    (hn : ds.nearest name = some (Referent.variable attr)) :
    (∃ depth data, nearestIn n.functions name = some (depth, data) ∧ attr.Binds data.kind) ∨
      (nearestIn n.functions name = none ∧ name = envName ∧ attr = LocalAttr.plain) := by
  have hrefers := h.refers name
  rw [hn] at hrefers
  rcases hrefers with ⟨kind, hk, hattr⟩ | ⟨hk, henv⟩
  · rw [kindIn_eq_nearestIn] at hk
    obtain ⟨⟨depth, data⟩, hnear, rfl⟩ := Option.map_eq_some_iff.1 hk
    exact Or.inl ⟨depth, data, hnear, hattr⟩
  · rw [kindIn_eq_nearestIn, Option.map_eq_none_iff] at hk
    exact Or.inr ⟨hk, henv⟩

/-- What is bound as a variable is declared as one. -/
theorem Accounts.declared (h : Accounts ds n) {depth : ℕ} {data : VariableData}
    (hnear : nearestIn n.functions name = some (depth, data))
    (hglobal : data.kind ≠ VarKind.global) :
    ∃ attr, ds.nearest name = some (Referent.variable attr) ∧ attr.Binds data.kind := by
  have hkind : kindIn n.functions name = some data.kind := by rw [kindIn_eq_nearestIn, hnear]; rfl
  have hrefers := h.refers name
  rcases hn : ds.nearest name with _ | attr | kind
  · rw [hn] at hrefers
    exact absurd (hkind.symm.trans hrefers.1) (by simp)
  · rcases h.binding hn with ⟨depth', data', hnear', hattr⟩ | ⟨hnone, -⟩
    · obtain ⟨rfl, rfl⟩ := Prod.mk.inj (Option.some.inj (hnear.symm.trans hnear'))
      exact ⟨attr, rfl, hattr⟩
    · exact absurd (hnear.symm.trans hnone) (by simp)
  · rw [hn] at hrefers
    exact absurd (Option.some.inj (hkind.symm.trans hrefers.1)) hglobal

theorem identLvalue_binding (haccounts : Accounts ds c.names)
    (hcapturable : Capturable c.names.functions) :
    identLvalue name c = bindingLvalue ds name c := by
  have hget : (get : CompileM Ctx) c = Except.ok (c, c) := rfl
  unfold bindingLvalue
  rw [bind_of_eq hget]
  rcases hn : ds.nearest name with _ | attr | kind
  · rfl
  · rcases haccounts.binding hn with ⟨depth, data, hnear, hattr⟩ | ⟨hnone, -⟩
    · rw [hnear]
      dsimp only
      rw [hattr.refuses_eq]
      unfold identLvalue
      rw [bind_of_eq (resolveLocal_apply name c)]
      cases hlocal : resolveLocalIn c.scope name with
      | some d =>
          have hown : nearestIn c.names.functions name = some (0, d) :=
            nearestIn_cons_of_some hlocal
          obtain ⟨rfl, rfl⟩ := Prod.mk.inj (Option.some.inj (hnear.symm.trans hown))
          obtain ⟨reg, kind⟩ := data
          cases kind with
          | const v => cases v <;> rfl
          | global => exact absurd rfl hattr.ne_global
          | _ => rfl
      | none =>
          have houter : nearestIn c.names.functions name =
              (nearestIn c.capture name).map fun b => (b.1 + 1, b.2) :=
            nearestIn_cons_of_none hlocal
          obtain ⟨⟨depth, data⟩, hb, heq⟩ := Option.map_eq_some_iff.1 (houter.symm.trans hnear)
          obtain ⟨rfl, rfl⟩ := Prod.mk.inj heq
          obtain ⟨r, c', hr⟩ := exists_resolveOrCapture name c
          show (resolveOrCapture name >>= _) c = _
          rw [bind_of_eq hr]
          rcases resolveOrCapture_nearest haccounts.captured hcapturable hb hr with
            ⟨hk, -, -⟩ | ⟨v, hk, rfl⟩ | ⟨-, hk, idx, rfl⟩
          · exact absurd hk hattr.ne_global
          · rw [refusesAssign, if_neg (Nat.succ_ne_zero _), hk]
            rfl
          · rw [refusesAssign, if_neg (Nat.succ_ne_zero _), hk, if_neg Bool.false_ne_true,
              if_neg (Nat.succ_ne_zero _), bind_of_eq hr]
    · rw [hnone]
  · rfl

end

/-- **The invariant**: the compiler's account agrees with the declarations in force, and what has
been captured has no known value. -/
def bindingScoping : Scoping where
  Holds ds n := Accounts ds n ∧ Capturable n.functions
  nonempty h := h.1.scope
  resolve h hr := ⟨manualScoping.resolve h.1 hr, h.2.resolve hr⟩
  enter h := ⟨manualScoping.enter h.1, Capturable.congr_head rfl h.2⟩
  leave h h' hup hcap := ⟨manualScoping.leave h.1 h'.1 hup hcap, Capturable.congr_head rfl h'.2⟩
  declare h hk hs := ⟨manualScoping.declare h.1 hk hs, Capturable.congr_head rfl h.2⟩
  declareGlobals targets h hs :=
    ⟨manualScoping.declareGlobals targets h.1 hs, Capturable.congr_head rfl h.2⟩
  declareCollective h := ⟨manualScoping.declareCollective h.1, Capturable.congr_head rfl h.2⟩
  call info h :=
    ⟨manualScoping.call info h.1, fun u hu => absurd hu List.not_mem_nil,
      Capturable.congr_head rfl h.2⟩
  ret {ds ds' n n' f capture} h h' hcap hs hu hmore := by
    refine ⟨manualScoping.ret h.1 h'.1 hcap hs hu hmore, ?_⟩
    have hrest : Capturable n'.capture := h'.2.2
    rw [hcap] at hrest
    exact Capturable.congr_head rfl hrest

/-- The compiler decides every assignment to a name by the attribute of its declaration. -/
theorem follows_bindingRules : bindingScoping.Follows bindingRules where
  read _ _ _ := Scoping.alike_compileExprIdent
  write _ _ c hc :=
    ⟨identLvalue_binding hc.1 hc.2, (Scoping.alike_identLvalue c hc).2⟩
  varargBase _ _ := rfl

theorem compileMain_bindingRules (num : NumOps) (block : List Stmt) :
    compileMain num block = bindingRules.main num block :=
  Scoping.compileMain_eq follows_bindingRules
    ⟨accounts_chunk, fun u hu b hb => absurd hb (by simp [nearestIn]), trivial⟩ num block

/-! ### What the declarations say -/

namespace LocalAttr

/-- The uses for which the compiler does what the attribute says: a constant in its own function or
with a known value, and the other variables of a generic `for` in nested functions only. -/
def Enforceable (depth : ℕ) (kind : VarKind) : LocalAttr → Prop
  | plain => True
  | const => depth = 0 ∨ kind.isKnown = true
  | close => False
  | control => depth = 0
  | loopVar => 0 < depth

end LocalAttr

/-- The entries of a frame are the declared names, each with a kind for its attribute. -/
def BindsAll (declared : List (Name × LocalAttr)) (bound : Scope) : Prop :=
  List.Forall₂ (fun d b => b.1 = d.1 ∧ d.2.Binds b.2.kind) declared bound

/-! ### What the declarations bind -/

theorem cons_eq_withVariables {d : Declaration} {ds : Declarations} {vars : List (Name × LocalAttr)}
    (h : d :: ds = Declarations.withVariables [] vars) :
    ∃ init v, vars = init ++ [v] ∧ d = Declaration.variable v.1 v.2 ∧
      ds = Declarations.withVariables [] init := by
  rcases List.eq_nil_or_concat vars with rfl | ⟨init, v, rfl⟩
  · exact nomatch h
  · rw [List.concat_eq_append, Declarations.withVariables, List.foldl_append] at h
    obtain ⟨rfl, rfl⟩ := List.cons.inj h
    exact ⟨init, v, List.concat_eq_append, rfl, rfl⟩

theorem ne_withVariables {d : Declaration} (hd : ∀ name attr, d ≠ Declaration.variable name attr)
    (ds : Declarations) (vars : List (Name × LocalAttr)) :
    d :: ds ≠ Declarations.withVariables [] vars := by
  intro h
  obtain ⟨-, v, -, rfl, -⟩ := cons_eq_withVariables h
  exact hd _ _ rfl

/-- The scopes are the ones in front, with an entry for every variable declared since. -/
def frameScoping (s : List Scope) : Scoping where
  Holds ds n := n.scope ≠ [] ∧ ∀ vars, ds = Declarations.withVariables [] vars →
    ∃ bound : Scope, n.scope.flatten = bound.reverse ++ s.flatten ∧ BindsAll vars bound
  nonempty h := h.1
  resolve h hr := by
    rw [(resolveOrCapture_same hr).1]
    exact h
  enter h := ⟨by simp, h.2⟩
  leave h _ _ _ := h
  declare {ds n name attr data frame rest} h hk hs := by
    refine ⟨by simp, fun vars hds => ?_⟩
    obtain ⟨init, v, rfl, heq, hinit⟩ := cons_eq_withVariables hds
    obtain ⟨rfl, rfl⟩ := Declaration.variable.inj heq
    obtain ⟨bound, hflat, hbound⟩ := h.2 init hinit
    rw [hs, List.flatten_cons] at hflat
    refine ⟨bound ++ [(v.1, data)], ?_, List.rel_append hbound (List.Forall₂.cons ⟨rfl, hk⟩ .nil)⟩
    rw [List.flatten_cons, List.cons_append, hflat, List.reverse_append]
    rfl
  declareGlobals targets _ _ :=
    ⟨by simp, fun vars hds => absurd hds (ne_withVariables (by simp) _ _)⟩
  declareCollective h := ⟨h.1, fun vars hds => absurd hds (ne_withVariables (by simp) _ _)⟩
  call info _ := ⟨by simp, fun vars hds => absurd hds (ne_withVariables (by simp) _ _)⟩
  ret h _ _ _ _ _ := h

/-- The compiler's own uses of names. -/
def compilerRules : NameRules where
  read _ := compileExprIdent
  write _ := identLvalue
  varargBase _ := resolveVarargBase

theorem follows_compilerRules (S : Scoping) : S.Follows compilerRules where
  read _ _ _ := Scoping.alike_compileExprIdent
  write _ _ := Scoping.alike_identLvalue
  varargBase _ _ := rfl

section

variable {α : Type} {m m' : CompileM α} {c c' : Ctx} {a : α}

theorem frameScoping_start (hs : c.scope ≠ []) : (frameScoping c.scope).Holds [] c.names := by
  refine ⟨hs, fun vars hvars => ⟨[], rfl, ?_⟩⟩
  rcases List.eq_nil_or_concat vars with rfl | ⟨init, v, rfl⟩
  · exact List.Forall₂.nil
  · rw [List.concat_eq_append, Declarations.withVariables, List.foldl_append] at hvars
    cases hvars

/-- **A step that declares variables** binds them by their attributes. -/
theorem binds_of_alike {frame : Scope} {rest : List Scope} (vars : List (Name × LocalAttr))
    (h : ∀ S : Scoping, S.Alike [] (Declarations.withVariables [] vars) m m')
    (hs : c.scope = frame :: rest) (hm : m c = Except.ok (a, c')) :
    ∃ bound, c'.scope = (bound.reverse ++ frame) :: rest ∧ BindsAll vars bound := by
  have hstart := frameScoping_start (c := c) (by rw [hs]; exact List.cons_ne_nil _ _)
  obtain ⟨⟨hne, hbinds⟩, hwithin⟩ := (h (frameScoping c.scope) c hstart).2 a c' hm
  obtain ⟨bound, hflat, hbound⟩ := hbinds vars rfl
  have hflat : c'.scope.flatten = bound.reverse ++ c.scope.flatten := hflat
  have houter := hwithin.outer
  obtain ⟨frame', rest', hs'⟩ := List.exists_cons_of_ne_nil (l := c'.scope) hne
  rw [hs, hs', List.tail_cons, List.tail_cons] at houter
  rw [hs, hs', houter, List.flatten_cons, List.flatten_cons, ← List.append_assoc] at hflat
  exact ⟨bound, by rw [hs', houter, List.append_cancel_right hflat], hbound⟩

/-- A step that declares nothing leaves the scopes alone. -/
theorem scope_of_alike (h : ∀ S : Scoping, S.Alike [] [] m m') (hs : c.scope ≠ [])
    (hm : m c = Except.ok (a, c')) : c'.scope = c.scope := by
  obtain ⟨frame, rest, hs⟩ := List.exists_cons_of_ne_nil hs
  obtain ⟨bound, hs', hbound⟩ := binds_of_alike [] h hs hm
  cases hbound
  exact hs'.trans hs.symm

theorem Discipline.Obeys.scope (h : Internal m) (hm : m c = Except.ok (a, c')) :
    c'.scope = c.scope :=
  (h.names hm).scope

end

section

variable {c c' : Ctx} {u : Unit}

/-- A `local` declaration binds its targets by their attributes. -/
theorem decl_binds {targets : List DeclTarget} {values : List Expr} {frame : Scope}
    {rest : List Scope} (hs : c.scope = frame :: rest)
    (h : compileStmt (Stmt.decl targets values) c = Except.ok (u, c')) :
    ∃ bound, c'.scope = (bound.reverse ++ frame) :: rest ∧ BindsAll (declAttrs targets) bound :=
  binds_of_alike (declAttrs targets)
    (fun S => Scoping.alike_stmt (follows_compilerRules S) (Stmt.decl targets values) []) hs h

/-- A local function is a variable. -/
theorem localFunction_binds {name : Name} {body : FuncBody} {frame : Scope} {rest : List Scope}
    (hs : c.scope = frame :: rest)
    (h : compileStmt (Stmt.localFunction name body) c = Except.ok (u, c')) :
    ∃ bound, c'.scope = (bound.reverse ++ frame) :: rest ∧
      BindsAll [(name, LocalAttr.plain)] bound :=
  binds_of_alike [(name, LocalAttr.plain)]
    (fun S => Scoping.alike_stmt (follows_compilerRules S) (Stmt.localFunction name body) []) hs h

/-- So are the parameters, and the named vararg. -/
theorem functionPrologue_binds {params : List Name} {isVararg : Bool} {varargName : Option Name}
    {arity : ℕ} (h : functionPrologue params isVararg varargName arity c = Except.ok (u, c')) :
    ∃ bound, c'.scope = bound.reverse :: c.scope ∧
      BindsAll (plainAttrs (params ++ varargName.toList)) bound := by
  have hstart := frameScoping_start (c := { c with scope := [] :: c.scope }) (by simp)
  obtain ⟨⟨hne, hbinds⟩, htail, -⟩ := Scoping.functionPrologue_spec h hstart
  obtain ⟨bound, hflat, hbound⟩ := hbinds _ rfl
  have hflat : c'.scope.flatten = bound.reverse ++ c.scope.flatten := hflat
  obtain ⟨frame', rest', hs'⟩ := List.exists_cons_of_ne_nil (l := c'.scope) hne
  rw [hs', List.tail_cons] at htail
  rw [hs', htail, List.flatten_cons] at hflat
  exact ⟨bound, by rw [hs', htail, List.append_cancel_right hflat], hbound⟩

/-- What a loop does inside starts in a scope of its own. -/
theorem scopeLexicalBreak_inside {m : CompileM Unit}
    (h : scopeLexicalBreak m c = Except.ok (u, c')) :
    ∃ c₁ c₂ u', c₁.scope = [] :: c.scope ∧ m c₁ = Except.ok (u', c₂) := by
  obtain ⟨u₁, c₁, h₁, h⟩ := bind_eq_ok.1 h
  obtain ⟨u₂, c₂, h₂, -⟩ := bind_eq_ok.1 h
  obtain ⟨label, c₃, h₃, h₂⟩ := bind_eq_ok.1 h₂
  obtain ⟨u₄, c₄, h₄, h₂⟩ := bind_eq_ok.1 h₂
  obtain ⟨u₅, c₅, h₅, -⟩ := bind_eq_ok.1 h₂
  refine ⟨c₄, c₅, u₅, ?_, h₅⟩
  have hs₄ : c₄.scope = c₃.scope := by rw [← modify_eq_ok.1 h₄]
  rw [hs₄, obeys_newLabel.scope h₃, ← modify_eq_ok.1 h₁]

/-- Behind the operand of a loop the scopes are the same. -/
theorem controlOperand_scope {e : Expr} {hint : Option ℕ} {target : ℕ} (hs : c.scope ≠ [])
    (h : controlOperand (toReg (compileExpr e hint) hint) target c = Except.ok (u, c')) :
    c'.scope = c.scope :=
  scope_of_alike (fun S => Scoping.alike_controlOperand
    (Scoping.alike_toReg (Scoping.alike_expr (follows_compilerRules S) [] e hint) hint) target) hs h

/-- The body of a loop sees what the part in front of it has bound. -/
theorem loopBody_binds {vars : List (Name × LocalAttr)} {entry : CompileM (ℕ × ℕ)}
    {block : List Stmt} {k : ℕ × ℕ → Unit → CompileM Unit}
    (hentry : ∀ S : Scoping, S.Alike [] (Declarations.withVariables [] vars) entry entry)
    {c₁ c₂ : Ctx} (hs : c₁.scope = [] :: c.scope)
    (h : (entry >>= fun labels => compileBlock block >>= k labels) c₁ = Except.ok (u, c₂)) :
    ∃ bound c₁ c₂ u', compileBlock block c₁ = Except.ok (u', c₂) ∧
      c₁.scope = bound.reverse :: c.scope ∧ BindsAll vars bound := by
  obtain ⟨labels, c₃, h₃, h⟩ := bind_eq_ok.1 h
  obtain ⟨u₄, c₄, h₄, -⟩ := bind_eq_ok.1 h
  obtain ⟨bound, hs₃, hbound⟩ := binds_of_alike vars hentry hs h₃
  rw [List.append_nil] at hs₃
  exact ⟨bound, c₃, c₄, u₄, h₄, hs₃, hbound⟩

/-- The body of a numeric `for` sees the control variable. -/
theorem forNum_binds {counter : Name} {init limit : Expr} {step : Option Expr} {block : List Stmt}
    (h : compileStmt (Stmt.forNum counter init limit step block) c = Except.ok (u, c')) :
    ∃ bound c₁ c₂ u', compileBlock block c₁ = Except.ok (u', c₂) ∧
      c₁.scope = bound.reverse :: c.scope ∧ BindsAll [(counter, LocalAttr.control)] bound := by
  have hloop : ∃ step', forNumLoop counter (fun hint => toReg (compileExpr init hint) hint)
      (fun hint => toReg (compileExpr limit hint) hint) step' (compileBlock block) c =
        Except.ok (u, c') ∧ ∀ f ∈ step', ∃ e, f = fun hint => toReg (compileExpr e hint) hint := by
    cases step with
    | none =>
        rw [compileStmt] at h
        exact ⟨none, h, by simp⟩
    | some e =>
        rw [compileStmt] at h
        exact ⟨some _, h, fun f hf => ⟨e, (Option.mem_some_iff.1 hf).symm⟩⟩
  obtain ⟨step', hloop, hstep⟩ := hloop
  obtain ⟨c₁, c₂, u₂, hs₁, h⟩ := scopeLexicalBreak_inside hloop
  obtain ⟨base, c₃, h₃, h⟩ := bind_eq_ok.1 h
  obtain ⟨limitReg, c₄, h₄, h⟩ := bind_eq_ok.1 h
  obtain ⟨stepReg, c₅, h₅, h⟩ := bind_eq_ok.1 h
  obtain ⟨u₆, c₆, h₆, h⟩ := bind_eq_ok.1 h
  obtain ⟨u₇, c₇, h₇, h⟩ := bind_eq_ok.1 h
  have hs₅ : c₅.scope = [] :: c.scope := by
    rw [obeys_reserveReg.scope h₅, obeys_reserveReg.scope h₄, obeys_reserveReg.scope h₃,
      hs₁]
  have hs₆ : c₆.scope = [] :: c.scope :=
    (controlOperand_scope (by rw [hs₅]; exact List.cons_ne_nil _ _) h₆).trans hs₅
  have hs₇ : c₇.scope = [] :: c.scope :=
    (controlOperand_scope (by rw [hs₆]; exact List.cons_ne_nil _ _) h₇).trans hs₆
  have hentry : ∀ S : Scoping, S.Alike [] _ (forNumEntry counter base stepReg) _ := fun S =>
    Scoping.alike_forNumEntry counter base stepReg
  cases step' with
  | some f =>
      obtain ⟨e, rfl⟩ := hstep f rfl
      obtain ⟨u₈, c₈, h₈, h⟩ := bind_eq_ok.1 h
      have hs₈ := (controlOperand_scope (by rw [hs₇]; exact List.cons_ne_nil _ _) h₈).trans hs₇
      exact loopBody_binds hentry hs₈ h
  | none =>
      obtain ⟨idx, c₈, h₈, h⟩ := bind_eq_ok.1 h
      obtain ⟨u₉, c₉, h₉, h⟩ := bind_eq_ok.1 h
      refine loopBody_binds hentry ?_ h
      rw [(internal_emit _).scope h₉, (obeys_allocConstant _).scope h₈, hs₇]

/-- The body of a generic `for` sees the loop variables. -/
theorem forGen_binds {names : List Name} {values : List Expr} {block : List Stmt}
    (h : compileStmt (Stmt.forGen names values block) c = Except.ok (u, c')) :
    ∃ bound c₁ c₂ u', compileBlock block c₁ = Except.ok (u', c₂) ∧
      c₁.scope = bound.reverse :: c.scope ∧ BindsAll (loopAttrs names) bound := by
  rw [compileStmt] at h
  obtain ⟨c₁, c₂, u₂, hs₁, h⟩ := scopeLexicalBreak_inside h
  obtain ⟨ch, c₃, h₃, h⟩ := bind_eq_ok.1 h
  obtain ⟨rfl, rfl⟩ := getChunk_eq_ok.1 h₃
  obtain ⟨u₄, c₄, h₄, h⟩ := bind_eq_ok.1 h
  have hs₄ : c₄.scope = c₁.scope :=
    scope_of_alike (fun S => Scoping.alike_forValues (follows_compilerRules S) [] _ _ _ _)
      (by rw [hs₁]; exact List.cons_ne_nil _ _) h₄
  exact loopBody_binds (fun S => Scoping.alike_forGenEntry names _) (hs₄.trans hs₁) h

end

/-! ### Enforcement -/

section

variable {ds : Declarations} {c : Ctx} {name : Name}

/-- The refusal of an assignment. -/
def constFault : Fault := Fault.error (CompileError.internal "assignment to const variable")

/-- An assignment to the name is refused exactly when the attribute says so, and accepted
otherwise. -/
def Enforced (c : Ctx) (name : Name) (attr : LocalAttr) : Prop :=
  ∀ regs, (compileLvalue (Expr.ident name) regs c = Except.error constFault ↔
      attr.readOnly = true) ∧
    (attr.readOnly = true ∨ ∃ p, compileLvalue (Expr.ident name) regs c = Except.ok p)

/-- An assignment to a variable is refused or accepted by what the nearest binding is. -/
theorem lvalue_of_nearest {depth : ℕ} {data : VariableData} (regs : List ℕ)
    (hc : bindingScoping.Holds ds c.names)
    (hnear : nearestIn c.names.functions name = some (depth, data))
    (hglobal : data.kind ≠ VarKind.global) :
    (refusesAssign depth data.kind = true ∧
        compileLvalue (Expr.ident name) regs c = Except.error constFault) ∨
      (refusesAssign depth data.kind = false ∧
        ∃ p, compileLvalue (Expr.ident name) regs c = Except.ok p) := by
  have hget : (get : CompileM Ctx) c = Except.ok (c, c) := rfl
  obtain ⟨attr, hn, hattr⟩ := hc.1.declared hnear hglobal
  rw [compileLvalue, identLvalue_binding hc.1 hc.2]
  unfold bindingLvalue
  rw [bind_of_eq hget, hn, hnear]
  dsimp only
  rw [hattr.refuses_eq]
  cases hrefuses : refusesAssign depth data.kind with
  | true => exact Or.inl ⟨rfl, rfl⟩
  | false =>
      refine Or.inr ⟨rfl, ?_⟩
      rw [if_neg (by simp)]
      by_cases hdepth : depth = 0
      · rw [if_pos hdepth]
        exact ⟨_, rfl⟩
      · rw [if_neg hdepth]
        -- the binding is one of a function around
        cases hlocal : resolveLocalIn c.scope name with
        | some d =>
            have hown : nearestIn c.names.functions name = some (0, d) :=
              nearestIn_cons_of_some hlocal
            rw [hown] at hnear
            exact absurd (Prod.mk.inj (Option.some.inj hnear)).1.symm hdepth
        | none =>
            have houter : nearestIn c.names.functions name =
                (nearestIn c.capture name).map fun b => (b.1 + 1, b.2) :=
              nearestIn_cons_of_none hlocal
            rw [houter] at hnear
            obtain ⟨b, hb, heq⟩ := Option.map_eq_some_iff.1 hnear
            obtain ⟨-, hdata⟩ := Prod.mk.inj heq
            obtain ⟨r, c', hr⟩ := exists_resolveOrCapture name c
            rw [bind_of_eq hr]
            rcases resolveOrCapture_nearest hc.1.captured hc.2 hb hr with
              ⟨hk, -, -⟩ | ⟨v, hk, -⟩ | ⟨-, -, idx, rfl⟩
            · rw [hdata] at hk
              exact absurd hk hglobal
            · rw [hdata] at hk
              rw [refusesAssign, if_neg hdepth, hk] at hrefuses
              exact absurd hrefuses (by simp [VarKind.isKnown])
            · exact ⟨_, rfl⟩

/-- **When the compiler enforces an attribute**: exactly for the uses that are enforceable. -/
theorem enforced_iff {depth : ℕ} {data : VariableData} {attr : LocalAttr}
    (hc : bindingScoping.Holds ds c.names)
    (hnear : nearestIn c.names.functions name = some (depth, data)) (hattr : attr.Binds data.kind) :
    Enforced c name attr ↔ attr.Enforceable depth data.kind := by
  have hrun := fun regs => lvalue_of_nearest regs hc hnear hattr.ne_global
  -- what is enforced is that the attribute and the refusal agree
  have hagree : Enforced c name attr ↔ refusesAssign depth data.kind = attr.readOnly := by
    constructor
    · intro h
      rcases hrun [] with ⟨hr, herr⟩ | ⟨hr, p, hok⟩
      · rw [hr, (h []).1.1 herr]
      · rw [hr]
        by_contra hne
        have hread : attr.readOnly = true := by
          cases hro : attr.readOnly with
          | true => rfl
          | false => exact absurd hro.symm hne
        have herr := (h []).1.2 hread
        rw [hok] at herr
        exact absurd herr (by simp)
    · intro h regs
      rcases hrun regs with ⟨hr, herr⟩ | ⟨hr, p, hok⟩
      · rw [← h, hr]
        exact ⟨⟨fun _ => rfl, fun _ => herr⟩, Or.inl rfl⟩
      · rw [← h, hr]
        refine ⟨⟨fun herr => ?_, fun hro => absurd hro (by simp)⟩, Or.inr ⟨p, hok⟩⟩
        rw [hok] at herr
        exact absurd herr (by simp)
  rw [hagree, ← hattr.refuses_eq]
  cases attr <;>
    simp [LocalAttr.refuses, LocalAttr.readOnly, LocalAttr.Enforceable, Nat.pos_iff_ne_zero]

/-- `_ENV` outside of every declaration is a variable. -/
theorem enforced_env (hc : bindingScoping.Holds ds c.names)
    (hnear : nearestIn c.names.functions envName = none) : Enforced c envName LocalAttr.plain := by
  have hok : ∀ regs, ∃ p, compileLvalue (Expr.ident envName) regs c = Except.ok p := by
    intro regs
    rw [compileLvalue]
    unfold identLvalue
    rw [bind_of_eq (resolveLocal_apply envName c)]
    cases hlocal : resolveLocalIn c.scope envName with
    | some d =>
        have hown : nearestIn c.names.functions envName = some (0, d) :=
          nearestIn_cons_of_some hlocal
        exact absurd (hown.symm.trans hnear) (by simp)
    | none =>
        have houter : nearestIn c.names.functions envName =
            (nearestIn c.capture envName).map fun b => (b.1 + 1, b.2) :=
          nearestIn_cons_of_none hlocal
        rw [houter] at hnear
        have hkind : kindIn c.capture envName = none := by
          rw [kindIn_eq_nearestIn, Option.map_eq_none_iff.1 hnear]
          rfl
        obtain ⟨r, c', hr⟩ := exists_resolveOrCapture envName c
        have hsome := (resolveOrCapture_spec hc.1.captured hr).1 (Or.inr ⟨hkind, rfl⟩)
        show ∃ p, (resolveOrCapture envName >>= _) c = Except.ok p
        rw [bind_of_eq hr]
        rcases resolveOrCapture_eq_ok hr with
          ⟨i, -, rfl, -⟩ | ⟨-, ⟨-, rfl, -⟩ | ⟨v, hv, -, -⟩ | ⟨desc, -, rfl, -⟩⟩
        · exact ⟨_, rfl⟩
        · exact absurd rfl hsome
        · exact absurd ((resolveForChild_const _ hv).symm.trans hkind) (by simp)
        · exact ⟨_, rfl⟩
  intro regs
  obtain ⟨p, hp⟩ := hok regs
  rw [hp]
  exact ⟨⟨fun h => absurd h (by simp), fun h => absurd h (by simp [LocalAttr.readOnly])⟩,
    Or.inr ⟨p, rfl⟩⟩

end

/-- **Assignments to read-only variables.**  On every program, the compiler decides an assignment by
the attribute in the declaration of the name, by the functions in between and by whether the value
is known.  In every state it can be in, the name is bound by the attribute, and the compiler refuses
the assignments that the attribute forbids, and only these, exactly for the enforceable uses.  And
behind a declaration the innermost frame has its names by their attributes. -/
theorem const_enforcement_iff (num : NumOps) (block : List Stmt) (ds : Declarations) (c c' : Ctx)
    (u : Unit) (name : Name) :
    compileMain num block = bindingRules.main num block ∧
    (∀ attr : LocalAttr, bindingScoping.Holds ds c.names →
      ds.nearest name = some (Referent.variable attr) →
        (∃ (depth : ℕ) (data : VariableData),
          nearestIn c.names.functions name = some (depth, data) ∧
          attr.Binds data.kind ∧ (Enforced c name attr ↔ attr.Enforceable depth data.kind)) ∨
        nearestIn c.names.functions name = none ∧ name = envName ∧ Enforced c name attr) ∧
    (∀ (depth : ℕ) (data : VariableData) (attr : LocalAttr), bindingScoping.Holds ds c.names →
      nearestIn c.names.functions name = some (depth, data) → attr.Binds data.kind →
        (Enforced c name attr ↔ attr.Enforceable depth data.kind)) ∧
    (bindingScoping.Holds ds c.names → nearestIn c.names.functions envName = none →
      Enforced c envName LocalAttr.plain) ∧
    (∀ (targets : List DeclTarget) (values : List Expr) (frame : Scope) (rest : List Scope),
      c.scope = frame :: rest → compileStmt (Stmt.decl targets values) c = Except.ok (u, c') →
        ∃ bound, c'.scope = (bound.reverse ++ frame) :: rest ∧
          BindsAll (targets.map fun t => (t.name, t.attr)) bound) ∧
    (∀ (body : FuncBody) (frame : Scope) (rest : List Scope), c.scope = frame :: rest →
      compileStmt (Stmt.localFunction name body) c = Except.ok (u, c') →
        ∃ bound, c'.scope = (bound.reverse ++ frame) :: rest ∧
          BindsAll [(name, LocalAttr.plain)] bound) ∧
    (∀ (params : List Name) (isVararg : Bool) (varargName : Option Name) (arity : ℕ),
      functionPrologue params isVararg varargName arity c = Except.ok (u, c') →
        ∃ bound, c'.scope = bound.reverse :: c.scope ∧
          BindsAll ((params ++ varargName.toList).map fun name => (name, LocalAttr.plain)) bound) ∧
    (∀ (init limit : Expr) (step : Option Expr),
      compileStmt (Stmt.forNum name init limit step block) c = Except.ok (u, c') →
        ∃ bound c₁ c₂ u', compileBlock block c₁ = Except.ok (u', c₂) ∧
          c₁.scope = bound.reverse :: c.scope ∧ BindsAll [(name, LocalAttr.control)] bound) ∧
    ∀ (names : List Name) (values : List Expr),
      compileStmt (Stmt.forGen names values block) c = Except.ok (u, c') →
        ∃ bound c₁ c₂ u', compileBlock block c₁ = Except.ok (u', c₂) ∧
          c₁.scope = bound.reverse :: c.scope ∧ BindsAll (loopAttrs names) bound := by
  refine ⟨compileMain_bindingRules num block, fun attr hc hn => ?_,
    fun depth data attr hc hnear hattr => enforced_iff hc hnear hattr,
    fun hc hnear => enforced_env hc hnear, fun targets values frame rest hs h => ?_,
    fun body frame rest hs h => localFunction_binds hs h,
    fun params isVararg varargName arity h => functionPrologue_binds h,
    fun init limit step h => forNum_binds h, fun names values h => forGen_binds h⟩
  · rcases hc.1.binding hn with ⟨depth, data, hnear, hattr⟩ | ⟨hnone, rfl, rfl⟩
    · exact Or.inl ⟨depth, data, hnear, hattr, enforced_iff hc hnear hattr⟩
    · exact Or.inr ⟨hnone, rfl, enforced_env hc hnone⟩
  · exact decl_binds hs h

/-- A constant with a known value is refused in a function inside. -/
theorem const_enforcement_captured :
    ∃ (c : Ctx) (data : VariableData),
      nearestIn c.names.functions (bytes "k") = some (1, data) ∧
        Enforced c (bytes "k") LocalAttr.const := by
  let num : NumOps := { tryFoldBinop := fun _ _ _ => none, exactFloatToInt := fun _ => none }
  let data : VariableData := { register := 0, kind := VarKind.const (some ConstVal.nil) }
  let around : Enclosing :=
    { scope := [[(bytes "k", data)]], upvalues := [(envName, UpValueDescriptor.parentLocal 0)],
      varargInfo := none }
  let c : Ctx := { initialCtx [around] false 0 [] GlobalEnv.new num with scope := [[]] }
  have hchunk : bindingScoping.Holds Declarations.chunk
      { scope := [[]], globals := GlobalEnv.new,
        upvalues := [(envName, UpValueDescriptor.parentLocal 0)], capture := [] } :=
    ⟨accounts_chunk, fun u hu b hb => absurd hb (by simp [nearestIn]), trivial⟩
  have hc : bindingScoping.Holds
      (Declaration.function :: Declaration.variable (bytes "k") LocalAttr.const ::
        Declarations.chunk)
      c.names :=
    have hconst : LocalAttr.const.Binds data.kind := ⟨_, rfl⟩
    bindingScoping.call none (bindingScoping.declare hchunk hconst rfl)
  have hnear : nearestIn c.names.functions (bytes "k") = some (1, data) := rfl
  have henforced := (const_enforcement_iff num [] _ c c () (bytes "k")).2.2.1 1 data LocalAttr.const
    hc hnear ⟨_, rfl⟩
  exact ⟨c, data, hnear, henforced.2 (Or.inr rfl)⟩

/-- `local x <close> = nil` and then `x = 1` compiles. -/
theorem close_is_assigned :
    ∃ num : NumOps,
      (compileMain num
        [Stmt.decl [{ name := bytes "x", modifier := some DeclModifier.close }]
            [Expr.literal LiteralValue.nil],
          Stmt.assign [Expr.ident (bytes "x")] [Expr.literal (LiteralValue.int 1)]]).isOk = true :=
  ⟨{ tryFoldBinop := fun _ _ _ => none, exactFloatToInt := fun _ => none }, by decide +kernel⟩

end Tcvm
