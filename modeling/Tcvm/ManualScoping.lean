/-
Names are resolved by the rules of the manual.

The compiler decides the use of a name by the frames of its functions, by what they have captured so
far, and by a table of declared globals.  The invariant below says what these amount to under given
declarations: what the frames say about a name is what its nearest declaration says, the table has
the kinds of the globals that are declared, and what a function has captured is a variable outside
of it.  With it the compiler follows the manual.

* `kindIn`, `Bound` — what the frames of a chain of functions say about a name;
* `Captured` — the captures are variables of the enclosing functions;
* `Refers`, `policy` — the compiler's account of the declarations in force;
* `manualScoping` — the invariant;
* `follows_manualRules`, `compile_global_scoping` — **the compiler follows the manual**.
-/

import Tcvm.ScopeRecursion

namespace Tcvm

open CompileM StateExcept Discipline

/-! ### What the frames say about a name -/

/-- The kind of the innermost binding of a name in a chain of functions. -/
def kindIn (fs : List Enclosing) (name : Name) : Option VarKind :=
  fs.findSome? fun f => (resolveLocalIn f.scope name).map VariableData.kind

/-- The name is a variable in a chain of functions; outside of the chunk there is `_ENV`. -/
def Bound (fs : List Enclosing) (name : Name) : Prop :=
  (∃ kind, kindIn fs name = some kind ∧ kind ≠ VarKind.global) ∨
    (kindIn fs name = none ∧ name = envName)

/-- The name is a variable with this attribute; `_ENV` has none. -/
def BoundAs (fs : List Enclosing) (name : Name) (attr : LocalAttr) : Prop :=
  (∃ kind, kindIn fs name = some kind ∧ attr.Binds kind) ∨
    (kindIn fs name = none ∧ name = envName ∧ attr = LocalAttr.plain)

theorem BoundAs.bound {fs : List Enclosing} {name : Name} {attr : LocalAttr}
    (h : BoundAs fs name attr) : Bound fs name := by
  rcases h with ⟨kind, hk, hattr⟩ | ⟨hk, hname, -⟩
  · exact Or.inl ⟨kind, hk, hattr.ne_global⟩
  · exact Or.inr ⟨hk, hname⟩

/-- What the functions of a chain have captured are variables of the functions around them, and the
chunk has `_ENV`. -/
def Captured : List Enclosing → Prop
  | [] => True
  | f :: fs =>
      (∀ u ∈ f.upvalues, Bound fs u.1) ∧ (fs = [] → ∃ u ∈ f.upvalues, u.1 = envName) ∧ Captured fs

section

variable {f : Enclosing} {fs fs' : List Enclosing} {name : Name}

theorem kindIn_cons_of_some {data : VariableData} (h : resolveLocalIn f.scope name = some data) :
    kindIn (f :: fs) name = some data.kind := by
  rw [kindIn, List.findSome?_cons, h]
  rfl

theorem kindIn_cons_of_none (h : resolveLocalIn f.scope name = none) :
    kindIn (f :: fs) name = kindIn fs name := by
  rw [kindIn, List.findSome?_cons, h]
  rfl

theorem kindIn_congr (h : fs.map Enclosing.scope = fs'.map Enclosing.scope) (name : Name) :
    kindIn fs name = kindIn fs' name := by
  have hmap : ∀ fs : List Enclosing, kindIn fs name =
      (fs.map Enclosing.scope).findSome? fun s =>
        (resolveLocalIn s name).map VariableData.kind := by
    intro fs
    rw [List.findSome?_map]
    rfl
  rw [hmap, hmap, h]

theorem CapturesMore.scopes (h : CapturesMore fs fs') :
    fs.map Enclosing.scope = fs'.map Enclosing.scope := by
  induction h with
  | nil => rfl
  | cons hf _ ih => rw [List.map_cons, List.map_cons, hf.scope, ih]

theorem Bound.congr (h : ∀ name, kindIn fs name = kindIn fs' name) (hb : Bound fs name) :
    Bound fs' name := by
  unfold Bound at hb ⊢
  rw [← h]
  exact hb

theorem not_bound_of_global (h : kindIn fs name = some VarKind.global) : ¬ Bound fs name := by
  rintro (⟨kind, hk, hne⟩ | ⟨hk, -⟩)
  · exact hne (Option.some.inj (hk.symm.trans h))
  · rw [h] at hk
    exact absurd hk (by simp)

theorem not_bound_of_none (h : kindIn fs name = none) (hne : name ≠ envName) : ¬ Bound fs name := by
  rintro (⟨kind, hk, -⟩ | ⟨-, he⟩)
  · rw [h] at hk
    exact absurd hk (by simp)
  · exact hne he

/-- A captured name is found in the list. -/
theorem upvalueIndex_eq_none {upvalues : List (Name × UpValueDescriptor)} :
    upvalueIndex upvalues name = none ↔ ∀ u ∈ upvalues, u.1 ≠ name := by
  unfold upvalueIndex
  rw [Option.map_eq_none_iff, List.findIdx?_eq_none_iff]
  simp

theorem exists_of_upvalueIndex {upvalues : List (Name × UpValueDescriptor)} {i : ℕ}
    (h : upvalueIndex upvalues name = some i) : ∃ u ∈ upvalues, u.1 = name := by
  by_contra hne
  have : upvalueIndex upvalues name = none :=
    upvalueIndex_eq_none.2 fun u hu he => hne ⟨u, hu, he⟩
  rw [this] at h
  exact absurd h (by simp)

/-- Only the captures and the functions around matter for what has been captured. -/
theorem Captured.congr_head {f' : Enclosing} (hu : f'.upvalues = f.upvalues)
    (h : Captured (f :: fs)) : Captured (f' :: fs) := by
  obtain ⟨hbound, hlast, hrest⟩ := h
  rw [← hu] at hbound hlast
  exact ⟨hbound, hlast, hrest⟩

/-! ### Resolving a name in the enclosing functions -/

/-- A name resolves for a nested function exactly when it is a variable; otherwise nothing is
captured. -/
theorem resolveForChild_spec (name : Name) (fs : List Enclosing) (hc : Captured fs)
    (hne : fs ≠ []) :
    (Bound fs name → (resolveForChild name fs).1 ≠ none) ∧
      (¬ Bound fs name → resolveForChild name fs = (none, fs)) ∧
        Captured (resolveForChild name fs).2 := by
  induction fs with
  | nil => exact absurd rfl hne
  | cons f fs ih =>
      unfold resolveForChild
      cases hlocal : resolveLocalIn f.scope name with
      | some data =>
          obtain ⟨reg, kind⟩ := data
          have hkind : kindIn (f :: fs) name = some kind := kindIn_cons_of_some hlocal
          have hbound : kind ≠ VarKind.global → Bound (f :: fs) name :=
            fun h => Or.inl ⟨kind, hkind, h⟩
          cases kind with
          | global => exact ⟨fun h => absurd h (not_bound_of_global hkind), fun _ => rfl, hc⟩
          | const v =>
              cases v with
              | some v => exact ⟨fun _ => by simp, fun h => absurd (hbound (by simp)) h, hc⟩
              | none => exact ⟨fun _ => by simp, fun h => absurd (hbound (by simp)) h, hc⟩
          | varargParam =>
              exact ⟨fun _ => by simp, fun h => absurd (hbound (by simp)) h,
                Captured.congr_head rfl hc⟩
          | reg => exact ⟨fun _ => by simp, fun h => absurd (hbound (by simp)) h, hc⟩
          | toClose => exact ⟨fun _ => by simp, fun h => absurd (hbound (by simp)) h, hc⟩
      | none =>
          have hkind : kindIn (f :: fs) name = kindIn fs name := kindIn_cons_of_none hlocal
          have hbound : Bound (f :: fs) name ↔ Bound fs name := by rw [Bound, hkind, ← Bound]
          obtain ⟨hups, hlast, hrest⟩ := hc
          dsimp only
          cases hup : upvalueIndex f.upvalues name with
          | some i =>
              obtain ⟨u, hu, rfl⟩ := exists_of_upvalueIndex hup
              refine ⟨fun _ => by simp, fun h => absurd (hbound.2 (hups u hu)) h, ?_⟩
              exact ⟨hups, hlast, hrest⟩
          | none =>
              dsimp only
              rw [hbound]
              rcases eq_or_ne fs [] with rfl | hfs
              · -- in the chunk, `_ENV` has been captured
                have hno : ¬ Bound [] name := by
                  refine not_bound_of_none rfl ?_
                  rintro rfl
                  obtain ⟨u, hu, he⟩ := hlast rfl
                  exact upvalueIndex_eq_none.1 hup u hu he
                exact ⟨fun h => absurd h hno, fun _ => rfl, hups, hlast, hrest⟩
              · obtain ⟨ih₁, ih₂, ih₃⟩ := ih hrest hfs
                have hscopes := (captures_resolveForChild name fs).scopes
                generalize resolveForChild name fs = r at ih₁ ih₂ ih₃ hscopes ⊢
                obtain ⟨r, fs'⟩ := r
                have hcaptured : ∀ upvalues : List (Name × UpValueDescriptor),
                    (∀ u ∈ upvalues, Bound fs u.1) →
                    Captured ({ f with upvalues := upvalues } :: fs') := by
                  refine fun upvalues hu =>
                    ⟨fun u hm => (hu u hm).congr (kindIn_congr hscopes), ?_, ih₃⟩
                  rintro rfl
                  exact absurd (List.map_eq_nil_iff.1 hscopes) hfs
                rcases r with _ | v | desc
                · refine ⟨fun h => absurd rfl (ih₁ h), fun h => ?_, hcaptured _ hups⟩
                  obtain ⟨-, rfl⟩ := Prod.mk.inj (ih₂ h)
                  rfl
                · exact ⟨fun _ => by simp, fun h => absurd (ih₂ h) (by simp), hcaptured _ hups⟩
                · refine ⟨fun _ => by simp, fun h => absurd (ih₂ h) (by simp), hcaptured _ ?_⟩
                  intro u hu
                  rcases List.mem_append.1 hu with hu | hu
                  · exact hups u hu
                  · obtain rfl := List.mem_singleton.1 hu
                    by_contra h
                    exact absurd (ih₂ h) (by simp)

/-- What the enclosing functions give as a constant is the nearest binding of the name, by induction
on the functions: one that does not bind the name and has not captured it asks the next one. -/
theorem resolveForChild_const {v : ConstVal} (fs : List Enclosing)
    (h : (resolveForChild name fs).1 = some (ChildResolution.const v)) :
    kindIn fs name = some (VarKind.const (some v)) := by
  induction fs with
  | nil => exact absurd h (by simp [resolveForChild])
  | cons f fs ih =>
      rw [resolveForChild] at h
      cases hlocal : resolveLocalIn f.scope name with
      | some data =>
          obtain ⟨reg, kind⟩ := data
          rw [kindIn_cons_of_some hlocal]
          simp only [hlocal] at h
          cases kind with
          | const w =>
              cases w with
              | some w =>
                  obtain rfl := ChildResolution.const.inj (Option.some.inj h)
                  rfl
              | none => exact absurd h (by simp)
          | global | varargParam | reg | toClose => exact absurd h (by simp)
      | none =>
          rw [kindIn_cons_of_none hlocal]
          simp only [hlocal] at h
          cases hup : upvalueIndex f.upvalues name with
          | some i => exact absurd h (by simp [hup])
          | none =>
              refine ih ?_
              simp only [hup] at h
              generalize resolveForChild name fs = r at h
              obtain ⟨r, fs'⟩ := r
              rcases r with _ | w | desc
              · exact absurd h (by simp)
              · exact h
              · exact absurd h (by simp)

/-- The same for a function that resolves a free name of its own. -/
theorem resolveOrCapture_spec {c c' : Ctx} {r : Option ResolvedName} {scope : List Scope}
    {info : Option VarargInfo}
    (hc : Captured ({ scope := scope, upvalues := c.upvalues, varargInfo := info } :: c.capture))
    (h : resolveOrCapture name c = Except.ok (r, c')) :
    (Bound c.capture name → r ≠ none) ∧ (¬ Bound c.capture name → r = none ∧ c' = c) ∧
      Captured ({ scope := scope, upvalues := c'.upvalues, varargInfo := info } :: c'.capture) := by
  -- resolving like a function without variables of its own
  let f (upvalues : List (Name × UpValueDescriptor)) : Enclosing :=
    { scope := [], upvalues := upvalues, varargInfo := info }
  have hlocal : resolveLocalIn (f c.upvalues).scope name = none := rfl
  have hbound : Bound (f c.upvalues :: c.capture) name ↔ Bound c.capture name := by
    rw [Bound, kindIn_cons_of_none hlocal, ← Bound]
  obtain ⟨h₁, h₂, h₃⟩ := resolveForChild_spec name (f c.upvalues :: c.capture)
    (Captured.congr_head rfl hc) (by simp)
  rw [hbound] at h₁ h₂
  have hstep : ((resolveForChild name (f c.upvalues :: c.capture)).1 = none ↔ r = none) ∧
      (resolveForChild name (f c.upvalues :: c.capture)).2 = f c'.upvalues :: c'.capture ∧
      (r = none → c' = { c with capture := c'.capture }) := by
    rw [resolveForChild, hlocal]
    dsimp only
    rcases resolveOrCapture_eq_ok h with
      ⟨i, hup, rfl, rfl⟩ | ⟨hup, ⟨hr, rfl, rfl⟩ | ⟨v, hr, rfl, rfl⟩ | ⟨desc, hr, rfl, rfl⟩⟩
    · rw [show (f c'.upvalues).upvalues = c'.upvalues from rfl, hup]
      simp
    all_goals
      rw [show (f c.upvalues).upvalues = c.upvalues from rfl, hup]
      dsimp only
      generalize resolveForChild name c.capture = res at hr ⊢
      obtain ⟨res, fs'⟩ := res
      obtain rfl := hr
      simp [f]
  refine ⟨fun hb hr => h₁ hb (hstep.1.2 hr), fun hb => ?_, ?_⟩
  · have hnone := h₂ hb
    have hr := hstep.1.1 (by rw [hnone])
    refine ⟨hr, ?_⟩
    rw [hstep.2.2 hr]
    have hcap : f c'.upvalues :: c'.capture = f c.upvalues :: c.capture := by
      rw [← hstep.2.1, hnone]
    rw [(List.cons.inj hcap).2]
  · rw [hstep.2.1] at h₃
    exact Captured.congr_head rfl h₃

end

/-! ### The compiler's account of the declarations -/

/-- The functions around a point of the program, the current one first. -/
def NameState.functions (n : NameState) : List Enclosing :=
  { scope := n.scope, upvalues := n.upvalues, varargInfo := none } :: n.capture

/-- What the frames and the table of globals say when a name refers to this. -/
def Refers (fs : List Enclosing) (g : GlobalEnv) (name : Name) : Option Referent → Prop
  | some (Referent.variable attr) => BoundAs fs name attr
  | some (Referent.global kind) =>
      kindIn fs name = some VarKind.global ∧ g.decls.lookup name = some kind
  | none => kindIn fs name = none ∧ name ≠ envName ∧ g.decls.lookup name = none

/-- What happens to the names without a declaration. -/
def policy (ds : Declarations) : DefaultPolicy :=
  match ds.findSome? Declaration.collectiveKind with
  | some kind => DefaultPolicy.star kind
  | none => if ds.any Declaration.isList then DefaultPolicy.none else DefaultPolicy.preamble

/-- The compiler's account agrees with the declarations in force. -/
structure Accounts (ds : Declarations) (n : NameState) : Prop where
  scope : n.scope ≠ []
  captured : Captured n.functions
  refers : ∀ name, Refers n.functions n.globals name (ds.nearest name)
  default : n.globals.default = policy ds

section

variable {ds : Declarations} {n : NameState} {name : Name}

theorem Refers.congr {fs fs' : List Enclosing} {g g' : GlobalEnv} {r : Option Referent}
    (hk : kindIn fs name = kindIn fs' name) (hg : g.decls.lookup name = g'.decls.lookup name)
    (h : Refers fs g name r) : Refers fs' g' name r := by
  rcases r with _ | attr | kind
  · exact ⟨hk ▸ h.1, h.2.1, hg ▸ h.2.2⟩
  · unfold Refers BoundAs at h ⊢
    rw [← hk]
    exact h
  · exact ⟨hk ▸ h.1, hg ▸ h.2⟩

theorem kindIn_functions_of_some {data : VariableData}
    (h : resolveLocalIn n.scope name = some data) :
    kindIn n.functions name = some data.kind := kindIn_cons_of_some h

theorem kindIn_functions_of_none (h : resolveLocalIn n.scope name = none) :
    kindIn n.functions name = kindIn n.capture name := kindIn_cons_of_none h

theorem resolveLocalIn_cons (entry : Name × VariableData) (frame : Scope) (rest : List Scope)
    (name : Name) :
    resolveLocalIn ((entry :: frame) :: rest) name =
      if name = entry.1 then some entry.2 else resolveLocalIn (frame :: rest) name := by
  unfold resolveLocalIn
  by_cases h : name = entry.1
  · obtain ⟨n, d⟩ := entry
    obtain rfl := h
    simp
  · obtain ⟨n, d⟩ := entry
    have hne : (name == n) = false := by simpa using h
    simp [List.findSome?_cons, List.lookup_cons, hne, h]

/-- The frame with the markers of some declared globals. -/
theorem resolveLocalIn_markers (targets : List (Name × GlobalKind)) (frame : Scope)
    (rest : List Scope) (name : Name) :
    resolveLocalIn
        (((targets.map fun t => (t.1, { register := 0, kind := VarKind.global })).reverse ++
          frame) ::
          rest) name =
      if (targets.reverse.lookup name).isSome then
        some { register := 0, kind := VarKind.global }
      else resolveLocalIn (frame :: rest) name := by
  rw [← List.map_reverse]
  induction targets.reverse with
  | nil => simp
  | cons t ts ih =>
      rw [List.map_cons, List.cons_append, resolveLocalIn_cons, ih, List.lookup_cons]
      by_cases h : name = t.1
      · have hb : (name == t.1) = true := by simpa using h
        simp [h]
      · have hb : (name == t.1) = false := by simpa using h
        rw [if_neg h, hb]

/-- A lookup in two tables, one behind the other. -/
theorem lookup_append (decls decls' : List (Name × GlobalKind)) (name : Name) :
    (decls ++ decls').lookup name = (decls.lookup name).or (decls'.lookup name) := by
  induction decls with
  | nil => rfl
  | cons d decls ih =>
      rw [List.cons_append, List.lookup_cons, List.lookup_cons, ih]
      cases name == d.1 <;> rfl

/-! ### The account survives -/

theorem resolveOrCapture_same {c c' : Ctx} {r : Option ResolvedName}
    (h : resolveOrCapture name c = Except.ok (r, c')) :
    c'.names.scope = c.names.scope ∧ c'.names.globals = c.names.globals := by
  rcases resolveOrCapture_eq_ok h with
    ⟨i, -, -, rfl⟩ | ⟨-, ⟨-, -, rfl⟩ | ⟨v, -, -, rfl⟩ | ⟨desc, -, -, rfl⟩⟩
  all_goals exact ⟨rfl, rfl⟩

theorem Accounts.of_functions {ds' : Declarations} {n' : NameState} (h : Accounts ds n)
    (hscope : n'.scope ≠ []) (hcaptured : Captured n'.functions)
    (hkind : ∀ name, kindIn n.functions name = kindIn n'.functions name)
    (hglobals : n'.globals = n.globals) (hnearest : ds'.nearest = ds.nearest)
    (hpolicy : policy ds' = policy ds) : Accounts ds' n' where
  scope := hscope
  captured := hcaptured
  refers name := by
    rw [hnearest, hglobals]
    exact (h.refers name).congr (hkind name) rfl
  default := by rw [hglobals, hpolicy, h.default]

theorem kindIn_functions_congr {n' : NameState} (hs : n'.scope = n.scope)
    (hc : CapturesMore n.capture n'.capture) (name : Name) :
    kindIn n.functions name = kindIn n'.functions name := by
  refine kindIn_congr ?_ name
  rw [NameState.functions, NameState.functions, List.map_cons, List.map_cons, hs, hc.scopes]

theorem Accounts.declare {attr : LocalAttr} {data : VariableData} {frame : Scope}
    {rest : List Scope} (h : Accounts ds n) (hk : attr.Binds data.kind)
    (hs : n.scope = frame :: rest) :
    Accounts (Declaration.variable name attr :: ds)
      { n with scope := ((name, data) :: frame) :: rest } := by
  refine ⟨by simp, Captured.congr_head rfl h.captured, fun other => ?_, h.default⟩
  have hlocal : resolveLocalIn (((name, data) :: frame) :: rest) other =
      if other = name then some data else resolveLocalIn n.scope other := by
    rw [resolveLocalIn_cons, hs]
  rw [Declarations.nearest, List.findSome?_cons, Declaration.explicit]
  by_cases hn : name = other
  · rw [if_pos hn]
    rw [if_pos hn.symm] at hlocal
    exact Or.inl ⟨data.kind, kindIn_cons_of_some hlocal, hk⟩
  · rw [if_neg hn]
    rw [if_neg fun he => hn he.symm] at hlocal
    refine (h.refers other).congr ?_ rfl
    simp only [kindIn, NameState.functions, List.findSome?_cons, hlocal]

theorem Accounts.declareGlobals {frame : Scope} {rest : List Scope} (h : Accounts ds n)
    (hs : n.scope = frame :: rest) (targets : List (Name × GlobalKind)) :
    Accounts (Declaration.globals targets :: ds)
      { n with
        scope :=
          ((targets.map fun t => (t.1, { register := 0, kind := VarKind.global })).reverse ++
            frame) :: rest
        globals :=
          { n.globals.voidPreamble with decls := targets.reverse ++ n.globals.decls } } := by
  refine ⟨by simp, Captured.congr_head rfl h.captured, fun other => ?_, ?_⟩
  · have hlocal := resolveLocalIn_markers targets frame rest other
    rw [← hs] at hlocal
    rw [Declarations.nearest, List.findSome?_cons, Declaration.explicit]
    cases hl : targets.reverse.lookup other with
    | some kind =>
        rw [hl, Option.isSome_some, if_pos rfl] at hlocal
        refine ⟨by rw [NameState.functions, kindIn_cons_of_some hlocal], ?_⟩
        simp only [lookup_append, hl, Option.or]
    | none =>
        rw [hl] at hlocal
        refine (h.refers other).congr ?_ ?_
        · simp only [kindIn, NameState.functions, List.findSome?_cons, hlocal]
          rfl
        · simp only [lookup_append, hl, Option.or]
  · have hd := h.default
    have hp : policy (Declaration.globals targets :: ds) =
        match ds.findSome? Declaration.collectiveKind with
        | some kind => DefaultPolicy.star kind
        | none => DefaultPolicy.none := rfl
    rw [hp]
    unfold policy at hd
    unfold GlobalEnv.voidPreamble
    cases hf : ds.findSome? Declaration.collectiveKind with
    | some kind => simp [hd, hf]
    | none =>
        rw [hf] at hd
        dsimp only at hd ⊢
        cases hany : ds.any Declaration.isList with
        | true =>
            rw [hany, if_pos rfl] at hd
            simp [hd]
        | false =>
            rw [hany, if_neg (by simp)] at hd
            simp [hd]

theorem Accounts.declareCollective {kind : GlobalKind} (h : Accounts ds n) :
    Accounts (Declaration.collective kind :: ds)
      { n with globals := { n.globals with default := DefaultPolicy.star kind } } :=
  ⟨h.scope, h.captured, fun name => (h.refers name).congr rfl rfl, rfl⟩

/-- **The invariant**: the compiler's account agrees with the declarations in force. -/
def manualScoping : Scoping where
  Holds := Accounts
  nonempty h := h.scope
  resolve {ds name r c c'} h hr :=
    have hsame := resolveOrCapture_same hr
    h.of_functions (by rw [hsame.1]; exact h.scope)
      (Captured.congr_head rfl (resolveOrCapture_spec h.captured hr).2.2)
      (kindIn_functions_congr hsame.1 (within_resolveOrCapture hr).capture) hsame.2 rfl rfl
  enter h := h.of_functions (by simp) (Captured.congr_head rfl h.captured)
    (fun _ => rfl) rfl rfl rfl
  leave {ds ds' n n'} h h' hup hcap :=
    h.of_functions h.scope (Captured.congr_head rfl h'.captured)
      (kindIn_functions_congr rfl hcap) rfl rfl rfl
  declare h hk hs := h.declare hk hs
  declareGlobals targets h hs := h.declareGlobals hs targets
  declareCollective h := h.declareCollective
  call info h :=
    h.of_functions (by simp)
      ⟨fun u hu => absurd hu List.not_mem_nil, fun he => absurd he (by simp),
        Captured.congr_head rfl h.captured⟩ (fun _ => rfl) rfl rfl rfl
  ret {ds ds' n n' f capture} h h' hcap hs hu hmore := by
    have hcaptured : Captured (f :: capture) := by
      have := h'.captured.2.2
      rwa [hcap] at this
    exact h.of_functions h.scope (Captured.congr_head rfl hcaptured)
      (kindIn_functions_congr rfl hmore) rfl rfl rfl

end

/-! ### The uses of names -/

section

variable {S : Scoping} {ds : Declarations} {name : Name} {dst : Option ℕ}

/-- Reading a name keeps every invariant. -/
theorem Scoping.alike_readGlobal :
    S.Alike ds ds (readGlobal name dst) (readGlobal name dst) := by
  refine Scoping.Alike.before obeys_get fun c => Scoping.Alike.ite ?_ ?_
  · exact Scoping.Alike.throw _
  · refine Scoping.Alike.before (internal_allocFieldKey _) fun _ => ?_
    refine Scoping.Alike.before (obeys_dstOrAlloc _) fun _ => ?_
    exact Scoping.Alike.after Scoping.alike_resolveEnvUpvalue fun _ =>
      Obeys.bind (internal_emit _) fun _ => Obeys.pure _

theorem Scoping.alike_compileExprIdent :
    S.Alike ds ds (compileExprIdent name dst) (compileExprIdent name dst) := by
  refine Scoping.Alike.before (obeys_resolveLocal _) fun r => ?_
  cases r with
  | some data =>
      obtain ⟨reg, kind⟩ := data
      cases kind with
      | const v => cases v <;> exact Scoping.Alike.pure _
      | varargParam =>
          exact Scoping.Alike.internal
            (Obeys.bind (internal_modifyChunk _) fun _ => Obeys.pure _)
      | global => exact Scoping.alike_readGlobal
      | reg => exact Scoping.Alike.pure _
      | toClose => exact Scoping.Alike.pure _
  | none =>
      refine Scoping.Alike.bind (Scoping.alike_resolveOrCapture _) fun r => ?_
      rcases r with _ | v | idx
      · exact Scoping.alike_readGlobal
      · exact Scoping.Alike.pure _
      · exact Scoping.Alike.internal (Obeys.bind (obeys_dstOrAlloc _) fun _ =>
          Obeys.bind (internal_emit _) fun _ => Obeys.pure _)

theorem Scoping.alike_globalLvalue (name : Name) :
    S.Alike ds ds
      (do
        checkGlobalWrite (← get).globals name
        let (key, icIdx) ← allocFieldKey name
        let envIdx ← resolveEnvUpvalue
        return Lvalue.global envIdx key icIdx)
      (do
        checkGlobalWrite (← get).globals name
        let (key, icIdx) ← allocFieldKey name
        let envIdx ← resolveEnvUpvalue
        return Lvalue.global envIdx key icIdx) := by
  refine Scoping.Alike.before obeys_get fun c => ?_
  refine Scoping.Alike.before (obeys_checkGlobalWrite _ _) fun _ => ?_
  refine Scoping.Alike.before (internal_allocFieldKey _) fun _ => ?_
  exact Scoping.Alike.after Scoping.alike_resolveEnvUpvalue fun _ => Obeys.pure _

/-- So does resolving a name as the target of an assignment. -/
theorem Scoping.alike_identLvalue : S.Alike ds ds (identLvalue name) (identLvalue name) := by
  have hlocal : ∀ d : VariableData, S.Alike ds ds
      (if d.kind.isConst then ice "assignment to const variable"
        else return Lvalue.local d.register)
      (if d.kind.isConst then ice "assignment to const variable"
        else return Lvalue.local d.register) :=
    fun d => Scoping.Alike.ite (Scoping.Alike.throw _) (Scoping.Alike.pure _)
  refine Scoping.Alike.before (obeys_resolveLocal _) fun r => ?_
  cases r with
  | some data =>
      obtain ⟨reg, kind⟩ := data
      cases kind with
      | global => exact Scoping.alike_globalLvalue name
      | const v => exact hlocal _
      | varargParam => exact hlocal _
      | reg => exact hlocal _
      | toClose => exact hlocal _
  | none =>
      refine Scoping.Alike.bind (Scoping.alike_resolveOrCapture _) fun r => ?_
      rcases r with _ | v | idx
      · exact Scoping.alike_globalLvalue name
      · exact Scoping.Alike.throw _
      · exact Scoping.Alike.pure _

end

/-! ### The compiler follows the manual -/

section

variable {ds : Declarations} {c : Ctx} {name : Name}

theorem resolveLocal_apply (name : Name) (c : Ctx) :
    resolveLocal name c = Except.ok (resolveLocalIn c.scope name, c) := rfl

/-- A name resolves, or not. -/
theorem exists_resolveOrCapture (name : Name) (c : Ctx) :
    ∃ r c', resolveOrCapture name c = Except.ok (r, c') := by
  have hget : (get : CompileM Ctx) c = Except.ok (c, c) := rfl
  unfold resolveOrCapture
  rw [bind_of_eq hget]
  cases upvalueIndex c.upvalues name with
  | some i => exact ⟨_, _, rfl⟩
  | none =>
      dsimp only
      generalize resolveForChild name c.capture = r
      rcases r with ⟨_ | v | desc, capture⟩
      all_goals exact ⟨_, _, rfl⟩

/-- A name that the functions around do not have is not resolved. -/
theorem resolveOrCapture_of_not_bound (h : Accounts ds c.names) (hb : ¬ Bound c.capture name) :
    resolveOrCapture name c = Except.ok (none, c) := by
  obtain ⟨r, c', hr⟩ := exists_resolveOrCapture name c
  obtain ⟨rfl, rfl⟩ := (resolveOrCapture_spec h.captured hr).2.1 hb
  exact hr

/-- A variable is a local of this function, or resolved among the functions around. -/
theorem resolved_of_bound (h : Accounts ds c.names) (hb : Bound c.names.functions name) :
    (∃ reg k, resolveLocalIn c.scope name = some { register := reg, kind := k } ∧
      k ≠ VarKind.global) ∨
    resolveLocalIn c.scope name = none ∧
      ∃ r c', resolveOrCapture name c = Except.ok (some r, c') := by
  cases hl : resolveLocalIn c.scope name with
  | some data =>
      have hkind := kindIn_functions_of_some (n := c.names) hl
      exact Or.inl ⟨data.register, data.kind, rfl, fun hk =>
        absurd hb (not_bound_of_global (hkind.trans (congrArg some hk)))⟩
  | none =>
      have hb : Bound c.capture name := by
        rwa [Bound, kindIn_functions_of_none (n := c.names) hl, ← Bound] at hb
      obtain ⟨r, c', hr⟩ := exists_resolveOrCapture name c
      obtain ⟨r, rfl⟩ := Option.ne_none_iff_exists'.1 ((resolveOrCapture_spec h.captured hr).1 hb)
      exact Or.inr ⟨rfl, r, c', hr⟩

theorem covering_of_nearest {r : Referent} (h : ds.nearest name = some r) :
    ds.covering name = some r := by
  rw [Declarations.covering, h]

/-- A global that is declared is a field of `_ENV`. -/
theorem readGlobal_of_declared {kind : GlobalKind} (dst : Option ℕ)
    (h : c.globals.decls.lookup name = some kind) :
    readGlobal name dst c = readEnvField name dst c := by
  have hget : (get : CompileM Ctx) c = Except.ok (c, c) := rfl
  unfold readGlobal
  rw [bind_of_eq hget, h]
  rfl

/-- A name without a declaration is a field of `_ENV`, or is rejected. -/
theorem readGlobal_of_free (dst : Option ℕ) (h : Accounts ds c.names)
    (hn : ds.nearest name = none) :
    readGlobal name dst c = manualRules.read ds name dst c := by
  have hget : (get : CompileM Ctx) c = Except.ok (c, c) := rfl
  have hrefers := h.refers name
  have hdefault : c.globals.default = policy ds := h.default
  rw [hn] at hrefers
  have hlookup : c.globals.decls.lookup name = none := hrefers.2.2
  have hcover : ds.covering name = ds.implicitKind.map Referent.global := by
    rw [Declarations.covering, hn]
  unfold readGlobal
  dsimp only [manualRules]
  rw [bind_of_eq hget, hlookup, hdefault, hcover]
  unfold policy Declarations.implicitKind
  cases ds.findSome? Declaration.collectiveKind with
  | some kind => rfl
  | none =>
      cases ds.any Declaration.isList with
      | true => rfl
      | false => rfl

/-- A name is read by the rules of the manual. -/
theorem compileExprIdent_manual (dst : Option ℕ) (h : Accounts ds c.names) :
    compileExprIdent name dst c = manualRules.read ds name dst c := by
  have hrefers := h.refers name
  cases hn : ds.nearest name with
  | none =>
      rw [hn] at hrefers
      obtain ⟨hkind, hne, -⟩ := hrefers
      rw [← readGlobal_of_free dst h hn]
      unfold compileExprIdent
      rw [bind_of_eq (resolveLocal_apply name c)]
      cases hl : resolveLocalIn c.scope name with
      | some data =>
          rw [kindIn_functions_of_some (n := c.names) hl] at hkind
          exact absurd hkind (by simp)
      | none =>
          rw [kindIn_functions_of_none (n := c.names) hl] at hkind
          dsimp only
          unfold readFree
          rw [bind_of_eq (resolveOrCapture_of_not_bound h (not_bound_of_none hkind hne))]
  | some r =>
      rw [hn] at hrefers
      dsimp only [manualRules]
      rw [covering_of_nearest hn]
      cases r with
      | global kind =>
          obtain ⟨hkind, hlookup⟩ := hrefers
          have hlookup : c.globals.decls.lookup name = some kind := hlookup
          dsimp only
          rw [← readGlobal_of_declared dst hlookup]
          unfold compileExprIdent
          rw [bind_of_eq (resolveLocal_apply name c)]
          cases hl : resolveLocalIn c.scope name with
          | some data =>
              rw [kindIn_functions_of_some (n := c.names) hl] at hkind
              obtain ⟨reg, k⟩ := data
              obtain rfl := Option.some.inj hkind
              rfl
          | none =>
              rw [kindIn_functions_of_none (n := c.names) hl] at hkind
              dsimp only
              unfold readFree
              rw [bind_of_eq (resolveOrCapture_of_not_bound h (not_bound_of_global hkind))]
      | «variable» attr =>
          dsimp only
          unfold readVariable
          rw [bind_of_eq (resolveLocal_apply name c)]
          rcases resolved_of_bound h hrefers.bound with ⟨reg, k, hl, hk⟩ | ⟨hl, r, c', hr⟩
          · rw [hl]
            cases k with
            | global => exact absurd rfl hk
            | _ => rfl
          · unfold compileExprIdent
            rw [bind_of_eq (resolveLocal_apply name c), hl]
            dsimp only
            unfold readFree
            rw [bind_of_eq hr, bind_of_eq hr]
            cases r <;> rfl

/-- A name is written by the rules of the manual. -/
theorem identLvalue_manual (h : Accounts ds c.names) :
    identLvalue name c = manualRules.write ds name c := by
  have hget : (get : CompileM Ctx) c = Except.ok (c, c) := rfl
  have hrefers := h.refers name
  -- a name that is no variable is checked against the table of globals
  have hglobal : kindIn c.names.functions name = some VarKind.global ∨
      (kindIn c.names.functions name = none ∧ name ≠ envName) →
      identLvalue name c = (checkGlobalWrite c.globals name >>=
        fun _ => envFieldLvalue name) c := by
    intro hk
    unfold identLvalue
    rw [bind_of_eq (resolveLocal_apply name c)]
    cases hl : resolveLocalIn c.scope name with
    | some data =>
        rw [kindIn_functions_of_some (n := c.names) hl] at hk
        obtain ⟨reg, k⟩ := data
        rcases hk with hk | ⟨hk, -⟩
        · obtain rfl := Option.some.inj hk
          rfl
        · exact absurd hk (by simp)
    | none =>
        rw [kindIn_functions_of_none (n := c.names) hl] at hk
        have hb : ¬ Bound c.capture name := by
          rcases hk with hk | ⟨hk, hne⟩
          · exact not_bound_of_global hk
          · exact not_bound_of_none hk hne
        show (resolveOrCapture name >>= _) c = _
        rw [bind_of_eq (resolveOrCapture_of_not_bound h hb)]
        rfl
  cases hn : ds.nearest name with
  | none =>
      rw [hn] at hrefers
      obtain ⟨hkind, hne, hlookup⟩ := hrefers
      have hlookup : c.globals.decls.lookup name = none := hlookup
      have hdefault : c.globals.default = policy ds := h.default
      have hcover : ds.covering name = ds.implicitKind.map Referent.global := by
        rw [Declarations.covering, hn]
      rw [hglobal (Or.inr ⟨hkind, hne⟩)]
      dsimp only [manualRules]
      unfold checkGlobalWrite
      rw [hlookup, hdefault, hcover]
      unfold policy Declarations.implicitKind
      cases ds.findSome? Declaration.collectiveKind with
      | some kind => cases kind <;> rfl
      | none => cases ds.any Declaration.isList <;> rfl
  | some r =>
      rw [hn] at hrefers
      dsimp only [manualRules]
      rw [covering_of_nearest hn]
      cases r with
      | global kind =>
          obtain ⟨hkind, hlookup⟩ := hrefers
          have hlookup : c.globals.decls.lookup name = some kind := hlookup
          rw [hglobal (Or.inl hkind)]
          unfold checkGlobalWrite
          rw [hlookup]
          cases kind <;> rfl
      | «variable» attr =>
          unfold identLvalue
          dsimp only
          unfold variableLvalue
          rw [bind_of_eq (resolveLocal_apply name c), bind_of_eq (resolveLocal_apply name c)]
          rcases resolved_of_bound h hrefers.bound with ⟨reg, k, hl, hk⟩ | ⟨hl, r, c', hr⟩
          · rw [hl]
            cases k with
            | global => exact absurd rfl hk
            | _ => rfl
          · rw [hl]
            show (resolveOrCapture name >>= _) c = (resolveOrCapture name >>= _) c
            rw [bind_of_eq hr, bind_of_eq hr]
            cases r <;> rfl

/-- The register of the named vararg is used when the name is that parameter. -/
theorem resolveVarargBase_manual (h : Accounts ds c.names) (e : Expr) :
    resolveVarargBase c.scope e = manualRules.varargBase ds c.scope e := by
  cases e with
  | ident name =>
      dsimp only [manualRules]
      split
      · rfl
      · rename_i hne
        have hrefers := h.refers name
        cases hl : resolveLocalIn c.scope name with
        | none => simp [resolveVarargBase, hl]
        | some data =>
            have hkind := kindIn_functions_of_some (n := c.names) hl
            obtain ⟨reg, k⟩ := data
            rcases hn : ds.nearest name with _ | _ | kind
            · rw [hn] at hrefers
              exact absurd (hkind.symm.trans hrefers.1) (by simp)
            · exact absurd hn (hne _)
            · rw [hn] at hrefers
              obtain rfl := Option.some.inj (hkind.symm.trans hrefers.1)
              simp [resolveVarargBase, hl]
  | _ => rfl

end

/-- The compiler uses names by the rules of the manual. -/
theorem follows_manualRules : manualScoping.Follows manualRules where
  read _ _ dst c hc :=
    ⟨compileExprIdent_manual dst hc, (Scoping.alike_compileExprIdent c hc).2⟩
  write _ _ c hc := ⟨identLvalue_manual hc, (Scoping.alike_identLvalue c hc).2⟩
  varargBase h e := resolveVarargBase_manual h e

theorem accounts_chunk : Accounts Declarations.chunk
    { scope := [[]], globals := GlobalEnv.new,
      upvalues := [(envName, UpValueDescriptor.parentLocal 0)], capture := [] } where
  scope := by simp
  captured := by
    refine ⟨fun u hu => ?_, fun _ => ⟨_, List.mem_cons_self, rfl⟩, trivial⟩
    obtain rfl := List.mem_singleton.1 hu
    exact Or.inr ⟨rfl, rfl⟩
  refers name := by
    by_cases h : envName = name
    · have hn : Declarations.chunk.nearest name = some (Referent.variable LocalAttr.plain) := by
        simp [Declarations.nearest, Declarations.chunk, Declaration.explicit, h]
      rw [hn]
      exact Or.inr ⟨rfl, h.symm, rfl⟩
    · have hn : Declarations.chunk.nearest name = none := by
        simp [Declarations.nearest, Declarations.chunk, Declaration.explicit, h]
      rw [hn]
      exact ⟨rfl, fun he => h he.symm, rfl⟩
  default := rfl

/-! ### Rejections -/

/-- A fault that rejects the use of a name. -/
def Fault.rejects : Fault → Bool
  | Fault.error (CompileError.undeclaredGlobal _) => true
  | Fault.error (CompileError.constGlobalAssign _) => true
  | _ => false

/-- The step rejects no name. -/
def Accepts {α : Type} (m : CompileM α) : Prop := FailsIn (fun e => e.rejects = false) m

section

variable {ds : Declarations} {c : Ctx} {name other : Name} {dst : Option ℕ}

theorem Accepts.of_ok {α : Type} {m : CompileM α} (h : ∀ c, ∃ p, m c = Except.ok p) :
    Accepts m := by
  intro c e he
  obtain ⟨p, hp⟩ := h c
  rw [hp] at he
  exact absurd he (by simp)

theorem accepts_getChunk : Accepts getChunk := Accepts.of_ok fun _ => ⟨_, rfl⟩

theorem accepts_modifyChunk (f : Chunk → Chunk) : Accepts (modifyChunk f) :=
  Accepts.of_ok fun _ => ⟨_, rfl⟩

theorem accepts_resolveLocal : Accepts (resolveLocal name) := Accepts.of_ok fun _ => ⟨_, rfl⟩

theorem accepts_resolveOrCapture : Accepts (resolveOrCapture name) :=
  Accepts.of_ok fun c =>
    let ⟨_, _, hr⟩ := exists_resolveOrCapture name c
    ⟨_, hr⟩

theorem accepts_resolveEnvUpvalue : Accepts resolveEnvUpvalue := by
  refine FailsIn.bind accepts_resolveOrCapture fun r => ?_
  rcases r with _ | v | idx
  · exact FailsIn.throw rfl
  · exact FailsIn.throw rfl
  · exact FailsIn.pure _

theorem accepts_addU8 (a b : ℕ) : Accepts (addU8 a b) :=
  FailsIn.ite (FailsIn.pure _) (FailsIn.throw rfl)

theorem accepts_dstOrAlloc (dst : Option ℕ) : Accepts (dstOrAlloc dst) := by
  cases dst with
  | some reg =>
      refine FailsIn.bind accepts_getChunk fun c => FailsIn.ite ?_ (FailsIn.pure _)
      exact FailsIn.bind (accepts_addU8 _ _) fun _ =>
        FailsIn.bind (accepts_modifyChunk _) fun _ => FailsIn.pure _
  | none =>
      refine FailsIn.bind accepts_getChunk fun c => FailsIn.bind ?_ fun _ => FailsIn.ite ?_ ?_
      · exact FailsIn.ite (FailsIn.pure _) (FailsIn.throw rfl)
      · exact FailsIn.throw rfl
      · exact FailsIn.bind (accepts_modifyChunk _) fun _ => FailsIn.pure _

theorem accepts_allocFieldKey (s : LuaString) : Accepts (allocFieldKey s) := by
  have hconstant : Accepts (allocConstant (Value.string s)) := by
    refine FailsIn.bind accepts_getChunk fun c => ?_
    cases c.constants.findIdx? (· = Value.string s) with
    | some idx => exact FailsIn.pure _
    | none =>
        refine FailsIn.ite (FailsIn.throw rfl) ?_
        exact FailsIn.bind (accepts_modifyChunk _) fun _ => FailsIn.pure _
  refine FailsIn.bind hconstant fun idx => FailsIn.bind ?_ fun ic => FailsIn.pure _
  exact FailsIn.bind accepts_getChunk fun c =>
    FailsIn.bind (accepts_modifyChunk _) fun _ => FailsIn.pure _

theorem accepts_readEnvField : Accepts (readEnvField name dst) := by
  refine FailsIn.bind (accepts_allocFieldKey _) fun key => ?_
  refine FailsIn.bind (accepts_dstOrAlloc _) fun dst => ?_
  refine FailsIn.bind accepts_resolveEnvUpvalue fun envIdx => ?_
  exact FailsIn.bind (accepts_modifyChunk _) fun _ => FailsIn.pure _

theorem accepts_envFieldLvalue : Accepts (envFieldLvalue name) :=
  FailsIn.bind (accepts_allocFieldKey _) fun _ =>
    FailsIn.bind accepts_resolveEnvUpvalue fun _ => FailsIn.pure _

theorem accepts_readVariable : Accepts (readVariable name dst) := by
  intro c e h
  unfold readVariable at h
  rw [bind_of_eq (resolveLocal_apply name c)] at h
  cases hl : resolveLocalIn c.scope name with
  | some data =>
      rw [hl] at h
      obtain ⟨reg, kind⟩ := data
      -- a variable of the function itself is a register or a constant
      have hread : kind ≠ VarKind.global → ∃ p, compileExprIdent name dst c = Except.ok p := by
        intro hk
        unfold compileExprIdent
        rw [bind_of_eq (resolveLocal_apply name c), hl]
        cases kind with
        | const v => cases v <;> exact ⟨_, rfl⟩
        | global => exact absurd rfl hk
        | _ => exact ⟨_, rfl⟩
      cases kind with
      | global =>
          obtain rfl := Except.error.inj (h : Except.error Fault.panic = Except.error e)
          rfl
      | _ =>
          obtain ⟨p, hp⟩ := hread (by simp)
          exact absurd (hp.symm.trans h) (by simp)
  | none =>
      rw [hl] at h
      refine FailsIn.bind accepts_resolveOrCapture (fun r => ?_) c e h
      rcases r with _ | v | idx
      · exact FailsIn.throw rfl
      · exact FailsIn.pure _
      · exact FailsIn.bind (accepts_dstOrAlloc _) fun _ =>
          FailsIn.bind (accepts_modifyChunk _) fun _ => FailsIn.pure _

theorem accepts_variableLvalue : Accepts (variableLvalue name) := by
  refine FailsIn.bind accepts_resolveLocal fun r => ?_
  cases r with
  | some data =>
      refine FailsIn.ite (FailsIn.throw rfl) (FailsIn.ite (FailsIn.throw rfl) (FailsIn.pure _))
  | none =>
      refine FailsIn.bind accepts_resolveOrCapture fun r => ?_
      rcases r with _ | v | idx
      · exact FailsIn.throw rfl
      · exact FailsIn.throw rfl
      · exact FailsIn.pure _

/-- A use is rejected exactly when nothing covers the name. -/
theorem read_rejects_iff :
    manualRules.read ds name dst c =
      Except.error (Fault.error (CompileError.undeclaredGlobal other)) ↔
      other = name ∧ ds.covering name = none := by
  dsimp only [manualRules]
  rcases hcover : ds.covering name with _ | _ | kind
  · constructor
    · intro h
      have h : CompileError.undeclaredGlobal name = CompileError.undeclaredGlobal other :=
        Fault.error.inj (Except.error.inj h)
      exact ⟨(CompileError.undeclaredGlobal.inj h).symm, rfl⟩
    · rintro ⟨rfl, -⟩
      rfl
  · refine ⟨fun h => ?_, fun h => absurd h.2 (by simp)⟩
    exact absurd (accepts_readVariable c _ h) (by simp [Fault.rejects])
  · refine ⟨fun h => ?_, fun h => absurd h.2 (by simp)⟩
    exact absurd (accepts_readEnvField c _ h) (by simp [Fault.rejects])

/-- An assignment is rejected exactly when nothing covers the name, or a read-only global does. -/
theorem write_rejects_iff {e : CompileError} (he : (Fault.error e).rejects = true) :
    manualRules.write ds name c = Except.error (Fault.error e) ↔
      (e = CompileError.undeclaredGlobal name ∧ ds.covering name = none) ∨
        (e = CompileError.constGlobalAssign name ∧
          ds.covering name = some (Referent.global GlobalKind.const)) := by
  dsimp only [manualRules]
  have herr : ∀ e' : CompileError, (err e' : CompileM Lvalue) c = Except.error (Fault.error e) ↔
      e = e' := fun e' =>
    ⟨fun h => (Fault.error.inj (Except.error.inj h)).symm, fun h => by rw [h]; rfl⟩
  rcases hcover : ds.covering name with _ | _ | kind
  · rw [herr]
    simp
  · refine ⟨fun h => ?_, fun h => by simp at h⟩
    exact absurd (accepts_variableLvalue c _ h) (by simp [he])
  · cases kind with
    | const =>
        rw [herr]
        simp
    | reg =>
        refine ⟨fun h => ?_, fun h => by simp at h⟩
        exact absurd (accepts_envFieldLvalue c _ h) (by simp [he])

end

/-- **The compiler follows the manual**: on every program it does the same as the compiler that
decides each use of a name by the declarations in force, and that compiler rejects exactly the uses
that nothing covers and the assignments to read-only globals. -/
theorem compile_global_scoping (num : NumOps) (block : List Stmt) :
    compileMain num block = manualRules.main num block ∧
      (∀ (ds : Declarations) (name : Name) (dst : Option ℕ) (c : Ctx) (other : Name),
        manualRules.read ds name dst c =
            Except.error (Fault.error (CompileError.undeclaredGlobal other)) ↔
          other = name ∧ ds.covering name = none) ∧
      (∀ (ds : Declarations) (name : Name) (c : Ctx) (other : Name),
        manualRules.write ds name c =
            Except.error (Fault.error (CompileError.undeclaredGlobal other)) ↔
          other = name ∧ ds.covering name = none) ∧
      ∀ (ds : Declarations) (name : Name) (c : Ctx) (other : Name),
        manualRules.write ds name c =
            Except.error (Fault.error (CompileError.constGlobalAssign other)) ↔
          other = name ∧ ds.covering name = some (Referent.global GlobalKind.const) := by
  refine ⟨Scoping.compileMain_eq follows_manualRules accounts_chunk num block, ?_, ?_, ?_⟩
  · exact fun ds name dst c other => read_rejects_iff
  · intro ds name c other
    rw [write_rejects_iff rfl]
    simp
  · intro ds name c other
    rw [write_rejects_iff rfl]
    simp

end Tcvm
