/-
The access sites of a program.

An access site is a place whose instruction has an inline cache: a name that refers to a global,
read or written, a field with a constant name, read or written or given in a table constructor, and
the initialisation of a declared global.  What a name refers to is what the declarations in force
say; of the named vararg of a function the fields are no access sites where they are read.

* `NameEnv` — the declarations in force with the named vararg;
* `Sites` — the access sites of a function and of those nested in it;
* `NameEnv.exprSites`, `NameEnv.stmtSites`, … — by recursion on the syntax;
* `accessCounts` — **the access sites of each function of a program**.
-/

import Tcvm.CompilerRules
import Tcvm.Declarations

namespace Tcvm

/-! ### The declarations in force -/

namespace Declarations

variable {ds : Declarations} {name other : Name} {attr : LocalAttr}

theorem nearest_variable :
    nearest (Declaration.variable name attr :: ds) name = some (Referent.variable attr) := by
  rw [nearest, List.findSome?_cons, Declaration.explicit, if_pos rfl]

theorem nearest_variable_of_ne (h : name ≠ other) :
    nearest (Declaration.variable name attr :: ds) other = nearest ds other := by
  rw [nearest, List.findSome?_cons, Declaration.explicit, if_neg h]
  rfl

theorem nearest_globals_of_not_mem {targets : List (Name × GlobalKind)}
    (h : other ∉ targets.map Prod.fst) :
    nearest (Declaration.globals targets :: ds) other = nearest ds other := by
  have hnone : targets.reverse.lookup other = none := by
    rw [List.lookup_eq_none_iff]
    intro p hp
    refine bne_iff_ne.2 ?_
    rintro rfl
    exact h (List.mem_map_of_mem (List.mem_reverse.1 hp))
  rw [nearest, List.findSome?_cons, Declaration.explicit, hnone]
  rfl

end Declarations

/-- Declarations of these names may hide the named vararg. -/
def hide (vararg : Option Name) (names : List Name) : Option Name :=
  vararg.filter fun v => !names.contains v

theorem hide_eq_some {vararg : Option Name} {names : List Name} {v : Name} :
    hide vararg names = some v ↔ vararg = some v ∧ v ∉ names := by
  simp [hide, Option.filter_eq_some_iff]

theorem hide_nil (vararg : Option Name) : hide vararg [] = vararg := by
  cases vararg <;> rfl

theorem hide_cons (vararg : Option Name) (name : Name) (names : List Name) :
    hide vararg (name :: names) = hide (hide vararg [name]) names := by
  refine Option.ext fun v => ?_
  rw [hide_eq_some, hide_eq_some, hide_eq_some, List.mem_cons, List.mem_singleton, not_or,
    and_assoc]

/-- The declarations in force, with the named vararg of the function where its name is in force. -/
structure NameEnv where
  ds : Declarations
  vararg : Option Name
  /-- It is a variable. -/
  isVariable : ∀ name, vararg = some name → ∃ attr, ds.nearest name = some (Referent.variable attr)

namespace NameEnv

/-- A variable is declared. -/
def declare (E : NameEnv) (name : Name) (attr : LocalAttr) : NameEnv where
  ds := Declaration.variable name attr :: E.ds
  vararg := hide E.vararg [name]
  isVariable other h := by
    obtain ⟨hv, hne⟩ := hide_eq_some.1 h
    rw [Declarations.nearest_variable_of_ne (Ne.symm fun he => hne (List.mem_singleton.2 he))]
    exact E.isVariable other hv

/-- Variables are declared one after another. -/
def declareAll (E : NameEnv) (vars : List (Name × LocalAttr)) : NameEnv :=
  vars.foldl (fun E v => E.declare v.1 v.2) E

/-- Globals are declared. -/
def declareGlobals (E : NameEnv) (targets : List (Name × GlobalKind)) : NameEnv where
  ds := Declaration.globals targets :: E.ds
  vararg := hide E.vararg (targets.map Prod.fst)
  isVariable other h := by
    obtain ⟨hv, hne⟩ := hide_eq_some.1 h
    rw [Declarations.nearest_globals_of_not_mem hne]
    exact E.isVariable other hv

/-- The other names are declared. -/
def declareCollective (E : NameEnv) (kind : GlobalKind) : NameEnv where
  ds := Declaration.collective kind :: E.ds
  vararg := E.vararg
  isVariable := E.isVariable

theorem ds_declareAll (E : NameEnv) (vars : List (Name × LocalAttr)) :
    (E.declareAll vars).ds = E.ds.withVariables vars := by
  induction vars generalizing E with
  | nil => rfl
  | cons v rest ih => exact ih (E.declare v.1 v.2)

theorem vararg_declareAll (E : NameEnv) (vars : List (Name × LocalAttr)) :
    (E.declareAll vars).vararg = hide E.vararg (vars.map Prod.fst) := by
  induction vars generalizing E with
  | nil => exact (hide_nil _).symm
  | cons v rest ih =>
      rw [List.map_cons, hide_cons]
      exact ih (E.declare v.1 v.2)

/-- A chunk starts. -/
def chunk : NameEnv where
  ds := Declarations.chunk
  vararg := none
  isVariable name h := by cases h

/-- The body of a function starts: the named vararg is bound behind the parameters. -/
def body (E : NameEnv) (params : List Name) (vararg : Option (Option Name)) : NameEnv where
  ds := E.ds.body params vararg
  vararg := vararg.join
  isVariable name h := by
    rw [Declarations.body, h, Declarations.withVariables, Option.toList_some, plainAttrs,
      List.map_append, List.foldl_append]
    exact ⟨_, Declarations.nearest_variable⟩

/-- The declarations in force behind a statement. -/
def afterStmt (E : NameEnv) : Stmt → NameEnv
  | Stmt.localFunction name _ => E.declare name LocalAttr.plain
  | Stmt.decl targets _ => E.declareAll (declAttrs targets)
  | Stmt.globalFunction name _ => E.declareGlobals [(name, GlobalKind.reg)]
  | Stmt.globalStar defaultConst =>
      E.declareCollective (if defaultConst then GlobalKind.const else GlobalKind.reg)
  | Stmt.global defaultConst targets _ =>
      E.declareGlobals (targets.map fun t => (t.name, Declarations.targetKind defaultConst t))
  | _ => E

/-- The declarations in force at the end of a block. -/
def afterBlock (E : NameEnv) (stmts : List Stmt) : NameEnv := stmts.foldl afterStmt E

theorem ds_afterStmt (E : NameEnv) (s : Stmt) : (E.afterStmt s).ds = E.ds.afterStmt s := by
  cases s with
  | decl targets values => exact E.ds_declareAll _
  | _ => rfl

theorem ds_afterBlock (E : NameEnv) (stmts : List Stmt) :
    (E.afterBlock stmts).ds = E.ds.afterBlock stmts := by
  induction stmts generalizing E with
  | nil => rfl
  | cons s rest ih =>
      show ((E.afterStmt s).afterBlock rest).ds = (E.ds.afterStmt s).afterBlock rest
      rw [ih, ds_afterStmt]

/-- Does the expression name the vararg? -/
def namesVararg (E : NameEnv) : Expr → Bool
  | Expr.ident name => E.vararg = some name
  | _ => false

end NameEnv

/-! ### Counting -/

/-- The number of access sites of a function, and of each function nested in it. -/
@[ext]
structure Sites where
  own : ℕ
  nested : List ℕ
  deriving DecidableEq

namespace Sites

instance : Zero Sites := ⟨⟨0, []⟩⟩

instance : Add Sites := ⟨fun s t => ⟨s.own + t.own, s.nested ++ t.nested⟩⟩

@[simp] theorem own_zero : (0 : Sites).own = 0 := rfl

@[simp] theorem nested_zero : (0 : Sites).nested = [] := rfl

@[simp] theorem own_add (s t : Sites) : (s + t).own = s.own + t.own := rfl

@[simp] theorem nested_add (s t : Sites) : (s + t).nested = s.nested ++ t.nested := rfl

instance : AddMonoid Sites where
  add_assoc s t u := Sites.ext (Nat.add_assoc _ _ _) (List.append_assoc _ _ _)
  zero_add s := Sites.ext (Nat.zero_add _) (List.nil_append _)
  add_zero s := Sites.ext (Nat.add_zero _) (List.append_nil _)
  nsmul := nsmulRec

/-- Access sites of the function itself. -/
def many (n : ℕ) : Sites := ⟨n, []⟩

/-- A function literal is counted apart. -/
def function (s : Sites) : Sites := ⟨0, s.own :: s.nested⟩

/-- All functions. -/
def counts (s : Sites) : List ℕ := s.own :: s.nested

end Sites

/-- A binary operator, given the sites of its operands. -/
def binarySites (op : BinaryOperator) (vararg : Bool) (field : Option Name) (lhs rhs : Sites) :
    Sites :=
  match op with
  | BinaryOperator.property =>
      if vararg then 0
      else match field with
        | some _ => lhs + Sites.many 1
        | none => lhs + rhs
  | _ => lhs + rhs

namespace NameEnv

/-- The use of a name. -/
def nameSites (E : NameEnv) (name : Name) : Sites :=
  match E.ds.covering name with
  | some (Referent.global _) => Sites.many 1
  | _ => 0

mutual

def exprSites (E : NameEnv) : Expr → Sites
  | Expr.prefixOp _ rhs => E.exprSites rhs
  | Expr.binaryOp op lhs rhs =>
      binarySites op (E.namesVararg lhs) (propertyFieldName rhs) (E.exprSites lhs) (E.exprSites rhs)
  | Expr.method object _ args => E.exprSites object + E.exprsSites args
  | Expr.ident name => E.nameSites name
  | Expr.literal _ => 0
  | Expr.func (FuncBody.mk params vararg block) =>
      Sites.function (blockSites (E.body params vararg) block)
  | Expr.table entries => E.entriesSites entries
  | Expr.funcCall target args => E.exprSites target + E.exprsSites args
  -- the named vararg is indexed without a table
  | Expr.index target index =>
      if E.namesVararg target then E.exprSites index else E.exprSites target + E.exprSites index
  | Expr.varArg => 0
  | Expr.paren inner => E.exprSites inner

def exprsSites (E : NameEnv) : List Expr → Sites
  | [] => 0
  | e :: rest => E.exprSites e + E.exprsSites rest

def entriesSites (E : NameEnv) : List TableEntry → Sites
  | [] => 0
  | TableEntry.array value :: rest => E.exprSites value + E.entriesSites rest
  | TableEntry.map _ value :: rest => Sites.many 1 + E.exprSites value + E.entriesSites rest
  | TableEntry.generic index value :: rest =>
      E.exprSites index + E.exprSites value + E.entriesSites rest

/-- A target of an assignment. -/
def targetSites (E : NameEnv) : Expr → Sites
  | Expr.ident name => E.nameSites name
  | Expr.index target index => E.exprSites target + E.exprSites index
  | Expr.binaryOp _ target field =>
      E.exprSites target +
        match propertyFieldName field with
        | some _ => Sites.many 1
        | none => E.exprSites field
  | _ => 0

def targetsSites (E : NameEnv) : List Expr → Sites
  | [] => 0
  | target :: rest => E.targetSites target + E.targetsSites rest

def blockSites (E : NameEnv) : List Stmt → Sites
  | [] => 0
  | s :: rest => E.stmtSites s + blockSites (E.afterStmt s) rest

def stmtSites (E : NameEnv) : Stmt → Sites
  | Stmt.label _ => 0
  | Stmt.goto _ => 0
  | Stmt.localFunction name (FuncBody.mk params vararg block) =>
      Sites.function (blockSites ((E.declare name LocalAttr.plain).body params vararg) block)
  | Stmt.decl _ values => E.exprsSites values
  | Stmt.globalFunction name (FuncBody.mk params vararg block) =>
      Sites.function
          (blockSites ((E.declareGlobals [(name, GlobalKind.reg)]).body params vararg) block) +
        Sites.many 1
  | Stmt.globalStar _ => 0
  | Stmt.global _ targets values =>
      E.exprsSites values + Sites.many (if values.length = 0 then 0 else targets.length)
  | Stmt.assign targets values => E.targetsSites targets + E.exprsSites values
  | Stmt.func target (FuncBody.mk params vararg block) =>
      Sites.function (blockSites (E.body params vararg) block) + E.targetSites target
  | Stmt.expr e => E.exprSites e
  | Stmt.breakStmt => 0
  | Stmt.returnStmt exprs => E.exprsSites exprs
  | Stmt.doStmt stmts => E.blockSites stmts
  | Stmt.whileStmt cond block => E.exprSites cond + E.blockSites block
  | Stmt.repeatStmt block cond => E.blockSites block + exprSites (E.afterBlock block) cond
  | Stmt.ifStmt chain => E.chainSites chain
  | Stmt.forNum counter init limit (some step) block =>
      E.exprSites init + E.exprSites limit + E.exprSites step +
        blockSites (E.declare counter LocalAttr.control) block
  | Stmt.forNum counter init limit none block =>
      E.exprSites init + E.exprSites limit + blockSites (E.declare counter LocalAttr.control) block
  | Stmt.forGen targets values block =>
      E.exprsSites values + blockSites (E.declareAll (loopAttrs targets)) block

def chainSites (E : NameEnv) : IfChain → Sites
  | IfChain.mk cond stmts elseChain =>
      E.exprSites cond + E.blockSites stmts + E.elseSites elseChain

def elseSites (E : NameEnv) : ElseChain → Sites
  | ElseChain.none => 0
  | ElseChain.elseIf chain => E.chainSites chain
  | ElseChain.elseBlock stmts => E.blockSites stmts

end

end NameEnv

/-- **The access sites** of the chunk and of each function in it. -/
def accessCounts (block : List Stmt) : List ℕ := (NameEnv.chunk.blockSites block).counts

/-- A chunk with a read, a field and a function with a field of its own. -/
example : accessCounts
    [Stmt.decl [⟨bytes "f", none⟩]
      [Expr.func (FuncBody.mk [bytes "t"] none
        [Stmt.returnStmt [Expr.binaryOp BinaryOperator.property (Expr.ident (bytes "t"))
          (Expr.ident (bytes "x"))]])],
     Stmt.expr (Expr.funcCall (Expr.ident (bytes "f")) [Expr.ident (bytes "y")])] = [1, 1] := by
  decide

end Tcvm
