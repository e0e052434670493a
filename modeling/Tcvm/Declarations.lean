/-
The declarations in force at a point of a program.

What the manual says about names, in its own terms.  A program text has, at each point, a list of
declarations in force: local variables, `global` declarations and the starts of the function bodies
around the point.  A name refers to what its nearest explicit declaration says; a name without one
is covered by the nearest collective declaration; and the implicit `global *` in front of a chunk
becomes void as soon as any other `global` declaration is in force.

* `LocalAttr`, `DeclTarget.attr`, `loopAttrs` — what a declaration says about its variables;
* `Declaration`, `Declarations` — the declarations, the latest one first;
* `Declarations.nearest`, `Declarations.covering` — what a name refers to;
* `Declarations.afterStmt`, `Declarations.afterBlock` — the declarations behind a statement;
* `Declarations.body` — the declarations at the start of a function body;
* `Declarations.chunk` — the declarations a chunk starts with.
-/

import Tcvm.CompilerCtx

namespace Tcvm

/-- What a declaration says about a local variable. -/
inductive LocalAttr
  /-- A variable without attribute, a parameter or a local function. -/
  | plain
  | const
  | close
  /-- The control variable of a loop. -/
  | control
  /-- Another variable of a generic `for`. -/
  | loopVar
  deriving DecidableEq

namespace LocalAttr

/-- May the variable not be assigned? -/
def readOnly : LocalAttr → Bool
  | const => true
  | close => true
  | control => true
  | plain => false
  | loopVar => false

end LocalAttr

def DeclTarget.attr (t : DeclTarget) : LocalAttr :=
  match t.modifier with
  | some DeclModifier.const => LocalAttr.const
  | some DeclModifier.close => LocalAttr.close
  | none => LocalAttr.plain

/-- The variables of a `local` declaration. -/
def declAttrs (targets : List DeclTarget) : List (Name × LocalAttr) :=
  targets.map fun t => (t.name, t.attr)

/-- Variables without attribute. -/
def plainAttrs (names : List Name) : List (Name × LocalAttr) :=
  names.map fun name => (name, LocalAttr.plain)

/-- What the variables of a generic `for` are: the first one is the control variable. -/
def loopAttrs : List Name → List (Name × LocalAttr)
  | [] => []
  | first :: rest => (first, LocalAttr.control) :: rest.map fun name => (name, LocalAttr.loopVar)

theorem map_declAttrs (targets : List DeclTarget) :
    (declAttrs targets).map Prod.fst = targets.map DeclTarget.name := by
  rw [declAttrs, List.map_map]
  rfl

theorem map_loopAttrs (names : List Name) : (loopAttrs names).map Prod.fst = names := by
  cases names with
  | nil => rfl
  | cons first rest => simp [loopAttrs, Function.comp_def]

/-- A declaration in force. -/
inductive Declaration
  /-- A local variable, a parameter or a loop variable. -/
  | variable (name : Name) (attr : LocalAttr)
  /-- `global` with a list of names. -/
  | globals (targets : List (Name × GlobalKind))
  /-- `global *`. -/
  | collective (kind : GlobalKind)
  /-- The start of a function body: what is behind it belongs to the enclosing functions. -/
  | function
  deriving DecidableEq

/-- The declarations in force, the latest one first. -/
abbrev Declarations := List Declaration

/-- What a name refers to. -/
inductive Referent
  | variable (attr : LocalAttr)
  | global (kind : GlobalKind)
  deriving DecidableEq

/-! ### What a name refers to -/

/-- What a declaration says about a name.  Of two targets with one name the later one counts. -/
def Declaration.explicit (name : Name) : Declaration → Option Referent
  | Declaration.variable n attr => if n = name then some (Referent.variable attr) else none
  | Declaration.globals targets => (targets.reverse.lookup name).map Referent.global
  | Declaration.collective _ => none
  | Declaration.function => none

/-- The kind that a collective declaration gives to the names without a declaration. -/
def Declaration.collectiveKind : Declaration → Option GlobalKind
  | Declaration.collective kind => some kind
  | _ => none

/-- Is this a `global` declaration with a list of names? -/
def Declaration.isList : Declaration → Bool
  | Declaration.globals _ => true
  | _ => false

namespace Declarations

/-- The nearest explicit declaration of a name. -/
def nearest (ds : Declarations) (name : Name) : Option Referent :=
  ds.findSome? fun d => d.explicit name

/-- How the names without an explicit declaration are declared, if they are: by the nearest
collective declaration, or by the implicit `global *` outside of any other `global` declaration. -/
def implicitKind (ds : Declarations) : Option GlobalKind :=
  match ds.findSome? Declaration.collectiveKind with
  | some kind => some kind
  | none => if ds.any Declaration.isList then none else some GlobalKind.reg

/-- What covers a name: its nearest explicit declaration, or an implicit one. -/
def covering (ds : Declarations) (name : Name) : Option Referent :=
  match ds.nearest name with
  | some r => some r
  | none => ds.implicitKind.map Referent.global

/-! ### Declarations along a program -/

/-- Behind the declarations of some variables. -/
def withVariables (ds : Declarations) (vars : List (Name × LocalAttr)) : Declarations :=
  vars.foldl (fun ds v => Declaration.variable v.1 v.2 :: ds) ds

/-- The kind of a target of a `global` declaration: an attribute may stand in front of the list or
behind the name. -/
def targetKind (prefixed : Bool) (target : GlobalTarget) : GlobalKind :=
  if prefixed || target.isConst then GlobalKind.const else GlobalKind.reg

/-- The declarations in force behind a statement.  What a statement declares inside of its own
blocks has ended there. -/
def afterStmt (ds : Declarations) : Stmt → Declarations
  | Stmt.localFunction name _ => Declaration.variable name LocalAttr.plain :: ds
  | Stmt.decl targets _ => ds.withVariables (declAttrs targets)
  | Stmt.globalFunction name _ => Declaration.globals [(name, GlobalKind.reg)] :: ds
  | Stmt.globalStar defaultConst =>
      Declaration.collective (if defaultConst then GlobalKind.const else GlobalKind.reg) :: ds
  | Stmt.global defaultConst targets _ =>
      Declaration.globals (targets.map fun t => (t.name, targetKind defaultConst t)) :: ds
  | _ => ds

/-- The declarations in force at the end of a block. -/
def afterBlock (ds : Declarations) (stmts : List Stmt) : Declarations := stmts.foldl afterStmt ds

/-- The declarations at the start of a function body. -/
def body (ds : Declarations) (params : List Name) (vararg : Option (Option Name)) : Declarations :=
  withVariables (Declaration.function :: ds) (plainAttrs (params ++ vararg.join.toList))

/-- A chunk is the body of a function in the scope of an external variable `_ENV`. -/
def chunk : Declarations :=
  [Declaration.function, Declaration.variable envName LocalAttr.plain]

end Declarations

end Tcvm
