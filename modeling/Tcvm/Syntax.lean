/-
The syntax trees that the compiler consumes.

The trees of a source text that the parser accepts without a report: every part that the accessors
of the source return as an `Option` and the grammar requires is present here, so the internal
compiler errors about missing parts do not arise.  A name is the byte string of its token.

* `Expr`, `TableEntry`, `FuncBody`, `Stmt`, `IfChain`, `ElseChain` — expressions and statements;
* `PrefixOperator`, `BinaryOperator`, `LiteralValue` — their leaves.
-/

import Tcvm.LuaValue

namespace Tcvm

/-- An identifier's text. -/
abbrev Name := LuaString

inductive LiteralValue
  | nil
  | bool (b : Bool)
  | int (i : Int64)
  /-- A double, given by its bits. -/
  | float (bits : UInt64)
  | string (bytes : LuaString)
  deriving DecidableEq

inductive PrefixOperator
  | none | neg | not | len | bitNot
  deriving DecidableEq

inductive BinaryOperator
  | and | or | add | sub | mul | div | intDiv | exp | mod | bitAnd | bitOr | lShift | rShift | eq
  | bitXor | nEq | lEq | gEq | gt | lt | property | method | concat
  deriving DecidableEq

inductive DeclModifier
  | const | close
  deriving DecidableEq

/-- A target of a `local` declaration. -/
structure DeclTarget where
  name : Name
  modifier : Option DeclModifier
  deriving DecidableEq

/-- A target of a `global` declaration. -/
structure GlobalTarget where
  name : Name
  isConst : Bool
  deriving DecidableEq

mutual

/-- Expressions. -/
inductive Expr
  | method (object : Expr) (method : Name) (args : List Expr)
  | ident (name : Name)
  | literal (value : LiteralValue)
  | func (body : FuncBody)
  | table (entries : List TableEntry)
  | prefixOp (op : PrefixOperator) (rhs : Expr)
  | binaryOp (op : BinaryOperator) (lhs rhs : Expr)
  | funcCall (target : Expr) (args : List Expr)
  | index (target index : Expr)
  | varArg
  /-- A parenthesized expression, which adjusts to one value. -/
  | paren (inner : Expr)

/-- The entries of a table constructor. -/
inductive TableEntry
  | array (value : Expr)
  | map (field : Name) (value : Expr)
  | generic (index value : Expr)

/-- Parameters, an optional vararg with its optional name, and the body. -/
inductive FuncBody
  | mk (params : List Name) (vararg : Option (Option Name)) (block : List Stmt)

/-- Statements. -/
inductive Stmt
  | label (name : Name)
  | goto (name : Name)
  | localFunction (name : Name) (body : FuncBody)
  | decl (targets : List DeclTarget) (values : List Expr)
  | globalFunction (name : Name) (body : FuncBody)
  | globalStar (defaultConst : Bool)
  | global (defaultConst : Bool) (targets : List GlobalTarget) (values : List Expr)
  | assign (targets values : List Expr)
  | func (target : Expr) (body : FuncBody)
  | expr (e : Expr)
  | breakStmt
  | returnStmt (exprs : List Expr)
  | doStmt (stmts : List Stmt)
  | whileStmt (cond : Expr) (block : List Stmt)
  | repeatStmt (block : List Stmt) (cond : Expr)
  | ifStmt (chain : IfChain)
  | forNum (counter : Name) (init limit : Expr) (step : Option Expr) (block : List Stmt)
  | forGen (targets : List Name) (values : List Expr) (block : List Stmt)

/-- A condition with its block and what follows. -/
inductive IfChain
  | mk (cond : Expr) (stmts : List Stmt) (elseChain : ElseChain)

/-- What follows a block of an `if`. -/
inductive ElseChain
  | none
  | elseIf (chain : IfChain)
  | elseBlock (stmts : List Stmt)

end

end Tcvm
