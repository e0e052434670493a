/-
# The rules of the parser

One definition for each rule of the grammar, in the order of the source.  A rule that fails returns
`none`, and goes on with what it has where it does not look at the result.  `ruleBody` ties the
recursive rules and the loops to their bodies, and `parse` runs the root rule.

## Main definitions

* `rStmt`, `rExprInner`, `rSimpleExpr` and the other rules;
* `ruleBody` — the body of every procedure;
* `parse` — the parser, with a bound on the depth of calls.
-/

import Tcvm.ParserState

namespace Tcvm.Parser

open OpenRecursion SyntaxKind

/-- A rule gives the marker of its node, or nothing. -/
abbrev RuleM : Type := ParseM (Option CompletedMarker)

def STATEMENT_RECOVERY : List SyntaxKind :=
  [doKw, whileKw, repeatKw, ifKw, forKw, returnKw, breakKw, functionKw, localKw, globalKw]

/-- `Some(marker.complete(self))`. -/
def completed (marker : Marker) : RuleM := do
  let m ← complete marker
  pure (some m)

/-! ### Expressions -/

/-- `r_expr`. -/
def rExpr : RuleM := Proc.call (Rule.expr 0)

def rIdent : RuleM := do
  let marker ← start ident
  let _ ← expect ident
  completed marker

def rVararg : RuleM := do
  let marker ← start varArgExpr
  let _ ← expect tDot
  completed marker

def rLiteral : RuleM := do
  let marker ← start literalExpr
  let kind ← atKind
  let _ ← expect kind
  completed marker

def rParen : RuleM := do
  let marker ← start expr
  let _ ← expect lParen
  question (Proc.call (Rule.operand 0)) fun _ => do
    let _ ← expect SyntaxKind.rParen
    completed marker

def rExprList : RuleM := do
  let marker ← start exprList
  let _ ← Proc.call Rule.exprListLoop
  completed marker

def rExprListLoop : RuleM := do
  if tokenIsExprStart (← atKind) then
    let _ ← rExpr
    if (← atKind) = comma then
      let _ ← expect comma
      Proc.call Rule.exprListLoop
    else pure none
  else pure none

def rFuncCallArgs : RuleM := do
  let marker ← start funcArgs
  let _ ← expect lParen
  let _ ← Proc.call Rule.callArgsLoop
  completed marker

/-- A parenthesis that closes, or an argument and what is behind it. -/
def rCallArgsLoop : RuleM := do
  if (← atKind) = SyntaxKind.rParen then
    let _ ← expect SyntaxKind.rParen
    pure none
  else
    let _ ← rExpr
    if (← atKind) = comma then
      let _ ← expect comma
      Proc.call Rule.callArgsLoop
    else
      let _ ← expect SyntaxKind.rParen
      pure none

def rMethodCall (marker : Marker) : RuleM := do
  let _ ← expect colon
  question rIdent fun _ =>
    question rFuncCallArgs fun _ =>
      completed marker

/-- `r_block`. -/
def rBlock (stop : BlockEnd) : RuleM := do
  let marker ← start stmtList
  let _ ← Proc.call (Rule.blockLoop stop)
  completed marker

def rBlockLoop (stop : BlockEnd) : RuleM := do
  if stop.stops (← atKind) then pure none
  else
    let _ ← Proc.call Rule.stmt
    Proc.call (Rule.blockLoop stop)

def rFuncDefArgs : RuleM := do
  let marker ← start funcArgs
  let _ ← expect lParen
  Proc.call (Rule.defArgsLoop marker)

/-- The name of the vararg parameter, if it has one. -/
def rVarargName : ParseM Unit := do
  if (← atKind) = ident then do
    let _ ← rIdent
    pure ()
  else pure ()

/-- A parameter, or the end of the list; after any other token the list is given up. -/
def rDefArgsLoop (marker : Marker) : RuleM := do
  let t ← atKind
  if t = SyntaxKind.rParen then
    let _ ← expect SyntaxKind.rParen
    completed marker
  else if t = tDot then
    let vararg ← start varArgParam
    let _ ← expect tDot
    rVarargName
    let _ ← complete vararg
    let _ ← expect SyntaxKind.rParen
    completed marker
  else if t = ident then
    let _ ← rIdent
    if (← atKind) = comma then
      let _ ← expect comma
      Proc.call (Rule.defArgsLoop marker)
    else
      let _ ← expect SyntaxKind.rParen
      completed marker
  else
    report "unexpected token" ("expected token one of [" ++ SyntaxKind.rParen.display ++ ", " ++
      tDot.display ++ ", " ++ ident.display ++ "] but found " ++ t.display)
    pure none

/-- `r_simple_expr`: a name with fields, indices and, where they are allowed, calls. -/
def rSimpleExpr (allowCall : Bool) : RuleM := do
  if (← atKind) = lParen then rExpr
  else question rIdent fun lhs => Proc.call (Rule.simpleExprLoop allowCall lhs)

def rSimpleExprLoop (allowCall : Bool) (lhs : CompletedMarker) : RuleM := do
  let t ← atKind
  if t = lParen && allowCall then
    let n ← precede lhs funcCall
    question rFuncCallArgs fun _ => do
      let lhs ← complete n
      Proc.call (Rule.simpleExprLoop allowCall lhs)
  else if t = lBracket then
    let n ← precede lhs index
    let _ ← expect lBracket
    question (Proc.call (Rule.operand 0)) fun _ => do
      let _ ← expect rBracket
      let lhs ← complete n
      Proc.call (Rule.simpleExprLoop allowCall lhs)
  else if t = colon then
    let n ← precede lhs methodCall
    question (rMethodCall n) fun lhs => Proc.call (Rule.simpleExprLoop allowCall lhs)
  else if t = dot then
    let n ← precede lhs binOp
    let _ ← expect t
    let _ ← rIdent
    let lhs ← complete n
    Proc.call (Rule.simpleExprLoop allowCall lhs)
  else pure (some lhs)

/-- The name of a function statement. -/
def rFuncName (isExpr : Bool) : ParseM Unit := do
  if isExpr then pure ()
  else
    let _ ← rSimpleExpr false
    pure ()

/-- `r_func`. -/
def rFunc (isExpr : Bool) : RuleM := do
  let marker ← start (if isExpr then funcExpr else funcStmt)
  let _ ← expect functionKw
  rFuncName isExpr
  let _ ← rFuncDefArgs
  let _ ← rBlock BlockEnd.endKw
  let _ ← expect endKw
  completed marker

def rTable : RuleM := do
  let marker ← start tableExpr
  let _ ← expect lCurly
  let _ ← Proc.call Rule.tableLoop
  completed marker

def rTableElemArray : RuleM := do
  let marker ← start tableArrayElem
  let _ ← rExpr
  completed marker

def rTableElemMap : RuleM := do
  let marker ← start tableMapElem
  let _ ← rIdent
  let _ ← expect assign
  let _ ← rExpr
  completed marker

def rTableElemGeneric : RuleM := do
  let marker ← start tableGenericElem
  let _ ← expect lBracket
  let _ ← rExpr
  let _ ← expect rBracket
  let _ ← expect assign
  let _ ← rExpr
  completed marker

def rTableElem : RuleM := do
  let t ← atKind
  let next ← Proc.read PState.peek
  if t = ident ∧ next = some assign then rTableElemMap
  else if t = lBracket then rTableElemGeneric
  else if tokenIsExprStart t then rTableElemArray
  else
    report "unexpected token" ("expected token one of [" ++ ident.display ++ ", " ++
      lBracket.display ++ ", expr] but found " ++ t.display)
    pure none

def rTableLoop : RuleM := do
  if (← atKind) = rCurly then
    let _ ← expect rCurly
    pure none
  else
    let _ ← rTableElem
    let t ← atKind
    if t = comma || t = semicolon then
      let _ ← expect t
      Proc.call Rule.tableLoop
    else
      let _ ← expect rCurly
      pure none

/-- The operator is there, since the rule is only called at one. -/
def rExprUnary : RuleM := do
  let n ← start prefixOp
  let op ← atKind
  let _ ← expect op
  match prefixBindingPower op with
  | some rBp =>
      let _ ← Proc.call (Rule.expr rBp)
      completed n
  | none => Proc.panic

def rExprLhs : RuleM := do
  let t ← atKind
  if t = ident then rIdent
  else if t = tDot then rVararg
  else if t = lCurly then rTable
  else if t = lParen then Parser.rParen
  else if t = functionKw then rFunc true
  else if tokenIsUnaryOp t then rExprUnary
  else if tokenIsLiteral t then rLiteral
  else pure none

def rExprInner (minBp : ℕ) : RuleM :=
  question rExprLhs fun lhs => Proc.call (Rule.exprLoop minBp lhs)

def rExprLoop (minBp : ℕ) (lhs : CompletedMarker) : RuleM := do
  let t ← atKind
  if t = colon then
    let n ← precede lhs methodCall
    question (rMethodCall n) fun lhs => Proc.call (Rule.exprLoop minBp lhs)
  else if t = lParen ∧ minBp ≤ CALL_BINDING_POWER then
    let n ← precede lhs funcCall
    question rFuncCallArgs fun _ => do
      let lhs ← complete n
      Proc.call (Rule.exprLoop minBp lhs)
  else if t = lBracket ∧ minBp ≤ INDEX_BINDING_POWER then
    let n ← precede lhs index
    let _ ← expect lBracket
    question (Proc.call (Rule.operand 0)) fun _ => do
      let _ ← expect rBracket
      let lhs ← complete n
      Proc.call (Rule.exprLoop minBp lhs)
  else
    match infixBindingPower t with
    | some (lBp, rBp) =>
        if lBp < minBp then pure (some lhs)
        else
          let n ← precede lhs binOp
          let _ ← expect t
          question (if t = dot then rIdent else Proc.call (Rule.operand rBp)) fun _ => do
            let lhs ← complete n
            Proc.call (Rule.exprLoop minBp lhs)
    | none => pure (some lhs)

/-! ### Statements -/

def rLabel : RuleM := do
  let marker ← start label
  let _ ← expect dColon
  let _ ← rIdent
  let _ ← expect dColon
  completed marker

def rGoto : RuleM := do
  let marker ← start gotoKw
  let _ ← expect gotoKw
  let _ ← rIdent
  completed marker

def rDo : RuleM := do
  let marker ← start doStmt
  let _ ← expect doKw
  let _ ← rBlock BlockEnd.endKw
  let _ ← expect endKw
  completed marker

def rWhile : RuleM := do
  let marker ← start whileStmt
  let _ ← expect whileKw
  let _ ← rExpr
  let _ ← rDo
  completed marker

def rRepeat : RuleM := do
  let marker ← start repeatStmt
  let _ ← expect repeatKw
  let _ ← rBlock BlockEnd.untilKw
  let _ ← expect untilKw
  let _ ← rExpr
  completed marker

/-- `r_else`, which is only called at `else` or `elseif`. -/
def rElse : RuleM := do
  let marker ← start elseChain
  let t ← atKind
  if t = elseKw then
    let _ ← expect elseKw
    let _ ← rBlock BlockEnd.endKw
    let _ ← expect endKw
    completed marker
  else if t = elseIfKw then
    let _ ← Proc.call (Rule.ifRule elseIfKw)
    completed marker
  else Proc.panic

def rIf (kind : SyntaxKind) : RuleM := do
  let marker ← start ifStmt
  let _ ← expect kind
  let _ ← rExpr
  let _ ← expect thenKw
  let _ ← rBlock BlockEnd.branch
  let t ← atKind
  if t = endKw then
    let _ ← expect endKw
    completed marker
  else if t = elseIfKw || t = elseKw then
    let _ ← rElse
    completed marker
  else
    report "unexpected token" ("expected token one of [" ++ endKw.display ++ ", " ++
      elseIfKw.display ++ ", " ++ elseKw.display ++ "] but found " ++ t.display)
    pure none

/-- The step of a numeric loop, if there is one. -/
def rForStep : ParseM Unit := do
  if (← atKind) = comma then do
    let _ ← expect comma
    let _ ← rExpr
    pure ()
  else pure ()

def rNumFor (marker : Marker) : RuleM := do
  let _ ← expect assign
  let _ ← rExpr
  let _ ← expect comma
  let _ ← rExpr
  rForStep
  let _ ← rDo
  let marker ← retype marker forNumStmt
  completed marker

def rGenFor (marker listMarker : Marker) : RuleM := do
  let _ ← Proc.call (Rule.commaLoop ListItem.name)
  let _ ← complete listMarker
  let _ ← expect inKw
  let _ ← rExprList
  let _ ← rDo
  let marker ← retype marker forGenStmt
  completed marker

def rFor : RuleM := do
  let marker ← start SyntaxKind.tombstone
  let _ ← expect forKw
  let assignListMarker ← start assignList
  let _ ← rIdent
  if (← atKind) = assign then
    abandon assignListMarker
    rNumFor marker
  else rGenFor marker assignListMarker

def rReturn : RuleM := do
  let marker ← start returnStmt
  let _ ← expect returnKw
  let _ ← rExprList
  completed marker

def rBreak : RuleM := do
  let marker ← start breakStmt
  let _ ← expect breakKw
  completed marker

def rSemicolon : RuleM := do
  let marker ← start semicolon
  let _ ← expect semicolon
  completed marker

def rAssign (assignMarker listMarker : Marker) : RuleM := do
  let _ ← Proc.call (Rule.commaLoop ListItem.simpleExpr)
  let _ ← complete listMarker
  let _ ← expect assign
  let _ ← rExprList
  completed assignMarker

/-- The error for an expression that is no statement, at the token behind it. -/
def reportNoCall (exprMarker : Option CompletedMarker) : ParseM Unit :=
  match exprMarker with
  | some m =>
      if m.kind = funcCall ∨ m.kind = methodCall then pure ()
      else report "syntax error" "expression statement must be a function or method call"
  | none => pure ()

def rMaybeAssign : RuleM := do
  let assignMarker ← start assignStmt
  let assignListMarker ← start assignList
  let exprMarker ← rSimpleExpr true
  let t ← atKind
  if t = assign ∨ t = comma then rAssign assignMarker assignListMarker
  else
    abandon assignListMarker
    abandon assignMarker
    reportNoCall exprMarker
    pure exprMarker

def rAttrib : ParseM Unit := do
  let t ← atKind
  if t = constKw ∨ t = closeKw then do
    let _ ← expect t
    pure ()
  else pure ()

def rDeclTarget : RuleM := do
  let marker ← start declTarget
  let _ ← rIdent
  rAttrib
  completed marker

def rGlobalAttrib : ParseM Unit := do
  let t ← atKind
  if t = constKw then do
    let _ ← expect t
    pure ()
  else if t = closeKw then do
    report "global variables cannot be to-be-closed"
      "'<close>' is not allowed on global declarations"
    let _ ← expect t
    pure ()
  else pure ()

def rGlobalTarget : RuleM := do
  let marker ← start globalTarget
  let _ ← rIdent
  rGlobalAttrib
  completed marker

/-- The item of a list. -/
def rItem : ListItem → RuleM
  | ListItem.name => rIdent
  | ListItem.simpleExpr => rSimpleExpr true
  | ListItem.declTarget => rDeclTarget
  | ListItem.globalTarget => rGlobalTarget

/-- The items behind the commas that follow. -/
def rCommaLoop (item : ListItem) : RuleM := do
  if (← atKind) = comma then
    let _ ← expect comma
    let _ ← rItem item
    Proc.call (Rule.commaLoop item)
  else pure none

/-- An initialiser, if there is one. -/
def rInitialiser : ParseM Unit := do
  if (← atKind) = assign then do
    let _ ← expect assign
    let _ ← rExprList
    pure ()
  else pure ()

/-- The names that are declared, with their initialiser. -/
def rDeclNames (item : ListItem) : ParseM Unit := do
  let assignListMarker ← start assignList
  let _ ← rItem item
  let _ ← Proc.call (Rule.commaLoop item)
  let _ ← complete assignListMarker
  rInitialiser

/-- What is behind `local`. -/
def rDeclBody : ParseM Unit := do
  if (← atKind) = functionKw then do
    let _ ← rFunc false
    pure ()
  else rDeclNames ListItem.declTarget

def rDecl : RuleM := do
  let marker ← start declStmt
  let _ ← expect localKw
  rDeclBody
  completed marker

/-- A star, or the names that are declared. -/
def rGlobalNames : ParseM Unit := do
  if (← atKind) = star then do
    let _ ← expect star
    pure ()
  else rDeclNames ListItem.globalTarget

/-- What is behind `global`. -/
def rGlobalBody : ParseM Unit := do
  if (← atKind) = functionKw then do
    let _ ← rFunc false
    pure ()
  else do
    rGlobalAttrib
    rGlobalNames

def rGlobal : RuleM := do
  let marker ← start globalStmt
  let _ ← expect globalKw
  rGlobalBody
  completed marker

/-- The rule of a statement, by its first token. -/
def rStmtOf (t : SyntaxKind) : RuleM :=
  if t = doKw then rDo
  else if t = whileKw then rWhile
  else if t = repeatKw then rRepeat
  else if t = ifKw then Proc.call (Rule.ifRule ifKw)
  else if t = forKw then rFor
  else if t = returnKw then rReturn
  else if t = breakKw then rBreak
  else if t = functionKw then rFunc false
  else if t = localKw then rDecl
  else if t = globalKw then rGlobal
  else if t = dColon then rLabel
  else if t = gotoKw then rGoto
  else if t = ident ∨ t = lParen then rMaybeAssign
  else if t = semicolon then rSemicolon
  else pure none

/-- The error for tokens that start no statement, at the token after them. -/
def reportStatement (span : Span) : ParseM Unit := fun s =>
  Prog.ret () (s.report "expected a statement"
    ("expected a statement but got \"" ++ s.source span ++ "\""))

def rStmt : RuleM := do
  match ← rStmtOf (← atKind) with
  | some marker => pure (some marker)
  | none =>
      if (← atKind) = eof then pure none
      else
        let span ← errorEatUntil STATEMENT_RECOVERY
        reportStatement span
        Proc.call Rule.stmt

def rItems : RuleM := do
  if (← atKind) = eof then pure none
  else
    match ← Proc.call Rule.stmt with
    | some _ => Proc.call Rule.items
    | none => pure none

/-- `root`. -/
def rRoot : RuleM := do
  let marker ← start root
  let _ ← Proc.call Rule.items
  completed marker

/-! ### The parser -/

def ruleBody : Rule → RuleM
  | Rule.root => rRoot
  | Rule.items => rItems
  | Rule.stmt => rStmt
  | Rule.blockLoop stop => rBlockLoop stop
  | Rule.ifRule kind => rIf kind
  | Rule.expr minBp => rExprInner minBp
  | Rule.operand minBp => Proc.call (Rule.expr minBp)
  | Rule.exprLoop minBp lhs => rExprLoop minBp lhs
  | Rule.exprListLoop => rExprListLoop
  | Rule.callArgsLoop => rCallArgsLoop
  | Rule.defArgsLoop marker => rDefArgsLoop marker
  | Rule.tableLoop => rTableLoop
  | Rule.simpleExprLoop allowCall lhs => rSimpleExprLoop allowCall lhs
  | Rule.commaLoop item => rCommaLoop item

/-- `parse`, with at most `n` rules open at a time, and the calls that are made. -/
def parse (n : ℕ) (tokens : List Token) (source : Span → String) :
    Ending PState (Option CompletedMarker) × List (Rule × PState) :=
  run ruleBody n Rule.root (PState.new tokens source)

end Tcvm.Parser
