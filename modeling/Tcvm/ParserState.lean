/-
# The state of the parser

The parser reads a list of tokens that ends with an end-of-file token, and writes events: a node is
entered, a node is exited, a token is added.  A marker is the place of an entered node; completing
it exits the node, abandoning it makes a tombstone of the event, and preceding a completed one
enters a node that is to begin further in front, which the earlier event points to.  The sink turns
the events into calls of the tree builder.

## Main definitions

* `SyntaxKind`, `Token`, `Event`, `Report`, `PState` — the data;
* `ParseM` — rules as procedures over the state;
* `bump`, `expect`, `errorEatUntil` — the cursor;
* `start`, `complete`, `abandon`, `retype`, `precede` — markers;
* `BuilderCall`, `sinkChain`, `sink` — the sink.
-/

import Tcvm.OpenRecursion

namespace Tcvm.Parser

open OpenRecursion

/-! ### Kinds -/

/-- The kinds of nodes and of tokens. -/
inductive SyntaxKind
  | invalid | tombstone | eof | root | breakStmt | returnStmt | doStmt | whileStmt | repeatStmt
  | stmtList | ifStmt | elseChain | forNumStmt | forGenStmt | funcStmt | funcArgs | varArgParam
  | expr | varArgExpr | binOp | funcCall | index | exprList | declStmt | declTarget | funcExpr
  | prefixOp | tableExpr | tableArrayElem | tableMapElem | tableGenericElem | assignStmt
  | literalExpr | assignList | label | methodCall | globalStmt | globalTarget
  | whitespace | comment | plus | minus | star | slash | percent | caret | hash | ampersand
  | pipe | tilde | dLAngle | dRAngle | eq | notEq | lEq | gEq | lAngle | rAngle | assign
  | dSlash | dot | dDot | localKw | globalKw | functionKw | endKw | inKw | thenKw | breakKw
  | forKw | doKw | untilKw | elseKw | whileKw | elseIfKw | ifKw | repeatKw | returnKw | notKw
  | orKw | andKw | gotoKw | constKw | closeKw | nilKw | trueKw | falseKw | string | longString
  | int | hexInt | float | hexFloat | ident | lParen | rParen | lCurly | rCurly | lBracket
  | rBracket | colon | dColon | comma | tDot | semicolon
  deriving DecidableEq

namespace SyntaxKind

/-- `Display`. -/
def display : SyntaxKind → String
  | invalid => "invalid"
  | tombstone => "tombstone"
  | eof => "eof"
  | root => "root"
  | breakStmt => "break_stmt"
  | returnStmt => "return_stmt"
  | doStmt => "do_stmt"
  | whileStmt => "while_stmt"
  | repeatStmt => "repeat_stmt"
  | stmtList => "stmt_list"
  | ifStmt => "if_stmt"
  | elseChain => "else_chain"
  | forNumStmt => "for_num_stmt"
  | forGenStmt => "for_gen_stmt"
  | funcStmt => "func_stmt"
  | funcArgs => "func_args"
  | varArgParam => "vararg_param"
  | expr => "expr"
  | varArgExpr => "vararg_expr"
  | binOp => "bin_op"
  | funcCall => "func_call"
  | index => "index"
  | exprList => "expr_list"
  | declStmt => "decl_stmt"
  | declTarget => "decl_target"
  | funcExpr => "func_expr"
  | prefixOp => "prefix_op"
  | tableExpr => "table_expr"
  | tableArrayElem => "table_array_elem"
  | tableMapElem => "table_map_elem"
  | tableGenericElem => "table_generic_elem"
  | assignStmt => "assign_stmt"
  | literalExpr => "literal_expr"
  | assignList => "assign_list"
  | label => "label"
  | methodCall => "method_call"
  | globalStmt => "global_stmt"
  | globalTarget => "global_target"
  | whitespace => "whitespace"
  | comment => "comment"
  | plus => "+"
  | minus => "-"
  | star => "*"
  | slash => "/"
  | percent => "%"
  | caret => "^"
  | hash => "#"
  | ampersand => "&"
  | pipe => "|"
  | tilde => "~"
  | dLAngle => "<<"
  | dRAngle => ">>"
  | eq => "=="
  | notEq => "~="
  | lEq => "<="
  | gEq => ">="
  | lAngle => "<"
  | rAngle => ">"
  | assign => "="
  | dSlash => "D/"
  | dot => "."
  | dDot => ".."
  | localKw => "local"
  | globalKw => "global"
  | functionKw => "function"
  | endKw => "end"
  | inKw => "in"
  | thenKw => "then"
  | breakKw => "break"
  | forKw => "for"
  | doKw => "do"
  | untilKw => "until"
  | elseKw => "else"
  | whileKw => "while"
  | elseIfKw => "elseif"
  | ifKw => "if"
  | repeatKw => "repeat"
  | returnKw => "return"
  | notKw => "not"
  | orKw => "or"
  | andKw => "and"
  | gotoKw => "goto"
  | constKw => "const"
  | closeKw => "close"
  | nilKw => "nil"
  | trueKw => "true"
  | falseKw => "false"
  | string => "string"
  | longString => "long_string"
  | int => "int"
  | hexInt => "hex_int"
  | float => "float"
  | hexFloat => "hex_float"
  | ident => "ident"
  | lParen => "'('"
  | rParen => "')'"
  | lCurly => "'\x7b'"
  | rCurly => "'\x7d'"
  | lBracket => "'['"
  | rBracket => "']'"
  | colon => ":"
  | dColon => "::"
  | comma => ","
  | tDot => "..."
  | semicolon => ";"

def isTrivia : SyntaxKind → Bool
  | whitespace | comment => true
  | _ => false

end SyntaxKind

open SyntaxKind

def tokenIsLiteral : SyntaxKind → Bool
  | nilKw | falseKw | trueKw | int | hexInt | float | hexFloat | string | longString => true
  | _ => false

def tokenIsUnaryOp : SyntaxKind → Bool
  | notKw | plus | minus | SyntaxKind.hash | tilde => true
  | _ => false

def tokenIsExprStart (token : SyntaxKind) : Bool :=
  token = ident || token = lParen || tokenIsLiteral token || tokenIsUnaryOp token ||
    token = lCurly || token = functionKw || token = tDot

def INDEX_BINDING_POWER : ℕ := 22

def CALL_BINDING_POWER : ℕ := 22

/-- The right binding power of a unary operator. -/
def prefixBindingPower : SyntaxKind → Option ℕ
  | notKw | plus | minus | SyntaxKind.hash | tilde => some 21
  | _ => none

def infixBindingPower : SyntaxKind → Option (ℕ × ℕ)
  | orKw => some (1, 2)
  | andKw => some (3, 4)
  | lAngle | rAngle | lEq | gEq | notEq | eq => some (5, 6)
  | pipe => some (7, 8)
  | tilde => some (9, 10)
  | ampersand => some (11, 12)
  | dLAngle | dRAngle => some (13, 14)
  | dDot => some (16, 15)
  | plus | minus => some (17, 18)
  | SyntaxKind.star | slash | dSlash | percent => some (19, 20)
  | caret => some (22, 21)
  | dot | colon => some (24, 23)
  | _ => none

/-! ### States -/

structure Span where
  start : ℕ
  stop : ℕ
  deriving DecidableEq

structure Token where
  kind : SyntaxKind
  span : Span
  deriving DecidableEq

inductive Event
  | enter (kind : SyntaxKind) (precededBy : ℕ)
  | exit
  | token (kind : SyntaxKind) (span : Span)
  deriving DecidableEq

def Event.tombstone : Event := Event.enter SyntaxKind.tombstone 0

/-- An error, at the span of the current token, with its label at the same place. -/
structure Report where
  span : Span
  message : String
  label : String
  deriving DecidableEq

structure PState where
  tokens : List Token
  cursor : ℕ
  /-- The source text of a span. -/
  source : Span → String
  events : List Event
  reports : List Report

/-- The end-of-file token. -/
def eofToken : Token := { kind := eof, span := { start := 0, stop := 0 } }

namespace PState

/-- The state before parsing: the tokens of the lexer, and the end of the file. -/
def new (tokens : List Token) (source : Span → String) : PState where
  tokens := tokens ++ [eofToken]
  cursor := 0
  source := source
  events := []
  reports := []

/-- The current token. -/
def token (s : PState) : Token := s.tokens.getD s.cursor eofToken

/-- `at`. -/
def atKind (s : PState) : SyntaxKind := s.token.kind

/-- The kind of the next token that is not trivia. -/
def peek (s : PState) : Option SyntaxKind :=
  ((s.tokens.drop (s.cursor + 1)).find? fun t => !t.kind.isTrivia).map Token.kind

def push (s : PState) (e : Event) : PState := { s with events := s.events ++ [e] }

/-- `report`, of an error at the current token. -/
def report (s : PState) (message label : String) : PState :=
  { s with reports := s.reports ++ [{ span := s.token.span, message := message, label := label }] }

end PState

structure Marker where
  position : ℕ
  kind : SyntaxKind
  deriving DecidableEq

structure CompletedMarker where
  position : ℕ
  kind : SyntaxKind
  deriving DecidableEq

/-! ### Rules -/

/-- The token at which a block ends. -/
inductive BlockEnd
  | endKw
  | untilKw
  | branch
  deriving DecidableEq

/-- The closure that `r_block` is given. -/
def BlockEnd.stops : BlockEnd → SyntaxKind → Bool
  | endKw, t => t = SyntaxKind.endKw
  | untilKw, t => t = SyntaxKind.untilKw
  | branch, t => t = SyntaxKind.endKw || t = elseIfKw || t = elseKw

/-- What is between the commas of a list that has no rule of its own. -/
inductive ListItem
  | name
  | simpleExpr
  | declTarget
  | globalTarget
  deriving DecidableEq

/-- The rules that are recursive, and the loops.  An `operand` is an expression that the rule around
it gives up without. -/
inductive Rule
  | root
  | items
  | stmt
  | blockLoop (stop : BlockEnd)
  | ifRule (kind : SyntaxKind)
  | expr (minBp : ℕ)
  | operand (minBp : ℕ)
  | exprLoop (minBp : ℕ) (lhs : CompletedMarker)
  | exprListLoop
  | callArgsLoop
  | defArgsLoop (marker : Marker)
  | tableLoop
  | simpleExprLoop (allowCall : Bool) (lhs : CompletedMarker)
  | commaLoop (item : ListItem)
  deriving DecidableEq

/-- What a rule computes; a loop that returns nothing returns `none`. -/
abbrev ParseM (α : Type) : Type := Proc Rule PState (Option CompletedMarker) α

/-- The operator `?`. -/
def question {α β : Type} (m : ParseM (Option α)) (f : α → ParseM (Option β)) :
    ParseM (Option β) := do
  match ← m with
  | some a => f a
  | none => pure none

/-! ### The cursor -/

def atKind : ParseM SyntaxKind := Proc.read PState.atKind

/-- Add the current token, and go to the next; there is one. -/
def bump : ParseM Unit := fun s =>
  if s.cursor + 1 < s.tokens.length then
    Prog.ret () { s.push (Event.token s.token.kind s.token.span) with cursor := s.cursor + 1 }
  else Prog.panic

def report (message label : String) : ParseM Unit := Proc.modify fun s => s.report message label

def expect (kind : SyntaxKind) : ParseM Bool := do
  let found ← atKind
  if found = kind then
    bump
    pure true
  else
    report "unexpected token" ("expected token " ++ kind.display ++ " but found " ++ found.display)
    pure false

/-! ### Markers -/

def start (kind : SyntaxKind) : ParseM Marker := fun s =>
  Prog.ret { position := s.events.length, kind := kind } (s.push (Event.enter kind 0))

def complete (marker : Marker) : ParseM CompletedMarker := fun s =>
  Prog.ret { position := marker.position, kind := marker.kind } (s.push Event.exit)

def retype (marker : Marker) (kind : SyntaxKind) : ParseM Marker := fun s =>
  Prog.ret marker { s with events := s.events.set marker.position (Event.enter kind 0) }

/-- Make a tombstone of an event, and drop it if it is the last. -/
def abandon (marker : Marker) : ParseM Unit := fun s =>
  match s.events[marker.position]? with
  | some (Event.enter _ 0) =>
      let events := s.events.set marker.position Event.tombstone
      Prog.ret () { s with
        events := if marker.position + 1 = events.length then events.dropLast else events }
  | _ => Prog.panic

/-- Let an event point to the node that is to be entered before it. -/
def Event.setPreceded (d : ℕ) : Event → Event
  | enter kind _ => enter kind d
  | e => e

def precede (lhs : CompletedMarker) (kind : SyntaxKind) : ParseM Marker := do
  let marker ← start kind
  fun s =>
    match s.events[lhs.position]? with
    | some (Event.enter _ _) =>
        Prog.ret marker { s with
          events := s.events.modify lhs.position
            (Event.setPreceded (marker.position - lhs.position)) }
    | _ => Prog.panic

/-- `error_eat_until`: the tokens up to one of `oneOf` or the end become an invalid node; the span
of the token after them. -/
def errorEatUntil (oneOf : List SyntaxKind) : ParseM Span := do
  let marker ← start invalid
  Proc.modify fun s =>
    let eaten := (s.tokens.drop s.cursor).takeWhile fun t =>
      decide (t.kind ≠ eof) && !oneOf.contains t.kind
    { s with
      events := s.events ++ eaten.map fun t => Event.token t.kind t.span
      cursor := s.cursor + eaten.length }
  let lastSpan ← Proc.read fun s => s.token.span
  let _ ← complete marker
  pure lastSpan

/-! ### The sink -/

/-- The calls of the tree builder. -/
inductive BuilderCall
  | startNode (kind : SyntaxKind)
  | token (kind : SyntaxKind) (span : Span)
  | finishNode
  deriving DecidableEq

/-- Follow `preceded_by` from an event, taking the events on the way; the kinds that are met, the
tombstones left out.  `none` is the `unreachable!` arm, or an index outside of the events. -/
def sinkChain : ℕ → List Event → ℕ → ℕ → List SyntaxKind → Option (List SyntaxKind × List Event)
  | _, events, _, 0, kinds => some (kinds, events)
  | 0, _, _, _ + 1, _ => none
  | fuel + 1, events, idx, d + 1, kinds =>
      match events[idx + (d + 1)]? with
      | some (Event.enter kind d') =>
          sinkChain fuel (events.set (idx + (d + 1)) Event.tombstone) (idx + (d + 1)) d'
            (if kind = SyntaxKind.tombstone then kinds else kinds ++ [kind])
      | _ => none

/-- `Sink::finish`, from an event on: the calls of the builder. -/
def sink : ℕ → List Event → Option (List BuilderCall)
  | _, [] => some []
  | 0, _ :: _ => none
  | fuel + 1, Event.exit :: events => (sink fuel events).map (BuilderCall.finishNode :: ·)
  | fuel + 1, Event.token kind span :: events =>
      (sink fuel events).map (BuilderCall.token kind span :: ·)
  | fuel + 1, Event.enter kind d :: events =>
      if kind = SyntaxKind.tombstone ∧ d = 0 then sink fuel events
      else
        (sinkChain (events.length + 1) (Event.tombstone :: events) 0 d [kind]).bind
          fun (kinds, events) =>
            (sink fuel events.tail).map (kinds.reverse.map BuilderCall.startNode ++ ·)

end Tcvm.Parser
