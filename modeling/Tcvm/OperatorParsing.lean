/-
The parser reads back what is written.

An expression is read from its first token on, and each round of the loop puts an operator or a
suffix behind what was read.  So a left operand is read by the rule that reads the whole, and what
is behind it by the loop of that rule.

* `PState.ahead` — the tokens that are ahead;
* `Adds`, `Builds` — events that build given nodes;
* `Gets` — a rule that returns;
* `Parses` — a tree is read, and the loop goes on behind it;
* `Proper.parses` — **trees that have the parentheses they need are read**;
* `expr_round_trip` — **what is written is read back**.
-/

import Tcvm.BindingPowers
import Tcvm.ParserSpecs

namespace Tcvm.Parser

open OpenRecursion SyntaxKind TextCall ExprTree

/-! ### Tokens and events -/

/-- A token with its text. -/
def Token.lexeme (source : Span → String) (t : Token) : Lexeme :=
  { kind := t.kind, text := source t.span }

/-- The tokens that are ahead. -/
def PState.ahead (s : PState) : List Lexeme :=
  (s.tokens.drop s.cursor).map (Token.lexeme s.source)

/-- A call of the builder, with the text of a token. -/
def BuilderCall.withText (source : Span → String) : BuilderCall → TextCall
  | startNode kind => TextCall.startNode kind
  | token kind span => TextCall.token { kind := kind, text := source span }
  | finishNode => TextCall.finishNode

variable {s s₁ s₂ s₃ : PState} {c c' : List TextCall} {l : Lexeme} {ls rest : List Lexeme}
variable {lhs : CompletedMarker} {kind : SyntaxKind}

/-- The first of the tokens that are ahead is the current one. -/
theorem ahead_cons (h : s.ahead = l :: ls) :
    s.token.lexeme s.source = l ∧ s.cursor < s.tokens.length ∧ (bumped s).ahead = ls := by
  rw [PState.ahead] at h
  have hlt : s.cursor < s.tokens.length := by
    by_contra hge
    rw [List.drop_eq_nil_iff.mpr (Nat.le_of_not_lt hge)] at h
    exact nomatch h
  rw [List.drop_eq_getElem_cons hlt, List.map_cons] at h
  obtain ⟨hhead, htail⟩ := List.cons.inj h
  refine ⟨?_, hlt, htail⟩
  rw [PState.token, List.getD_eq_getElem?_getD, List.getElem?_eq_getElem hlt]
  exact hhead

theorem atKind_of_ahead (h : s.ahead = l :: ls) : s.atKind = l.kind := by
  rw [← (ahead_cons h).1]
  rfl

theorem next_of_ahead (h : s.ahead = l :: ls) (hls : ls ≠ []) :
    s.cursor + 1 < s.tokens.length := by
  obtain ⟨-, -, hnext⟩ := ahead_cons h
  by_contra hge
  refine hls (hnext.symm.trans ?_)
  rw [PState.ahead, show (bumped s).tokens.drop (bumped s).cursor = [] from
    List.drop_eq_nil_iff.mpr (Nat.le_of_not_lt hge), List.map_nil]

/-- Events are appended that build `c`, and the tokens of `rest` are ahead. -/
structure Adds (s s₁ : PState) (c : List TextCall) (rest : List Lexeme) : Prop where
  tokens : s₁.tokens = s.tokens
  source : s₁.source = s.source
  reports : s₁.reports = s.reports
  ahead : s₁.ahead = rest
  events : ∃ seg calls, s₁.events = s.events ++ seg ∧ Nested none seg calls ∧
    calls.map (BuilderCall.withText s.source) = c

/-- Events are appended that build `c`, which is one node, the node of `lhs`. -/
structure Builds (s s₁ : PState) (lhs : CompletedMarker) (c : List TextCall)
    (rest : List Lexeme) : Prop where
  tokens : s₁.tokens = s.tokens
  source : s₁.source = s.source
  reports : s₁.reports = s.reports
  ahead : s₁.ahead = rest
  events : ∃ seg calls pos, s₁.events = s.events ++ seg ∧ lhs.position = s.events.length + pos ∧
    Nested (some pos) seg calls ∧ calls.map (BuilderCall.withText s.source) = c

theorem Builds.adds (h : Builds s s₁ lhs c rest) : Adds s s₁ c rest := by
  obtain ⟨seg, calls, pos, hseg, -, hnested, hcalls⟩ := h.events
  exact ⟨h.tokens, h.source, h.reports, h.ahead, seg, calls, hseg, hnested.close, hcalls⟩

theorem Adds.trans (h : Adds s s₁ c ls) (h' : Adds s₁ s₂ c' rest) : Adds s s₂ (c ++ c') rest := by
  obtain ⟨seg, calls, hseg, hnested, hcalls⟩ := h.events
  obtain ⟨seg', calls', hseg', hnested', hcalls'⟩ := h'.events
  refine ⟨h'.tokens.trans h.tokens, h'.source.trans h.source, h'.reports.trans h.reports, h'.ahead,
    seg ++ seg', calls ++ calls', ?_, hnested.append hnested', ?_⟩
  · rw [hseg', hseg, List.append_assoc]
  · rw [h.source] at hcalls'
    rw [List.map_append, hcalls, hcalls']

theorem Adds.token (h : s.ahead = l :: ls) : Adds s (bumped s) [TextCall.token l] ls := by
  obtain ⟨hl, -, hnext⟩ := ahead_cons h
  refine ⟨rfl, rfl, rfl, hnext, [Event.token s.token.kind s.token.span],
    [BuilderCall.token s.token.kind s.token.span], rfl, Nested.token s.token, ?_⟩
  rw [← hl]
  rfl

/-- A node around what was added behind its start. -/
theorem Adds.node (hkind : kind ≠ SyntaxKind.tombstone)
    (h : Adds (s.push (Event.enter kind 0)) s₁ c rest) :
    Builds s (s₁.push Event.exit) { position := s.events.length, kind := kind }
      (TextCall.node kind c) rest := by
  obtain ⟨seg, calls, hseg, hnested, hcalls⟩ := h.events
  refine ⟨h.tokens, h.source, h.reports, h.ahead, Event.enter kind 0 :: (seg ++ [Event.exit]),
    BuilderCall.startNode kind :: (calls ++ [BuilderCall.finishNode]), 0, ?_, rfl,
    hnested.node kind hkind, ?_⟩
  · show s₁.events ++ [Event.exit] = _
    rw [hseg]
    show s.events ++ [Event.enter kind 0] ++ seg ++ [Event.exit] = _
    rw [List.append_assoc, List.append_assoc]
    rfl
  · rw [List.map_cons, List.map_append]
    have hcalls : calls.map (BuilderCall.withText s.source) = c := hcalls
    rw [hcalls]
    rfl

/-- The last node of a chain is there. -/
theorem Nested.placed {pos : ℕ} {e : List Event} {calls : List BuilderCall}
    (h : Nested (some pos) e calls) : ∃ k d, e[pos]? = some (Event.enter k d) := by
  cases h with
  | node kind hkind h => exact ⟨kind, 0, rfl⟩
  | @precede pos e e' c c' kind hkind h h' =>
      refine ⟨kind, 0, ?_⟩
      rw [List.getElem?_append_right (Nat.le_of_eq (link_length _ _ _)), link_length, Nat.sub_self]
      rfl

theorem Builds.placed (h : Builds s s₁ lhs c rest) : Placed lhs s₁ := by
  obtain ⟨seg, calls, pos, hseg, hpos, hnested, -⟩ := h.events
  obtain ⟨k, d, hget⟩ := hnested.placed
  refine ⟨k, d, ?_⟩
  rw [hseg, hpos, List.getElem?_append_right (Nat.le_add_right _ _), Nat.add_sub_cancel_left]
  exact hget

/-- A node that precedes another. -/
theorem Builds.link (hkind : kind ≠ SyntaxKind.tombstone) (h : Builds s s₁ lhs c ls)
    (h' : Adds (preceded s₁ lhs kind) s₂ c' rest) :
    Builds s (s₂.push Event.exit) { position := s₁.events.length, kind := kind }
      (TextCall.node kind (c ++ c')) rest := by
  have hplaced := h.placed
  obtain ⟨seg, calls, pos, hseg, hpos, hnested, hcalls⟩ := h.events
  obtain ⟨seg', calls', hseg', hnested', hcalls'⟩ := h'.events
  have hback : lhs.position - s.events.length = pos := by omega
  have hprec := preceded_events kind hplaced hseg (by omega)
  rw [hback] at hprec
  refine ⟨h'.tokens.trans h.tokens, h'.source.trans h.source, h'.reports.trans h.reports, h'.ahead,
    _, _, seg.length, ?_, ?_, hnested.precede kind hkind hnested', ?_⟩
  · show s₂.events ++ [Event.exit] = _
    rw [hseg', hprec]
    simp only [List.append_assoc, List.cons_append, List.nil_append]
  · show s₁.events.length = _
    rw [hseg, List.length_append]
  · have hcalls' : calls'.map (BuilderCall.withText s₁.source) = c' := hcalls'
    rw [h.source] at hcalls'
    rw [List.map_cons, List.map_append, List.map_append, hcalls, hcalls', TextCall.node,
      List.append_assoc]
    rfl

/-! ### Rules that return -/

/-- A rule returns. -/
def Gets {α : Type} (m : ParseM α) (s : PState) (a : α) (s₁ : PState) : Prop :=
  Gives ruleBody (m s) a s₁

variable {α β : Type} {a : α} {b : β}

theorem Gets.pure (a : α) (s : PState) : Gets (Pure.pure a) s a s := Gives.ret a s

theorem Gets.seq {m : ParseM α} {f : α → ParseM β} (h : Gets m s a s₁) (hf : Gets (f a) s₁ b s₂) :
    Gets (m >>= f) s b s₂ := Gives.bind h hf

theorem Gets.call {r : Rule} {o : Option CompletedMarker} (h : Gets (ruleBody r) s o s₁) :
    Gets (Proc.call r) s o s₁ := Gives.call h (Gives.ret o s₁)

theorem Gets.question {m : ParseM (Option α)} {f : α → ParseM (Option β)} {o : Option β}
    (h : Gets m s (some a) s₁) (hf : Gets (f a) s₁ o s₂) : Gets (Parser.question m f) s o s₂ :=
  Gets.seq h hf

theorem Gets.start {f : Marker → ParseM β}
    (h : Gets (f { position := s.events.length, kind := kind }) (s.push (Event.enter kind 0))
      b s₁) :
    Gets (Parser.start kind >>= f) s b s₁ := h

theorem Gets.complete {marker : Marker} {f : CompletedMarker → ParseM β}
    (h : Gets (f { position := marker.position, kind := marker.kind }) (s.push Event.exit) b s₁) :
    Gets (Parser.complete marker >>= f) s b s₁ := h

theorem Gets.completed (marker : Marker) (s : PState) :
    Gets (Parser.completed marker) s
      (some { position := marker.position, kind := marker.kind }) (s.push Event.exit) :=
  Gives.ret _ _

/-- The token that is ahead is passed. -/
theorem Gets.expect {f : Bool → ParseM β} (hahead : s.ahead = l :: ls) (hls : ls ≠ [])
    (h : Gets (f true) (bumped s) b s₁) : Gets (Parser.expect l.kind >>= f) s b s₁ := by
  refine Gets.seq ?_ h
  rw [Gets, expect_here (atKind_of_ahead hahead) (next_of_ahead hahead hls)]
  exact Gives.ret true _

theorem Gets.precede {f : Marker → ParseM β} (hplaced : Placed lhs s)
    (h : Gets (f { position := s.events.length, kind := kind }) (preceded s lhs kind) b s₁) :
    Gets (Parser.precede lhs kind >>= f) s b s₁ := by
  refine Gets.seq ?_ h
  rw [Gets, precede_placed hplaced]
  exact Gives.ret _ _

theorem rIdent_gets {x : String} (hahead : s.ahead = nameLexeme x :: ls) (hls : ls ≠ []) :
    ∃ s₁, Gets rIdent s (some { position := s.events.length, kind := ident }) s₁ ∧
      Builds s s₁ { position := s.events.length, kind := ident }
        (TextCall.node ident [TextCall.token (nameLexeme x)]) ls := by
  refine ⟨_, Gets.start (@Gets.expect _ _ (nameLexeme x) _ _ _ _ hahead hls
    (Gets.completed _ _)), ?_⟩
  exact Adds.node (by decide) (Adds.token hahead)

/-! ### The loop of an expression -/

variable {bp : ℕ}

theorem loop_stops (h : Continues s.atKind bp = false) :
    Gets (rExprLoop bp lhs) s (some lhs) s := by
  rw [Continues, Bool.or_eq_false_iff, Bool.or_eq_false_iff, Bool.or_eq_false_iff] at h
  obtain ⟨⟨⟨hcolon, hparen⟩, hbracket⟩, hinfix⟩ := h
  show Gives ruleBody ((if s.atKind = colon then _ else _ : RuleM) s) _ _
  rw [if_neg (of_decide_eq_false hcolon), if_neg (by simpa using hparen),
    if_neg (by simpa using hbracket)]
  cases hpower : infixBindingPower s.atKind with
  | none => exact Gives.ret _ _
  | some p =>
      rw [hpower] at hinfix
      dsimp only at hinfix ⊢
      rw [if_pos (Nat.lt_of_not_le (of_decide_eq_false hinfix))]
      exact Gives.ret _ _

theorem loop_method (hat : s.atKind = colon) :
    rExprLoop bp lhs s = (precede lhs methodCall >>= fun n => question (rMethodCall n) fun lhs =>
      Proc.call (Rule.exprLoop bp lhs) : RuleM) s := by
  show (if s.atKind = colon then _ else _ : RuleM) s = _
  rw [if_pos hat]

theorem loop_call (hat : s.atKind = lParen) (hbp : bp ≤ UNARY_POWER) :
    rExprLoop bp lhs s = (precede lhs funcCall >>= fun n => question rFuncCallArgs fun _ =>
      complete n >>= fun lhs => Proc.call (Rule.exprLoop bp lhs) : RuleM) s := by
  have hstrong : bp ≤ CALL_BINDING_POWER := Nat.le_succ_of_le hbp
  show (if s.atKind = colon then _ else _ : RuleM) s = _
  rw [hat, if_neg (by decide), if_pos ⟨rfl, hstrong⟩]

theorem loop_index (hat : s.atKind = lBracket) (hbp : bp ≤ UNARY_POWER) :
    rExprLoop bp lhs s = (precede lhs SyntaxKind.index >>= fun n => expect lBracket >>= fun _ =>
      question (Proc.call (Rule.operand 0)) fun _ => expect rBracket >>= fun _ =>
        complete n >>= fun lhs => Proc.call (Rule.exprLoop bp lhs) : RuleM) s := by
  have hstrong : bp ≤ INDEX_BINDING_POWER := Nat.le_succ_of_le hbp
  show (if s.atKind = colon then _ else _ : RuleM) s = _
  rw [hat, if_neg (by decide), if_neg (by rintro ⟨h, -⟩; exact nomatch h),
    if_pos ⟨rfl, hstrong⟩]

theorem loop_field (hat : s.atKind = dot) (hbp : bp ≤ UNARY_POWER) :
    rExprLoop bp lhs s = (precede lhs binOp >>= fun n => expect dot >>= fun _ =>
      question rIdent fun _ => complete n >>= fun lhs =>
        Proc.call (Rule.exprLoop bp lhs) : RuleM) s := by
  have hstrong : ¬ 24 < bp := Nat.not_lt.mpr (Nat.le_trans hbp (Nat.le_add_right 21 3))
  show (if s.atKind = colon then _ else _ : RuleM) s = _
  rw [hat, if_neg (by decide), if_neg (by rintro ⟨h, -⟩; exact nomatch h),
    if_neg (by rintro ⟨h, -⟩; exact nomatch h)]
  show (if 24 < bp then _ else _ : RuleM) s = _
  rw [if_neg hstrong, if_pos rfl]

theorem loop_binary {op : BinaryOp} (hat : s.atKind = op.lexeme.kind) (hbp : bp ≤ op.leftPower) :
    rExprLoop bp lhs s = (precede lhs binOp >>= fun n => expect op.lexeme.kind >>= fun _ =>
      question (Proc.call (Rule.operand op.rightPower)) fun _ => complete n >>= fun lhs =>
        Proc.call (Rule.exprLoop bp lhs) : RuleM) s := by
  have hne : ∀ k ∈ [colon, lParen, lBracket, dot], op.lexeme.kind ≠ k := by
    cases op <;> decide
  show (if s.atKind = colon then _ else _ : RuleM) s = _
  rw [hat, if_neg (hne _ (by decide)), if_neg (fun h => hne _ (by decide) h.1),
    if_neg (fun h => hne _ (by decide) h.1), op.infix_eq]
  dsimp only
  rw [if_neg (Nat.not_lt.mpr hbp), if_neg (hne _ (by decide))]

theorem lhs_name (hat : s.atKind = ident) : rExprLhs s = rIdent s := by
  show (if s.atKind = ident then _ else _ : RuleM) s = _
  rw [if_pos hat]

theorem lhs_paren (hat : s.atKind = lParen) : rExprLhs s = Parser.rParen s := by
  show (if s.atKind = ident then _ else _ : RuleM) s = _
  rw [hat, if_neg (by decide), if_neg (by decide), if_neg (by decide), if_pos rfl]

theorem lhs_unary {op : UnaryOp} (hat : s.atKind = op.lexeme.kind) : rExprLhs s = rExprUnary s := by
  have hne : ∀ k ∈ [ident, tDot, lCurly, lParen, functionKw], op.lexeme.kind ≠ k := by
    cases op <;> decide
  have hunary : tokenIsUnaryOp op.lexeme.kind = true := by cases op <;> rfl
  show (if s.atKind = ident then _ else _ : RuleM) s = _
  rw [hat, if_neg (hne _ (by decide)), if_neg (hne _ (by decide)), if_neg (hne _ (by decide)),
    if_neg (hne _ (by decide)), if_neg (hne _ (by decide)), if_pos hunary]

/-! ### Trees -/

/-- A rule reads the tree, and its loop goes on behind it. -/
def Parses (e : ExprTree) : Prop :=
  ∀ (bp : ℕ) (s : PState) (l : Lexeme) (ls : List Lexeme), bp ≤ UNARY_POWER → bp ≤ e.power →
    s.ahead = e.print ++ l :: ls → e.Closed l.kind →
      ∃ s₁ lhs, Builds s s₁ lhs e.calls (l :: ls) ∧
        ∀ o s₂, Gets (rExprLoop bp lhs) s₁ o s₂ → Gets (rExprInner bp) s o s₂

/-- Where the rule does not go on, it has read the tree. -/
theorem Parses.whole {e : ExprTree} (h : Parses e) (hbp : bp ≤ UNARY_POWER) (hpower : bp ≤ e.power)
    (hahead : s.ahead = e.print ++ l :: ls) (hclosed : e.Closed l.kind)
    (hstop : Continues l.kind bp = false) :
    ∃ s₁ lhs, Builds s s₁ lhs e.calls (l :: ls) ∧
      Gets (Proc.call (Rule.expr bp)) s (some lhs) s₁ := by
  obtain ⟨s₁, lhs, hbuilds, hgo⟩ := h bp s l ls hbp hpower hahead hclosed
  have hat := atKind_of_ahead hbuilds.ahead
  exact ⟨s₁, lhs, hbuilds, Gets.call (hgo _ _ (loop_stops (by rw [hat]; exact hstop)))⟩

/-- In brackets every tree is read. -/
theorem Parses.inner {e : ExprTree} (h : Parses e) (hahead : s.ahead = e.print ++ l :: ls)
    (hstop : Continues l.kind 0 = false) :
    ∃ s₁ lhs, Builds s s₁ lhs e.calls (l :: ls) ∧
      Gets (Proc.call (Rule.expr 0)) s (some lhs) s₁ :=
  h.whole (Nat.zero_le _) (Nat.zero_le _) hahead (closed_of_stop hstop e) hstop

/-- A tree begins with a token that closes nothing. -/
theorem print_head (e : ExprTree) : ∃ l ls, e.print = l :: ls ∧ l.kind ≠ SyntaxKind.rParen := by
  induction e using ExprTree.induct with
  | name x => exact ⟨nameLexeme x, [], by rw [print], fun h => (nomatch h)⟩
  | paren e ih => exact ⟨lParenLexeme, _, by rw [print], by decide⟩
  | unary op e ih => exact ⟨op.lexeme, _, by rw [print], by cases op <;> decide⟩
  | field e x ih =>
      obtain ⟨l, ls, heq, hne⟩ := ih
      exact ⟨l, _, by rw [print, heq, List.cons_append], hne⟩
  | index e i ih ihi =>
      obtain ⟨l, ls, heq, hne⟩ := ih
      exact ⟨l, _, by rw [print, heq, List.cons_append], hne⟩
  | call f args ih iha =>
      obtain ⟨l, ls, heq, hne⟩ := ih
      exact ⟨l, _, by rw [print, heq, List.cons_append], hne⟩
  | method e x args ih iha =>
      obtain ⟨l, ls, heq, hne⟩ := ih
      exact ⟨l, _, by rw [print, heq, List.cons_append], hne⟩
  | binary op a b ih ihb =>
      obtain ⟨l, ls, heq, hne⟩ := ih
      exact ⟨l, _, by rw [print, heq, List.cons_append], hne⟩

/-- Arguments are read up to their parenthesis. -/
theorem rCallArgsLoop_gets {args : List ExprTree} (h : ∀ a ∈ args, Parses a) :
    ∀ {s : PState}, s.ahead = printArgs args ++ l :: ls →
      ∃ o s₁, Gets rCallArgsLoop s o s₁ ∧ Adds s s₁ (callsArgs args) (l :: ls) := by
  have hloop : ∀ {s : PState} {o : Option CompletedMarker} {s₁ : PState},
      s.atKind ≠ SyntaxKind.rParen →
        Gets (rExpr >>= fun _ => atKind >>= fun t =>
          if t = comma then expect comma >>= fun _ => Proc.call Rule.callArgsLoop
          else expect SyntaxKind.rParen >>= fun _ => pure none : RuleM) s o s₁ →
          Gets rCallArgsLoop s o s₁ := by
    intro s o s₁ hat hgets
    show Gives ruleBody ((if s.atKind = SyntaxKind.rParen then _ else _ : RuleM) s) _ _
    rw [if_neg hat]
    exact hgets
  induction args with
  | nil =>
      intro s hahead
      rw [printArgs] at hahead
      have hat : s.atKind = SyntaxKind.rParen := atKind_of_ahead hahead
      refine ⟨none, bumped s, ?_, ?_⟩
      · show Gives ruleBody ((if s.atKind = SyntaxKind.rParen then _ else _ : RuleM) s) _ _
        rw [if_pos hat]
        exact @Gets.expect _ _ rParenLexeme _ _ _ _ hahead (List.cons_ne_nil l ls) (Gets.pure _ _)
      · rw [callsArgs]
        exact Adds.token hahead
  | cons a args ih =>
      intro s hahead
      have ha : Parses a := h a List.mem_cons_self
      obtain ⟨l₀, ls₀, hhead, hne⟩ := print_head a
      cases args with
      | nil =>
          rw [printArgs, List.append_assoc] at hahead
          obtain ⟨s₁, m, hbuilds, hgets⟩ := ha.inner hahead rfl
          have hat : s.atKind ≠ SyntaxKind.rParen := by
            rw [hhead, List.cons_append] at hahead
            rwa [atKind_of_ahead hahead]
          have hat₁ : s₁.atKind = SyntaxKind.rParen := atKind_of_ahead hbuilds.ahead
          refine ⟨none, bumped s₁, hloop hat (Gets.seq hgets ?_), ?_⟩
          · show Gives ruleBody ((if s₁.atKind = comma then _ else _ : RuleM) s₁) _ _
            rw [hat₁, if_neg (by decide)]
            exact @Gets.expect _ _ rParenLexeme _ _ _ _ hbuilds.ahead (List.cons_ne_nil l ls)
              (Gets.pure _ _)
          · rw [callsArgs]
            exact hbuilds.adds.trans (Adds.token hbuilds.ahead)
      | cons b args =>
          rw [printArgs, List.append_assoc] at hahead
          obtain ⟨s₁, m, hbuilds, hgets⟩ := ha.inner hahead rfl
          have hat : s.atKind ≠ SyntaxKind.rParen := by
            rw [hhead, List.cons_append] at hahead
            rwa [atKind_of_ahead hahead]
          have hat₁ : s₁.atKind = comma := atKind_of_ahead hbuilds.ahead
          have hnext := (ahead_cons hbuilds.ahead).2.2
          obtain ⟨o, s₂, hrest, hadds⟩ := ih (fun c hc => h c (List.mem_cons_of_mem _ hc)) hnext
          have hmore : printArgs (b :: args) ++ l :: ls ≠ [] :=
            List.append_ne_nil_of_right_ne_nil _ (List.cons_ne_nil l ls)
          refine ⟨o, s₂, hloop hat (Gets.seq hgets ?_), ?_⟩
          · show Gives ruleBody ((if s₁.atKind = comma then _ else _ : RuleM) s₁) _ _
            rw [if_pos hat₁]
            exact @Gets.expect _ _ commaLexeme _ _ _ _ hbuilds.ahead hmore (Gets.call hrest)
          · rw [callsArgs]
            exact hbuilds.adds.trans ((Adds.token hbuilds.ahead).trans hadds)

theorem rFuncCallArgs_gets {args : List ExprTree} (h : ∀ a ∈ args, Parses a)
    (hahead : s.ahead = lParenLexeme :: (printArgs args ++ l :: ls)) :
    ∃ s₁, Gets rFuncCallArgs s (some { position := s.events.length, kind := funcArgs }) s₁ ∧
      Builds s s₁ { position := s.events.length, kind := funcArgs }
        (TextCall.node funcArgs (TextCall.token lParenLexeme :: callsArgs args)) (l :: ls) := by
  have hopen : (s.push (Event.enter funcArgs 0)).ahead =
      lParenLexeme :: (printArgs args ++ l :: ls) := hahead
  have hmore : printArgs args ++ l :: ls ≠ [] :=
    List.append_ne_nil_of_right_ne_nil _ (List.cons_ne_nil l ls)
  obtain ⟨o, s₁, hgets, hadds⟩ := rCallArgsLoop_gets h (ahead_cons hopen).2.2
  refine ⟨s₁.push Event.exit, Gets.start (@Gets.expect _ _ lParenLexeme _ _ _ _ hopen hmore
    (Gets.seq (Gets.call hgets) (Gets.completed _ _))), ?_⟩
  exact Adds.node (by decide) ((Adds.token hopen).trans hadds)

/-! ### The round trip -/

/-- Behind a prefix expression the loop puts a suffix. -/
theorem Parses.suffix {e e' : ExprTree} {suffix : List Lexeme} {l' : Lexeme}
    (he : Parses e) (hhead : e.needsPrefix = false)
    (hprint : ∀ ls, e'.print ++ ls = e.print ++ l' :: (suffix ++ ls))
    (hsuffix : ∀ {bp : ℕ} {s s₁ : PState} {lhs : CompletedMarker} {l : Lexeme} {ls : List Lexeme},
      bp ≤ UNARY_POWER → Builds s s₁ lhs e.calls (l' :: (suffix ++ l :: ls)) →
        ∃ s₂ lhs', Builds s s₂ lhs' e'.calls (l :: ls) ∧
          ∀ o s₃, Gets (rExprLoop bp lhs') s₂ o s₃ → Gets (rExprLoop bp lhs) s₁ o s₃) :
    Parses e' := by
  intro bp s l ls hbp _ hahead _
  rw [hprint] at hahead
  obtain ⟨s₁, lhs, hbuilds, hgo⟩ := he _ _ _ _ hbp (Nat.le_trans hbp (power_of_head hhead)) hahead
    (closed_of_head hhead l'.kind)
  obtain ⟨s₂, lhs', hbuilds', hloop⟩ := hsuffix hbp hbuilds
  exact ⟨s₂, lhs', hbuilds', fun o s₃ hrest => hgo o s₃ (hloop o s₃ hrest)⟩

theorem Parses.name (x : String) : Parses (ExprTree.name x) := by
  intro bp s l ls _ _ hahead _
  rw [print] at hahead
  have hat := atKind_of_ahead hahead
  obtain ⟨s₁, hgets, hbuilds⟩ := rIdent_gets hahead (List.cons_ne_nil l ls)
  refine ⟨s₁, _, by rw [calls]; exact hbuilds, fun o s₂ hrest => ?_⟩
  refine Gets.question ?_ (Gets.call hrest)
  rw [Gets, lhs_name hat]
  exact hgets

theorem Parses.paren {e : ExprTree} (h : Parses e) : Parses (ExprTree.paren e) := by
  intro bp s l ls _ _ hahead _
  rw [print, List.cons_append, List.append_assoc] at hahead
  have hat := atKind_of_ahead hahead
  have hopen : (s.push (Event.enter expr 0)).ahead =
    lParenLexeme :: (e.print ++ ([rParenLexeme] ++ l :: ls)) := hahead
  obtain ⟨s₁, m, hbuilds, hgets⟩ := h.inner (ahead_cons hopen).2.2 rfl
  have hmore : e.print ++ ([rParenLexeme] ++ l :: ls) ≠ [] :=
    List.append_ne_nil_of_right_ne_nil _ (List.cons_ne_nil _ _)
  refine ⟨(bumped s₁).push Event.exit, { position := s.events.length, kind := expr }, ?_,
    fun o s₂ hrest => ?_⟩
  · rw [calls]
    exact Adds.node (by decide)
      ((Adds.token hopen).trans (hbuilds.adds.trans (Adds.token hbuilds.ahead)))
  · refine Gets.question ?_ (Gets.call hrest)
    rw [Gets, lhs_paren hat]
    refine Gets.start (@Gets.expect _ _ lParenLexeme _ _ _ _ hopen hmore ?_)
    refine Gets.question (Gets.call hgets) ?_
    exact @Gets.expect _ _ rParenLexeme _ _ _ _ hbuilds.ahead (List.cons_ne_nil l ls)
      (Gets.completed _ _)

theorem Parses.unary {op : UnaryOp} {e : ExprTree} (h : Parses e) (hunary : e.needsUnary = false) :
    Parses (ExprTree.unary op e) := by
  intro bp s l ls _ _ hahead hclosed
  obtain ⟨hstop, hclosed⟩ := hclosed
  rw [print, List.cons_append] at hahead
  have hat := atKind_of_ahead hahead
  have hopen : (s.push (Event.enter prefixOp 0)).ahead = op.lexeme :: (e.print ++ l :: ls) := hahead
  obtain ⟨s₁, m, hbuilds, hgets⟩ := h.whole (Nat.le_refl _) (power_unary hunary)
    (ahead_cons hopen).2.2 hclosed hstop
  have hmore : e.print ++ l :: ls ≠ [] :=
    List.append_ne_nil_of_right_ne_nil _ (List.cons_ne_nil l ls)
  refine ⟨s₁.push Event.exit, { position := s.events.length, kind := prefixOp }, ?_,
    fun o s₂ hrest => ?_⟩
  · rw [calls]
    exact Adds.node (by decide) ((Adds.token hopen).trans hbuilds.adds)
  · refine Gets.question ?_ (Gets.call hrest)
    rw [Gets, lhs_unary hat]
    refine Gets.start ?_
    have hkind := atKind_of_ahead hopen
    show Gets (expect (s.push (Event.enter prefixOp 0)).atKind >>= _) _ _ _
    rw [hkind]
    refine Gets.expect hopen hmore ?_
    rw [op.prefix_eq]
    exact Gets.seq hgets (Gets.completed _ _)

theorem Parses.field {e : ExprTree} (x : String) (h : Parses e) (hhead : e.needsPrefix = false) :
    Parses (ExprTree.field e x) := by
  have hprint : ∀ ls, (ExprTree.field e x).print ++ ls =
      e.print ++ dotLexeme :: ([nameLexeme x] ++ ls) := by
    intro ls
    rw [print, List.append_assoc]
    rfl
  refine h.suffix hhead hprint ?_
  intro bp s s₁ lhs l ls hbp hbuilds
  have hahead : (preceded s₁ lhs binOp).ahead = dotLexeme :: ([nameLexeme x] ++ l :: ls) :=
    hbuilds.ahead
  obtain ⟨s₂, hident, hname⟩ := rIdent_gets (ahead_cons hahead).2.2 (List.cons_ne_nil l ls)
  refine ⟨s₂.push Event.exit, { position := s₁.events.length, kind := binOp }, ?_,
    fun o s₃ hrest => ?_⟩
  · rw [calls]
    exact hbuilds.link (by decide) ((Adds.token hahead).trans hname.adds)
  · rw [Gets, loop_field (atKind_of_ahead hbuilds.ahead) hbp]
    refine Gets.precede hbuilds.placed ?_
    refine @Gets.expect _ _ dotLexeme _ _ _ _ hahead (List.cons_ne_nil _ _) ?_
    exact Gets.question hident (Gets.complete (Gets.call hrest))

theorem Parses.index {e i : ExprTree} (h : Parses e) (hhead : e.needsPrefix = false)
    (hi : Parses i) : Parses (ExprTree.index e i) := by
  have hprint : ∀ ls, (ExprTree.index e i).print ++ ls =
      e.print ++ lBracketLexeme :: (i.print ++ [rBracketLexeme] ++ ls) := by
    intro ls
    rw [print, List.append_assoc, List.cons_append]
  refine h.suffix hhead hprint ?_
  intro bp s s₁ lhs l ls hbp hbuilds
  have hahead : (preceded s₁ lhs SyntaxKind.index).ahead =
      lBracketLexeme :: (i.print ++ [rBracketLexeme] ++ l :: ls) := hbuilds.ahead
  have hinner := (ahead_cons hahead).2.2
  rw [List.append_assoc] at hinner
  obtain ⟨s₂, m, hbuilds', hgets⟩ := hi.inner hinner rfl
  refine ⟨(bumped s₂).push Event.exit,
    { position := s₁.events.length, kind := SyntaxKind.index }, ?_, fun o s₃ hrest => ?_⟩
  · rw [calls]
    exact hbuilds.link (by decide)
      ((Adds.token hahead).trans (hbuilds'.adds.trans (Adds.token hbuilds'.ahead)))
  · rw [Gets, loop_index (atKind_of_ahead hbuilds.ahead) hbp]
    refine Gets.precede hbuilds.placed ?_
    refine @Gets.expect _ _ lBracketLexeme _ _ _ _ hahead
      (List.append_ne_nil_of_right_ne_nil _ (List.cons_ne_nil l ls)) ?_
    refine Gets.question (Gets.call hgets) ?_
    exact @Gets.expect _ _ rBracketLexeme _ _ _ _ hbuilds'.ahead (List.cons_ne_nil l ls)
      (Gets.complete (Gets.call hrest))

theorem Parses.call {f : ExprTree} {args : List ExprTree} (h : Parses f)
    (hhead : f.needsPrefix = false) (hargs : ∀ a ∈ args, Parses a) :
    Parses (ExprTree.call f args) := by
  have hprint : ∀ ls, (ExprTree.call f args).print ++ ls =
      f.print ++ lParenLexeme :: (printArgs args ++ ls) := by
    intro ls
    rw [print, List.append_assoc, List.cons_append]
  refine h.suffix hhead hprint ?_
  intro bp s s₁ lhs l ls hbp hbuilds
  have hahead : (preceded s₁ lhs funcCall).ahead =
      lParenLexeme :: (printArgs args ++ l :: ls) := hbuilds.ahead
  obtain ⟨s₂, hgets, hbuilds'⟩ := rFuncCallArgs_gets hargs hahead
  refine ⟨s₂.push Event.exit, { position := s₁.events.length, kind := funcCall }, ?_,
    fun o s₃ hrest => ?_⟩
  · rw [calls]
    exact hbuilds.link (by decide) hbuilds'.adds
  · rw [Gets, loop_call (atKind_of_ahead hbuilds.ahead) hbp]
    refine Gets.precede hbuilds.placed ?_
    exact Gets.question hgets (Gets.complete (Gets.call hrest))

theorem Parses.method {e : ExprTree} {args : List ExprTree} (x : String) (h : Parses e)
    (hhead : e.needsPrefix = false) (hargs : ∀ a ∈ args, Parses a) :
    Parses (ExprTree.method e x args) := by
  have hprint : ∀ ls, (ExprTree.method e x args).print ++ ls =
      e.print ++ colonLexeme :: (nameLexeme x :: lParenLexeme :: printArgs args ++ ls) := by
    intro ls
    rw [print, List.append_assoc, List.cons_append]
  refine h.suffix hhead hprint ?_
  intro bp s s₁ lhs l ls _ hbuilds
  have hahead : (preceded s₁ lhs methodCall).ahead =
      colonLexeme :: (nameLexeme x :: lParenLexeme :: printArgs args ++ l :: ls) := hbuilds.ahead
  obtain ⟨s₂, hident, hname⟩ := rIdent_gets (ahead_cons hahead).2.2 (List.cons_ne_nil _ _)
  obtain ⟨s₃, hgets, hcall⟩ := rFuncCallArgs_gets hargs hname.ahead
  refine ⟨s₃.push Event.exit, { position := s₁.events.length, kind := methodCall }, ?_,
    fun o s₄ hrest => ?_⟩
  · rw [calls]
    exact hbuilds.link (by decide)
      ((Adds.token hahead).trans (hname.adds.trans hcall.adds))
  · rw [Gets, loop_method (atKind_of_ahead hbuilds.ahead)]
    refine Gets.precede hbuilds.placed ?_
    refine Gets.question ?_ (Gets.call hrest)
    refine @Gets.expect _ _ colonLexeme _ _ _ _ hahead (List.cons_ne_nil _ _) ?_
    exact Gets.question hident (Gets.question hgets (Gets.completed _ _))

theorem Parses.binary {op : BinaryOp} {a b : ExprTree} (ha : Parses a)
    (hleft : needsLeft op a = false) (hclosedLeft : a.Closed op.lexeme.kind) (hb : Parses b)
    (hright : needsRight op b = false) : Parses (ExprTree.binary op a b) := by
  intro bp s l ls hbp hpower hahead hclosed
  obtain ⟨hstop, hclosed⟩ := hclosed
  have hpower : bp ≤ op.leftPower := hpower
  have hlimit : op.rightPower ≤ UNARY_POWER := by
    have hop := op.powers
    show op.rightPower ≤ 21
    omega
  rw [print, List.append_assoc, List.cons_append] at hahead
  obtain ⟨s₁, lhs, hbuilds, hgo⟩ := ha _ _ _ _ hbp (Nat.le_trans hpower (power_left hleft))
    hahead hclosedLeft
  have hahead₁ : (preceded s₁ lhs binOp).ahead = op.lexeme :: (b.print ++ l :: ls) := hbuilds.ahead
  obtain ⟨s₂, m, hbuilds', hgets⟩ := hb.whole hlimit (power_right hright)
    (ahead_cons hahead₁).2.2 hclosed hstop
  refine ⟨s₂.push Event.exit, { position := s₁.events.length, kind := binOp }, ?_,
    fun o s₃ hrest => hgo o s₃ ?_⟩
  · rw [calls]
    exact hbuilds.link (by decide) ((Adds.token hahead₁).trans hbuilds'.adds)
  · rw [Gets, loop_binary (atKind_of_ahead hbuilds.ahead) hpower]
    refine Gets.precede hbuilds.placed ?_
    refine Gets.expect hahead₁ (List.append_ne_nil_of_right_ne_nil _ (List.cons_ne_nil l ls)) ?_
    exact Gets.question (Gets.call hgets) (Gets.complete (Gets.call hrest))

/-- **Trees that have the parentheses they need are read.** -/
theorem ExprTree.Proper.parses {e : ExprTree} (h : Proper e) : Parses e := by
  induction h with
  | name x => exact Parses.name x
  | paren _ ih => exact ih.paren
  | field x _ hhead ih => exact ih.field x hhead
  | index _ hhead _ ih ihi => exact ih.index hhead ihi
  | call _ hhead _ ih iha => exact ih.call hhead iha
  | method x _ hhead _ ih iha => exact ih.method x hhead iha
  | unary op _ hunary ih => exact ih.unary hunary
  | binary op ha hleft _ hright iha ihb => exact iha.binary hleft (ha.closed hleft) ihb hright

/-- What the parser makes of a tree: the rule for expressions reads exactly its tokens, without a
report, and the sink builds exactly its node. -/
def ReadBack (e : ExprTree) (s : PState) (rest : List Lexeme) : Prop :=
  ∃ n lhs s₁, (run ruleBody n (Rule.expr 0) s).1 = Ending.done (some lhs) s₁ ∧
    s₁.reports = s.reports ∧ s₁.tokens = s.tokens ∧ s₁.ahead = rest ∧
    ∃ seg built, s₁.events = s.events ++ seg ∧ sink seg.length seg = some built ∧
      built.map (BuilderCall.withText s.source) = e.calls

theorem ExprTree.Proper.readBack {e : ExprTree} (h : Proper e)
    (hahead : s.ahead = e.print ++ l :: ls) (hstop : Continues l.kind 0 = false) :
    ReadBack e s (l :: ls) := by
  obtain ⟨s₁, lhs, hbuilds, hgo⟩ := h.parses 0 s l ls (Nat.zero_le _) (Nat.zero_le _) hahead
    (closed_of_stop hstop e)
  have hat := atKind_of_ahead hbuilds.ahead
  have hgets : Gets (rExprInner 0) s (some lhs) s₁ :=
    hgo _ _ (loop_stops (by rw [hat]; exact hstop))
  obtain ⟨n, hrun⟩ := @Gives.run _ _ _ ruleBody (Rule.expr 0) _ _ _ hgets
  obtain ⟨seg, built, hseg, hnested, hcalls⟩ := hbuilds.adds.events
  exact ⟨n, lhs, s₁, hrun, hbuilds.reports, hbuilds.tokens, hbuilds.ahead, seg, built, hseg,
    hnested.sink_eq, hcalls⟩

/-- **What is written with the fewest parentheses is read back**: the tree that is built is that of
the expression, and of no other.  Parentheses were added where they are needed only, so none if none
are, and with fewer the precedence would not be kept. -/
theorem expr_round_trip (e : ExprTree) (s : PState) (l : Lexeme) (ls : List Lexeme)
    (hahead : s.ahead = e.minimal.print ++ l :: ls) (hstop : Continues l.kind 0 = false) :
    ReadBack e.minimal s (l :: ls) ∧
      (∀ e' : ExprTree, e'.calls = e.minimal.calls → e' = e.minimal) ∧
      Parenthesised e e.minimal ∧ (Proper e → e.minimal = e) ∧
      ∀ e', Parenthesised e e' → Proper e' → e.minimal.print.length ≤ e'.print.length :=
  ⟨(minimal_proper e).readBack hahead hstop, fun _ h => calls_injective h, parenthesised_minimal e,
    minimal_of_proper, fun _ => minimal_length_le⟩

/-- The texts of `(a + b) * -c ^ d`, behind the text of the end. -/
def productTexts : List String := ["", "(", "a", "+", "b", ")", "*", "-", "c", "^", "d"]

/-- A product of a sum and a negated power. -/
def productTree : ExprTree :=
  ExprTree.binary BinaryOp.mul
    (ExprTree.binary BinaryOp.add (ExprTree.name "a") (ExprTree.name "b"))
    (ExprTree.unary UnaryOp.neg
      (ExprTree.binary BinaryOp.pow (ExprTree.name "c") (ExprTree.name "d")))

/-- Its tokens. -/
def productState : PState :=
  PState.new
    ([lParen, ident, plus, ident, SyntaxKind.rParen, star, minus, ident, caret, ident].zipIdx.map
      fun t => { kind := t.1, span := { start := t.2 + 1, stop := t.2 + 1 } })
    fun span => productTexts.getD span.start ""

theorem expr_round_trip_product :
    productState.ahead = productTree.minimal.print ++ [{ kind := eof, text := "" }] ∧
      Continues eof 0 = false ∧
      ReadBack productTree.minimal productState [{ kind := eof, text := "" }] :=
  ⟨rfl, rfl, (expr_round_trip productTree productState { kind := eof, text := "" } [] rfl rfl).1⟩

end Tcvm.Parser
