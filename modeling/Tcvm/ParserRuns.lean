/-
# Runs of the parser

A run of the parser is a tree of calls.  Each loop passes a token from one round to the next, so the
run ends, unless a block is still open at the end of the input: there no statement begins, nothing
is passed, and the block asks for a statement again.  In a run that ends the events are nested,
unless an operand or a parameter was missing: then the marker that was started for it is dropped,
and the node that it started is never finished.

## Main definitions

* `Rule.sameLoop` — two calls are rounds of one loop;
* `OpenAtEnd` — a block is asked for a statement at the end of the input;
* `ParseEnds` — the parser returns, its loops pass tokens, and the cursor stays in range;
* `ParseBrackets` — the sink makes one well-bracketed tree of the tokens that were passed.

## Main results

* `blockLoop_diverges` — an open block at the end of the input is not survived;
* `parse_ends_iff` — **the parser comes to an end** exactly when no block is open at the end;
* `parse_brackets_iff` — **the events are well bracketed** exactly when nothing was missing.
-/

import Tcvm.ParserStatements

namespace Tcvm.Parser

open OpenRecursion SyntaxKind

/-! ### Rounds of loops -/

/-- Calls of one loop or rule, whatever it extends. -/
def Rule.sameLoop : Rule → Rule → Bool
  | root, root => true
  | items, items => true
  | stmt, stmt => true
  | blockLoop _, blockLoop _ => true
  | ifRule _, ifRule _ => true
  | expr _, expr _ => true
  | operand _, operand _ => true
  | exprLoop _ _, exprLoop _ _ => true
  | exprListLoop, exprListLoop => true
  | callArgsLoop, callArgsLoop => true
  | defArgsLoop _, defArgsLoop _ => true
  | tableLoop, tableLoop => true
  | simpleExprLoop _ _, simpleExprLoop _ _ => true
  | commaLoop _, commaLoop _ => true
  | _, _ => false

theorem rank_of_sameLoop {r r' : Rule} (h : r.sameLoop r' = true) : r'.rank = r.rank := by
  cases r <;> cases r' <;> first | rfl | cases h

variable {tokens : List Token} {source : Span → String}

/-- A call that the parser makes. -/
def Made (tokens : List Token) (source : Span → String) (c : Rule × PState) : Prop :=
  Reached ruleBody Rule.root (PState.new tokens source) c

/-- A block is asked for a statement at the end of the input. -/
def OpenAtEnd (c : Rule × PState) : Bool :=
  match c.1 with
  | Rule.blockLoop _ => decide (c.2.atKind = eof)
  | _ => false

theorem exempt_iff (r : Rule) (s : PState) :
    (parserContract tokens).Exempt r s ↔ OpenAtEnd (r, s) = true := by
  cases r <;> simp [parserContract, OpenAtEnd]

theorem inRange_new (tokens : List Token) (source : Span → String) :
    InRange (PState.new tokens source) where
  lt := by simp [PState.new]
  last := ⟨tokens, rfl⟩

theorem root_pre (tokens : List Token) (source : Span → String) :
    (parserContract (tokens ++ [eofToken])).Pre Rule.root (PState.new tokens source) :=
  ⟨⟨inRange_new tokens source, trivial⟩, rfl⟩

/-- Every call is made at a token of the input. -/
theorem made_pre {c : Rule × PState} (h : Made tokens source c) :
    RulePre c.1 c.2 ∧ c.2.tokens = tokens ++ [eofToken] := by
  obtain ⟨n, hc⟩ := h
  exact Contract.run_pre (parserContract_valid _) n (root_pre tokens source) c hc

/-! ### The end of the input -/

/-- No statement begins at the end of the input. -/
theorem stmt_at_eof {s : PState} (h : s.atKind = eof) (n : ℕ) :
    run ruleBody (n + 1) Rule.stmt s = (Ending.done none s, [(Rule.stmt, s)]) := by
  have hbody : rStmt s = Prog.ret none s := by
    show Prog.bind (rStmtOf s.atKind s) _ = _
    rw [h]
    show (if s.atKind = eof then (pure none : RuleM) else _) s = _
    rw [if_pos h]
    rfl
  show ((exec (run ruleBody n) (rStmt s)).1,
    (Rule.stmt, s) :: (exec (run ruleBody n) (rStmt s)).2) = _
  rw [hbody]
  rfl

/-- **A block that is open at the end of the input asks for statements forever.** -/
theorem blockLoop_diverges {stop : BlockEnd} {s : PState} (h : s.atKind = eof) :
    ¬Terminates ruleBody (Rule.blockLoop stop) s := by
  have hstop : stop.stops s.atKind = false := by
    rw [h]
    cases stop <;> rfl
  have hbody : rBlockLoop stop s =
      Prog.call Rule.stmt s fun _ t => Prog.call (Rule.blockLoop stop) t Prog.ret := by
    show (if stop.stops s.atKind = true then (pure none : RuleM) else _) s = _
    rw [if_neg (by rw [hstop]; decide)]
    rfl
  have htimeout : ∀ n, (run ruleBody n (Rule.blockLoop stop) s).1 = Ending.timeout := by
    intro n
    induction n with
    | zero => rfl
    | succ n ih =>
        show (exec (run ruleBody n) (rBlockLoop stop s)).1 = _
        rw [hbody]
        cases n with
        | zero => rfl
        | succ n =>
            -- the statement gives up where it is, and the same call is made again
            simp only [exec, stmt_at_eof h]
            cases hrun : run ruleBody (n + 1) (Rule.blockLoop stop) s with
            | mk e tr =>
                rw [hrun] at ih
                obtain rfl : e = Ending.timeout := ih
                rfl
  rintro ⟨n, o, t, hdone⟩
  rw [htimeout n] at hdone
  cases hdone

theorem not_terminates_of_open {c : Rule × PState} (hmade : Made tokens source c)
    (hopen : OpenAtEnd c = true) : ¬Terminates ruleBody Rule.root (PState.new tokens source) := by
  refine not_terminates_of_reached hmade ?_
  obtain ⟨r, s⟩ := c
  cases r with
  | blockLoop stop => exact blockLoop_diverges (of_decide_eq_true hopen)
  | _ => cases hopen

/-! ### Termination -/

/-- The parser comes to an end: it returns, every loop passes a token from one round to the next,
and the cursor is always at a token of the input. -/
structure ParseEnds (tokens : List Token) (source : Span → String) : Prop where
  returns : ∃ n o t, (parse n tokens source).1 = Ending.done o t ∧ t.cursor ≤ tokens.length
  rounds : ∀ c d, Made tokens source c → Inside ruleBody c.1 c.2 d → c.1.sameLoop d.1 = true →
    c.2.cursor < d.2.cursor
  inRange : ∀ c, Made tokens source c → c.2.cursor ≤ tokens.length

/-- The calls that are made in the course of a call are made further on in the input, or have a
lower rank. -/
theorem inside_size (hno : ∀ c, Made tokens source c → OpenAtEnd c = false) {c d : Rule × PState}
    (hc : Made tokens source c) (hd : Inside ruleBody c.1 c.2 d) :
    ruleSize d.1 d.2 < ruleSize c.1 c.2 := by
  obtain ⟨hpre, htokens⟩ := made_pre hc
  refine Contract.inside_smaller (parserContract_valid (tokens ++ [eofToken])) ⟨hpre, htokens⟩ ?_ hd
  intro e he hexempt
  have hopen := (exempt_iff e.1 e.2).mp hexempt
  rw [hno e (Reached.trans hc he)] at hopen
  cases hopen

theorem made_of_inside {c d : Rule × PState} (hc : Made tokens source c)
    (hd : Inside ruleBody c.1 c.2 d) : Made tokens source d := by
  obtain ⟨n, hmem⟩ := hd
  exact Reached.trans hc ⟨n, List.mem_of_mem_tail hmem⟩

/-- **The parser comes to an end** exactly when no block is asked for a statement at the end of the
input. -/
theorem parse_ends_iff (tokens : List Token) (source : Span → String) :
    ParseEnds tokens source ↔ ∀ c, Made tokens source c → OpenAtEnd c = false := by
  constructor
  · intro h c hmade
    obtain ⟨n, o, t, hdone, -⟩ := h.returns
    cases hopen : OpenAtEnd c with
    | false => rfl
    | true => exact absurd ⟨n, o, t, hdone⟩ (not_terminates_of_open hmade hopen)
  · intro hno
    refine ⟨?_, ?_, ?_⟩
    · rcases Contract.terminates_or_exempt (parserContract_valid _) (root_pre tokens source) with
        ⟨n, o, t, hdone⟩ | ⟨c, hmade, hexempt⟩
      · refine ⟨n, o, t, hdone, ?_⟩
        have hpost : NodeOf root _ o t _ :=
          Contract.run_post (parserContract_valid _) (root_pre tokens source) hdone
        have hgrows := hpost.grows (by decide)
        have hlt := hgrows.range.lt
        rw [hgrows.tokens] at hlt
        simpa [PState.new, Nat.lt_succ_iff] using hlt
      · have hopen := (exempt_iff c.1 c.2).mp hexempt
        rw [hno c hmade] at hopen
        cases hopen
    · intro c d hc hd hsame
      have hsize := inside_size hno hc hd
      have htokens := (made_pre hc).2
      have htokens' := (made_pre (made_of_inside hc hd)).2
      rw [ruleSize, ruleSize, rank_of_sameLoop hsame, htokens, htokens'] at hsize
      omega
    · intro c hc
      obtain ⟨hpre, htokens⟩ := made_pre hc
      have hlt := hpre.1.lt
      rw [htokens] at hlt
      simpa [Nat.lt_succ_iff] using hlt

/-- Tokens of these kinds, at no place. -/
def tokensOf (kinds : List SyntaxKind) : List Token :=
  kinds.map fun kind => { kind := kind, span := { start := 0, stop := 0 } }

/-- The parser does not return from `do`. -/
theorem not_parse_ends_do : ¬∀ tokens source, ParseEnds tokens source := by
  intro h
  obtain ⟨n, o, t, hdone, -⟩ := (h (tokensOf [doKw]) fun _ => "do").returns
  have hmade : (parse 5 (tokensOf [doKw]) fun _ => "do").2.any OpenAtEnd = true := by decide
  obtain ⟨c, hc, hopen⟩ := List.any_eq_true.mp hmade
  exact not_terminates_of_open ⟨5, hc⟩ hopen ⟨n, o, t, hdone⟩

/-! ### Bracketing -/

/-- The sink, with steps enough, makes one well-bracketed tree of the tokens that were passed. -/
def ParseBrackets (s : PState) : Prop :=
  ∃ n calls, sink n s.events = some calls ∧ Bracketed calls (s.tokens.take s.cursor)

variable {n : ℕ} {o : Option CompletedMarker} {s : PState}

/-- The calls of a run that ended are all the calls. -/
theorem made_iff (h : (parse n tokens source).1 = Ending.done o s) (c : Rule × PState) :
    Made tokens source c ↔ c ∈ (parse n tokens source).2 := by
  constructor
  · rintro ⟨m, hm⟩
    rcases Nat.le_total n m with hle | hle
    · rw [run_done_of_le hle h] at hm
      exact hm
    · rcases run_extends ruleBody hle Rule.root (PState.new tokens source) with ⟨-, hprefix⟩ | hsame
      · exact hprefix.subset hm
      · rw [parse, hsame]
        exact hm
  · intro hc
    exact ⟨n, hc⟩

/-- What the whole parse appends. -/
theorem root_post (h : (parse n tokens source).1 = Ending.done o s) :
    NodeOf root (PState.new tokens source) o s (parse n tokens source).2 :=
  Contract.run_post (parserContract_valid _) (root_pre tokens source) h

theorem brackets_of_expected (h : (parse n tokens source).1 = Ending.done o s)
    (htr : AllExpected (parse n tokens source).2) : ParseBrackets s := by
  obtain ⟨s₁, hgrows, rfl⟩ := (root_post h).inner
  obtain ⟨seg, hseg, hgood, -⟩ := hgrows.events
  obtain ⟨c, hc, htoks⟩ := hgood htr
  have hnode := (hc.node root (by decide)).close
  have hevents : (s₁.push Event.exit).events = Event.enter root 0 :: (seg ++ [Event.exit]) := by
    show s₁.events ++ [Event.exit] = _
    rw [hseg]
    rfl
  refine ⟨_, _, by rw [hevents]; exact hnode.sink_eq, c, by simp, ?_, ?_⟩
  · have hdepth := hc.depthAfter [] 0
    rwa [List.append_nil] at hdepth
  · have htake : s₁.tokens.take s₁.cursor = callTokens c := by
      rw [hgrows.tokens, htoks]
      rfl
    show callTokens (BuilderCall.startNode root :: (c ++ [BuilderCall.finishNode])) =
      s₁.tokens.take s₁.cursor
    rw [htake]
    simp [callTokens]

theorem not_brackets_of_unexpected (h : (parse n tokens source).1 = Ending.done o s)
    (htr : ¬AllExpected (parse n tokens source).2) : ¬ParseBrackets s := by
  rintro ⟨fuel, calls, hsink, inner, hcalls, hdepth, -⟩
  obtain ⟨s₁, hgrows, rfl⟩ := (root_post h).inner
  obtain ⟨seg, hseg, -, hbad⟩ := hgrows.events
  have hevents : (s₁.push Event.exit).events = Event.enter root 0 :: (seg ++ [Event.exit]) := by
    show s₁.events ++ [Event.exit] = _
    rw [hseg]
    rfl
  rw [hevents] at hsink
  have hlt := hbad htr
  obtain ⟨hstart, hfinish⟩ := sink_counts hsink
  have hcount := depthAfter_counts hdepth
  have hroot : startCount calls = startCount inner + 1 ∧
      finishCount calls = finishCount inner + 1 := by
    rw [hcalls]
    simp [startCount, finishCount]
  simp [Event.isEnter, Event.isExit] at hstart hfinish
  omega

/-- **The events are well bracketed** exactly when every operand and every parameter that the parser
asked for was there. -/
theorem parse_brackets_iff (h : (parse n tokens source).1 = Ending.done o s) :
    ParseBrackets s ↔ ∀ c, Made tokens source c → Expected c = true := by
  constructor
  · intro hbrackets c hc
    by_contra hno
    refine not_brackets_of_unexpected h ?_ hbrackets
    intro htr
    exact hno (htr c ((made_iff h c).mp hc))
  · intro hall
    refine brackets_of_expected h ?_
    intro c hc
    exact hall c ((made_iff h c).mpr hc)

/-- The events of `x = 1`. -/
theorem parse_brackets_assign : ∃ o s,
    (parse 9 (tokensOf [ident, assign, int]) fun _ => "").1 = Ending.done o s ∧
      (ParseBrackets s ↔
        ∀ c, Made (tokensOf [ident, assign, int]) (fun _ => "") c → Expected c = true) := by
  have hdone : ∃ o s, (parse 9 (tokensOf [ident, assign, int]) fun _ => "").1 =
      Ending.done o s := ⟨_, _, rfl⟩
  obtain ⟨o, s, hdone⟩ := hdone
  exact ⟨o, s, hdone, parse_brackets_iff hdone⟩

/-- The node that `x = a[]` starts for the index is never finished. -/
theorem not_parse_brackets_index : ¬∀ n tokens source o s,
    (parse n tokens source).1 = Ending.done o s → ParseBrackets s := by
  intro h
  have hdone : ∃ o s, (parse 9 (tokensOf [ident, assign, ident, lBracket, rBracket])
      fun _ => "").1 = Ending.done o s := ⟨_, _, rfl⟩
  obtain ⟨o, s, hdone⟩ := hdone
  refine not_brackets_of_unexpected hdone ?_ (h _ _ _ _ _ hdone)
  intro htr
  have hbad : (parse 9 (tokensOf [ident, assign, ident, lBracket, rBracket])
      fun _ => "").2.any (fun c => !Expected c) = true := by decide
  obtain ⟨c, hc, hno⟩ := List.any_eq_true.mp hbad
  rw [htr c hc] at hno
  cases hno

end Tcvm.Parser
