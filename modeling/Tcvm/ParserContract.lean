/-
# The contract of the parser's rules

What a rule does is the same for all of them: it moves the cursor forward, it appends events, and
either these are nested, or a marker was lost on the way.  A marker is lost exactly when an operand
is asked for at a token that starts no expression, or a parameter at a token that is none; both are
visible in the calls that are made.  A chain rule changes the events of the expression it extends,
so it has a contract of its own.

## Main definitions

* `InRange` — the cursor is at a token of a list that ends with the end of the file;
* `Expected` — an operand or a parameter is asked for where there is one;
* `Grows` — what most rules do;
* `ChainPost`, `OperandPost`, `DefArgsPost` — what the others do;
* `RulePre`, `RulePost`, `ruleSize`, `parserContract` — the contract, with the size of calls;
* `Room` — there is room for calls under a bound.

## Main results

* `Grows.trans`, `Grows.node`, `ChainPost.step` — how rules compose;
* `expect_step`, `start_step` and others — the primitives.
-/

import Mathlib.Data.List.TakeWhile
import Tcvm.EventTree
import Tcvm.ParserRules

namespace Tcvm.Parser

open OpenRecursion SyntaxKind

/-! ### States and calls -/

abbrev Trace : Type := List (Rule × PState)

/-- The cursor is at a token, and the last token is the end of the file. -/
structure InRange (s : PState) : Prop where
  lt : s.cursor < s.tokens.length
  last : ∃ front, s.tokens = front ++ [eofToken]

/-- An operand is asked for where an expression starts, a parameter where there is one, or the end
of the list. -/
def Expected : Rule × PState → Bool
  | (Rule.operand _, s) => tokenIsExprStart s.atKind
  | (Rule.defArgsLoop _, s) =>
      s.atKind = SyntaxKind.rParen || s.atKind = tDot || s.atKind = ident
  | _ => true

def AllExpected (tr : Trace) : Prop := ∀ c ∈ tr, Expected c = true

@[simp] theorem allExpected_nil : AllExpected [] := by
  intro c hc
  cases hc

@[simp] theorem allExpected_append {a b : Trace} :
    AllExpected (a ++ b) ↔ AllExpected a ∧ AllExpected b := List.forall_mem_append

@[simp] theorem allExpected_cons {c : Rule × PState} {tr : Trace} :
    AllExpected (c :: tr) ↔ Expected c = true ∧ AllExpected tr := List.forall_mem_cons

/-- Before the last token there is another. -/
theorem InRange.next {s : PState} (h : InRange s) (hat : s.atKind ≠ eof) :
    s.cursor + 1 < s.tokens.length := by
  obtain ⟨front, htokens⟩ := h.last
  have hlt := h.lt
  by_contra hge
  apply hat
  have hcursor : s.cursor = front.length := by
    rw [htokens] at hlt hge
    simp at hlt hge
    omega
  rw [PState.atKind, PState.token, htokens, hcursor, List.getD_eq_getElem?_getD,
    List.getElem?_append_right (Nat.le_refl _)]
  simp [eofToken]

/-- The token at the cursor. -/
theorem InRange.take_succ {s : PState} (h : InRange s) :
    s.tokens.take (s.cursor + 1) = s.tokens.take s.cursor ++ [s.token] := by
  rw [List.take_succ_eq_append_getElem h.lt]
  congr 1
  rw [PState.token, List.getD_eq_getElem?_getD, List.getElem?_eq_getElem h.lt]
  rfl

/-! ### Growth -/

/-- The cursor goes forward, and events are appended.  They are nested and add the tokens that were
passed, or a marker was lost. -/
structure Grows (s s' : PState) (tr : Trace) : Prop where
  tokens : s'.tokens = s.tokens
  le : s.cursor ≤ s'.cursor
  range : InRange s'
  events : ∃ seg, s'.events = s.events ++ seg ∧
    (AllExpected tr → ∃ c, Nested none seg c ∧
      s.tokens.take s'.cursor = s.tokens.take s.cursor ++ callTokens c) ∧
    (¬AllExpected tr → exits seg < enters seg)

theorem Grows.refl {s : PState} (h : InRange s) : Grows s s [] where
  tokens := rfl
  le := Nat.le_refl _
  range := h
  events := ⟨[], by simp, fun _ => ⟨[], Nested.nil, by simp [callTokens]⟩,
    fun hno => absurd allExpected_nil hno⟩

/-- In every case no more nodes are finished than started. -/
theorem Grows.exits_le {s s' : PState} {tr : Trace} (h : Grows s s' tr) :
    ∃ seg, s'.events = s.events ++ seg ∧ exits seg ≤ enters seg := by
  obtain ⟨seg, hseg, hgood, hbad⟩ := h.events
  refine ⟨seg, hseg, ?_⟩
  by_cases htr : AllExpected tr
  · obtain ⟨c, hnested, -⟩ := hgood htr
    exact hnested.balanced.le
  · exact (hbad htr).le

theorem Grows.trans {s s' s'' : PState} {tr tr' : Trace} (h : Grows s s' tr)
    (h' : Grows s' s'' tr') : Grows s s'' (tr ++ tr') := by
  obtain ⟨seg, hseg, hgood, hbad⟩ := h.events
  obtain ⟨seg', hseg', hgood', hbad'⟩ := h'.events
  obtain ⟨seg₁, hseg₁, hle⟩ := h.exits_le
  obtain ⟨seg₂, hseg₂, hle'⟩ := h'.exits_le
  obtain rfl : seg = seg₁ := List.append_cancel_left (hseg.symm.trans hseg₁)
  obtain rfl : seg' = seg₂ := List.append_cancel_left (hseg'.symm.trans hseg₂)
  refine ⟨h'.tokens.trans h.tokens, h.le.trans h'.le, h'.range, seg ++ seg', ?_, ?_, ?_⟩
  · rw [hseg', hseg, List.append_assoc]
  · intro htr
    obtain ⟨htr₁, htr₂⟩ := allExpected_append.mp htr
    obtain ⟨c, hc, htoks⟩ := hgood htr₁
    obtain ⟨c', hc', htoks'⟩ := hgood' htr₂
    rw [h.tokens] at htoks'
    exact ⟨c ++ c', hc.append hc', by rw [htoks', htoks, callTokens_append, List.append_assoc]⟩
  · intro htr
    rw [exits_append, enters_append]
    by_cases htr₁ : AllExpected tr
    · have hlt := hbad' fun htr₂ => htr (allExpected_append.mpr ⟨htr₁, htr₂⟩)
      omega
    · have hlt := hbad htr₁
      omega

theorem inRange_push {s : PState} (h : InRange s) (e : Event) : InRange (s.push e) :=
  ⟨h.lt, h.last⟩

/-- A node around what was appended behind its start. -/
theorem Grows.node {s s' : PState} {tr : Trace} {kind : SyntaxKind}
    (hkind : kind ≠ SyntaxKind.tombstone) (h : Grows (s.push (Event.enter kind 0)) s' tr) :
    Grows s (s'.push Event.exit) tr := by
  obtain ⟨seg, hseg, hgood, hbad⟩ := h.events
  refine ⟨h.tokens, h.le, inRange_push h.range _,
    Event.enter kind 0 :: (seg ++ [Event.exit]), ?_, ?_, ?_⟩
  · show s'.events ++ [Event.exit] = _
    rw [hseg]
    simp [PState.push]
  · intro htr
    obtain ⟨c, hc, htoks⟩ := hgood htr
    refine ⟨_, (hc.node kind hkind).close, ?_⟩
    have hcalls : callTokens (BuilderCall.startNode kind :: (c ++ [BuilderCall.finishNode])) =
        callTokens c := by
      simp [callTokens]
    rw [hcalls]
    exact htoks
  · intro htr
    have := hbad htr
    simp [Event.isEnter, Event.isExit, hkind]
    omega

/-- The event that was started may be changed before the node is completed. -/
theorem Grows.retyped {s s' : PState} {tr : Trace} {x : Event} {kind : SyntaxKind}
    (hkind : kind ≠ SyntaxKind.tombstone) (h : Grows (s.push x) s' tr) :
    Grows s (PState.push { s' with events := s'.events.set s.events.length (Event.enter kind 0) }
      Event.exit) tr := by
  apply Grows.node hkind
  obtain ⟨seg, hseg, hgood, hbad⟩ := h.events
  refine ⟨h.tokens, h.le, ⟨h.range.lt, h.range.last⟩, seg, ?_, hgood, hbad⟩
  show s'.events.set s.events.length (Event.enter kind 0) = _
  rw [hseg]
  show (s.events ++ [x] ++ seg).set _ _ = s.events ++ [Event.enter kind 0] ++ seg
  rw [List.append_assoc, List.append_assoc, List.set_append_right _ _ (Nat.le_refl _)]
  simp

/-- An abandoned marker leaves a tombstone, or nothing. -/
theorem Grows.tombs {s s' : PState} {tr : Trace} {x : Event} {tombs : List Event}
    (htombs : tombs = [] ∨ tombs = [Event.tombstone]) (h : Grows (s.push x) s' tr)
    {seg : List Event}
    (hseg : s'.events = s.events ++ x :: seg) :
    Grows s { s' with events := s.events ++ (tombs ++ seg) } tr := by
  obtain ⟨seg', hseg', hgood, hbad⟩ := h.events
  obtain rfl : seg' = seg := by
    have := hseg'.symm.trans hseg
    simpa [PState.push] using this
  have hnested : Nested none tombs [] := by
    rcases htombs with rfl | rfl
    · exact Nested.nil
    · exact Nested.tombstone
  have hcounts : enters tombs = 0 ∧ exits tombs = 0 := by
    rcases htombs with rfl | rfl
    · exact ⟨rfl, rfl⟩
    · exact ⟨rfl, rfl⟩
  refine ⟨h.tokens, h.le, ⟨h.range.lt, h.range.last⟩, tombs ++ seg', rfl, ?_, ?_⟩
  · intro htr
    obtain ⟨c, hc, htoks⟩ := hgood htr
    exact ⟨_, hnested.append hc, htoks⟩
  · intro htr
    have := hbad htr
    rw [enters_append, exits_append, hcounts.1, hcounts.2]
    omega

/-! ### Operands and parameters -/

/-- A rule that gave up: a node was started that is not finished, or will be. -/
structure Lost (s s' : PState) (tr : Trace) : Prop where
  tokens : s'.tokens = s.tokens
  le : s.cursor ≤ s'.cursor
  range : InRange s'
  events : ∃ seg, s'.events = s.events ++ seg ∧ exits seg ≤ enters seg
  unexpected : ¬AllExpected tr

theorem Grows.lost {s s' s'' : PState} {tr tr' : Trace} (h : Grows s s' tr)
    (h' : Lost s' s'' tr') : Lost s s'' (tr ++ tr') := by
  obtain ⟨seg, hseg, hle⟩ := h.exits_le
  obtain ⟨seg', hseg', hle'⟩ := h'.events
  refine ⟨h'.tokens.trans h.tokens, h.le.trans h'.le, h'.range, ⟨seg ++ seg', ?_, ?_⟩, ?_⟩
  · rw [hseg', hseg, List.append_assoc]
  · rw [exits_append, enters_append]
    omega
  · intro htr
    exact h'.unexpected (allExpected_append.mp htr).2

/-- What is behind the start of a node that is never finished. -/
theorem Lost.grows {s s' : PState} {tr : Trace} {kind : SyntaxKind}
    (hkind : kind ≠ SyntaxKind.tombstone) (h : Lost (s.push (Event.enter kind 0)) s' tr) :
    Grows s s' tr := by
  obtain ⟨seg, hseg, hle⟩ := h.events
  refine ⟨h.tokens, h.le, h.range, Event.enter kind 0 :: seg, ?_, ?_, ?_⟩
  · rw [hseg]
    simp [PState.push]
  · intro htr
    exact absurd htr h.unexpected
  · intro htr
    simp [Event.isEnter, Event.isExit, hkind]
    omega

/-- `expr`: an expression starts with a token that says so, and is then found, unless something is
missing inside it. -/
structure ExprPost (s : PState) (o : Option CompletedMarker) (s' : PState) (tr : Trace) : Prop where
  grows : Grows s s' tr
  progress : tokenIsExprStart s.atKind = true → s.cursor < s'.cursor
  absent : tokenIsExprStart s.atKind = false → o = none
  found : tokenIsExprStart s.atKind = true → o = none → ¬AllExpected tr

/-- `operand`: without it, something is missing. -/
structure OperandPost (s : PState) (o : Option CompletedMarker) (s' : PState) (tr : Trace) :
    Prop where
  present : o ≠ none → Grows s s' tr
  missing : o = none → Lost s s' tr

theorem ExprPost.operand {s s' : PState} {o : Option CompletedMarker} {tr : Trace} {bp : ℕ}
    (h : ExprPost s o s' tr) : OperandPost s o s' ((Rule.operand bp, s) :: tr) := by
  cases hstart : tokenIsExprStart s.atKind with
  | true =>
      have hiff : AllExpected ((Rule.operand bp, s) :: tr) ↔ AllExpected tr := by
        simp [Expected, hstart]
      constructor
      · intro _
        obtain ⟨seg, hseg, hgood, hbad⟩ := h.grows.events
        exact ⟨h.grows.tokens, h.grows.le, h.grows.range, seg, hseg,
          fun htr => hgood (hiff.mp htr), fun htr => hbad fun hno => htr (hiff.mpr hno)⟩
      · intro hnone
        exact ⟨h.grows.tokens, h.grows.le, h.grows.range, h.grows.exits_le,
          fun htr => h.found hstart hnone (hiff.mp htr)⟩
  | false =>
      constructor
      · intro hsome
        exact absurd (h.absent hstart) hsome
      · intro _
        refine ⟨h.grows.tokens, h.grows.le, h.grows.range, h.grows.exits_le, ?_⟩
        intro htr
        have := (allExpected_cons.mp htr).1
        simp [Expected, hstart] at this

/-- `defArgsLoop`: the parameters and the end of their node. -/
structure DefArgsPost (s : PState) (s' : PState) (tr : Trace) : Prop where
  tokens : s'.tokens = s.tokens
  le : s.cursor ≤ s'.cursor
  range : InRange s'
  good : AllExpected tr → ∃ s₁, Grows s s₁ tr ∧ s' = s₁.push Event.exit
  bad : ¬AllExpected tr → Lost s s' tr

theorem Grows.defArgs {s s' s'' : PState} {tr tr' : Trace} (h : Grows s s' tr)
    (h' : DefArgsPost s' s'' tr') (htr : AllExpected tr) : DefArgsPost s s'' (tr ++ tr') := by
  refine ⟨h'.tokens.trans h.tokens, h.le.trans h'.le, h'.range, ?_, ?_⟩
  · intro hall
    obtain ⟨s₁, hgrows, rfl⟩ := h'.good (allExpected_append.mp hall).2
    exact ⟨s₁, h.trans hgrows, rfl⟩
  · intro hall
    exact h.lost (h'.bad fun htr' => hall (allExpected_append.mpr ⟨htr, htr'⟩))

/-- The node of the parameters. -/
theorem DefArgsPost.node {s s' : PState} {tr : Trace} {kind : SyntaxKind}
    (hkind : kind ≠ SyntaxKind.tombstone) (h : DefArgsPost (s.push (Event.enter kind 0)) s' tr) :
    Grows s s' tr := by
  by_cases htr : AllExpected tr
  · obtain ⟨s₁, hgrows, rfl⟩ := h.good htr
    exact hgrows.node hkind
  · exact (h.bad htr).grows hkind

/-! ### Chains -/

/-- The state with a node that precedes another. -/
def preceded (s : PState) (lhs : CompletedMarker) (kind : SyntaxKind) : PState :=
  let d := s.events.length - lhs.position
  { s with events := link (s.events ++ [Event.enter kind 0]) lhs.position d }

/-- The node of a marker is there. -/
def Placed (lhs : CompletedMarker) (s : PState) : Prop :=
  ∃ k d, s.events[lhs.position]? = some (Event.enter k d)

theorem Placed.lt {lhs : CompletedMarker} {s : PState} (h : Placed lhs s) :
    lhs.position < s.events.length := by
  obtain ⟨k, d, hget⟩ := h
  exact (List.getElem?_eq_some_iff.mp hget).1

theorem preceded_events (kind : SyntaxKind) {s : PState} {lhs : CompletedMarker}
    {pre e : List Event} (hplaced : Placed lhs s) (hevents : s.events = pre ++ e)
    (hpre : pre.length ≤ lhs.position) :
    (preceded s lhs kind).events =
      pre ++ (link e (lhs.position - pre.length) (e.length - (lhs.position - pre.length)) ++
        [Event.enter kind 0]) := by
  have hlt := hplaced.lt
  have hlen : s.events.length = pre.length + e.length := by
    rw [hevents, List.length_append]
  have hpos : lhs.position = pre.length + (lhs.position - pre.length) := by omega
  have hd : s.events.length - lhs.position = e.length - (lhs.position - pre.length) := by omega
  show link (s.events ++ [Event.enter kind 0]) lhs.position (s.events.length - lhs.position) = _
  rw [hd, hevents, List.append_assoc, hpos, link_append_right, Nat.add_sub_cancel_left,
    link_append_left _ _ (by omega)]

/-- A chain rule extends the expression that ends at `lhs`, whatever is in front of it. -/
structure ChainPost (lhs : CompletedMarker) (s : PState) (o : Option CompletedMarker) (s' : PState)
    (tr : Trace) : Prop where
  tokens : s'.tokens = s.tokens
  le : s.cursor ≤ s'.cursor
  range : InRange s'
  events : ∀ pre e, s.events = pre ++ e → pre.length ≤ lhs.position →
    ∃ e', s'.events = pre ++ e' ∧ exits e' + enters e ≤ enters e' + exits e ∧
      (¬AllExpected tr → exits e' + enters e < enters e' + exits e) ∧
      (AllExpected tr → o ≠ none ∧
        ∀ c, Nested (some (lhs.position - pre.length)) e c → ∃ pos' c' toks,
          Nested (some pos') e' c' ∧ callTokens c' = callTokens c ++ toks ∧
            s.tokens.take s'.cursor = s.tokens.take s.cursor ++ toks)

theorem ChainPost.done {lhs : CompletedMarker} {s : PState} (h : InRange s) :
    ChainPost lhs s (some lhs) s [] where
  tokens := rfl
  le := Nat.le_refl _
  range := h
  events := by
    intro pre e hevents hpre
    refine ⟨e, hevents, Nat.le_of_eq (Nat.add_comm _ _), ?_, ?_⟩
    · intro hno
      exact absurd allExpected_nil hno
    · intro _
      refine ⟨by simp, ?_⟩
      intro c hc
      exact ⟨_, c, [], hc, by simp, by simp⟩

/-- A link of the chain, and then the rest of it. -/
theorem ChainPost.step {lhs : CompletedMarker} {s s₂ s' : PState} {kind : SyntaxKind}
    {o : Option CompletedMarker} {tr tr' : Trace} (hkind : kind ≠ SyntaxKind.tombstone)
    (hplaced : Placed lhs s) (hgrows : Grows (preceded s lhs kind) s₂ tr)
    (hpost : ChainPost { position := s.events.length, kind := kind } (s₂.push Event.exit)
      o s' tr') :
    ChainPost lhs s o s' (tr ++ tr') := by
  obtain ⟨seg, hseg, hgood, hbad⟩ := hgrows.events
  obtain ⟨seg₁, hseg₁, hle⟩ := hgrows.exits_le
  obtain rfl : seg = seg₁ := List.append_cancel_left (hseg.symm.trans hseg₁)
  refine ⟨hpost.tokens.trans hgrows.tokens, hgrows.le.trans hpost.le, hpost.range, ?_⟩
  intro pre e hevents hpre
  have hlen : s.events.length = pre.length + e.length := by
    rw [hevents, List.length_append]
  have hprec := preceded_events kind hplaced hevents hpre
  generalize hp : lhs.position - pre.length = p at hprec ⊢
  have hnext : (s₂.push Event.exit).events =
      pre ++ (link e p (e.length - p) ++ Event.enter kind 0 :: (seg ++ [Event.exit])) := by
    show s₂.events ++ [Event.exit] = _
    rw [hseg, hprec]
    simp
  obtain ⟨e', he', hcount, hstrict, hnested⟩ := hpost.events pre _ hnext
    (show pre.length ≤ s.events.length by omega)
  refine ⟨e', he', ?_, ?_, ?_⟩
  · simp [Event.isEnter, Event.isExit, hkind] at hcount
    omega
  · intro htr
    by_cases htr₁ : AllExpected tr
    · have := hstrict fun htr₂ => htr (allExpected_append.mpr ⟨htr₁, htr₂⟩)
      simp [Event.isEnter, Event.isExit, hkind] at this
      omega
    · have := hbad htr₁
      simp [Event.isEnter, Event.isExit, hkind] at hcount
      omega
  · intro htr
    obtain ⟨htr₁, htr₂⟩ := allExpected_append.mp htr
    obtain ⟨hsome, hall⟩ := hnested htr₂
    obtain ⟨c', hc', htoks⟩ := hgood htr₁
    refine ⟨hsome, ?_⟩
    intro c hc
    have hat : (s.events.length - pre.length) = e.length := by omega
    have hlink := hc.precede kind hkind hc'
    obtain ⟨pos', c₂, toks, hnest, hcalls, htake⟩ := hall _ (by rw [hat]; exact hlink)
    refine ⟨pos', c₂, callTokens c' ++ toks, hnest, ?_, ?_⟩
    · rw [hcalls]
      simp [callTokens]
    · have htokens : (s₂.push Event.exit).tokens = s.tokens := hgrows.tokens
      rw [htokens] at htake
      rw [htake, ← List.append_assoc]
      congr 1

/-- A link that is not finished. -/
theorem ChainPost.lost {lhs : CompletedMarker} {s s₂ : PState} {kind : SyntaxKind} {tr : Trace}
    (hkind : kind ≠ SyntaxKind.tombstone) (hplaced : Placed lhs s)
    (hlost : Lost (preceded s lhs kind) s₂ tr) : ChainPost lhs s none s₂ tr := by
  obtain ⟨seg, hseg, hle⟩ := hlost.events
  refine ⟨hlost.tokens, hlost.le, hlost.range, ?_⟩
  intro pre e hevents hpre
  have hprec := preceded_events kind hplaced hevents hpre
  generalize hp : lhs.position - pre.length = p at hprec ⊢
  refine ⟨link e p (e.length - p) ++ Event.enter kind 0 :: seg, ?_, ?_, ?_, ?_⟩
  · rw [hseg, hprec]
    simp
  · simp [Event.isEnter, Event.isExit, hkind]
    omega
  · intro _
    simp [Event.isEnter, Event.isExit, hkind]
    omega
  · intro htr
    exact absurd htr hlost.unexpected

/-- A rule that makes a node of what it appends. -/
structure NodeOf (kind : SyntaxKind) (s : PState) (o : Option CompletedMarker) (s' : PState)
    (tr : Trace) : Prop where
  result : o = some { position := s.events.length, kind := kind }
  inner : ∃ s₁, Grows (s.push (Event.enter kind 0)) s₁ tr ∧ s' = s₁.push Event.exit

theorem NodeOf.grows {kind : SyntaxKind} {s s' : PState} {o : Option CompletedMarker} {tr : Trace}
    (hkind : kind ≠ SyntaxKind.tombstone) (h : NodeOf kind s o s' tr) : Grows s s' tr := by
  obtain ⟨s₁, hgrows, rfl⟩ := h.inner
  exact hgrows.node hkind

theorem NodeOf.placed {kind : SyntaxKind} {s s' : PState} {o : Option CompletedMarker} {tr : Trace}
    (h : NodeOf kind s o s' tr) : Placed { position := s.events.length, kind := kind } s' := by
  obtain ⟨s₁, hgrows, rfl⟩ := h.inner
  obtain ⟨seg, hseg, -⟩ := hgrows.events
  refine ⟨kind, 0, ?_⟩
  show (s₁.events ++ [Event.exit])[s.events.length]? = _
  rw [hseg]
  simp [PState.push]

/-- A node, and the chain that extends it. -/
theorem NodeOf.chain {kind : SyntaxKind} {s s₂ s' : PState} {o o' : Option CompletedMarker}
    {tr tr' : Trace} (hkind : kind ≠ SyntaxKind.tombstone) (h : NodeOf kind s o s₂ tr)
    (hpost : ChainPost { position := s.events.length, kind := kind } s₂ o' s' tr') :
    Grows s s' (tr ++ tr') ∧ (o' = none → ¬AllExpected (tr ++ tr')) := by
  have hgrows₂ := h.grows hkind
  obtain ⟨s₁, hgrows, rfl⟩ := h.inner
  obtain ⟨seg, hseg, hgood, hbad⟩ := hgrows.events
  obtain ⟨seg₁, hseg₁, hle⟩ := hgrows.exits_le
  obtain rfl : seg = seg₁ := List.append_cancel_left (hseg.symm.trans hseg₁)
  have hevents : (s₁.push Event.exit).events =
      s.events ++ Event.enter kind 0 :: (seg ++ [Event.exit]) := by
    show s₁.events ++ [Event.exit] = _
    rw [hseg]
    simp [PState.push]
  obtain ⟨e', he', hcount, hstrict, hnested⟩ := hpost.events _ _ hevents (Nat.le_refl _)
  refine ⟨⟨hpost.tokens.trans hgrows.tokens, hgrows.le.trans hpost.le, hpost.range,
    e', he', ?_, ?_⟩,
    ?_⟩
  · intro htr
    obtain ⟨htr₁, htr₂⟩ := allExpected_append.mp htr
    obtain ⟨c, hc, htoks⟩ := hgood htr₁
    have hnode := hc.node kind hkind
    obtain ⟨pos', c', toks, hnest, hcalls, htake⟩ := (hnested htr₂).2 _ (by
      rw [Nat.sub_self]
      exact hnode)
    refine ⟨c', hnest.close, ?_⟩
    have htokens : (s₁.push Event.exit).tokens = s.tokens := hgrows.tokens
    rw [htokens] at htake
    have hnodeCalls : callTokens (BuilderCall.startNode kind :: (c ++ [BuilderCall.finishNode])) =
        callTokens c := by
      simp [callTokens]
    rw [htake, hcalls, hnodeCalls, ← List.append_assoc]
    congr 1
  · intro htr
    by_cases htr₁ : AllExpected tr
    · have := hstrict fun htr₂ => htr (allExpected_append.mpr ⟨htr₁, htr₂⟩)
      simp [Event.isEnter, Event.isExit, hkind] at this
      omega
    · have := hbad htr₁
      simp [Event.isEnter, Event.isExit, hkind] at hcount
      omega
  · intro hnone htr
    exact (hnested (allExpected_append.mp htr).2).1 hnone

/-! ### Calls that say nothing about markers -/

theorem Grows.congr {s s' : PState} {tr tr' : Trace} (h : Grows s s' tr)
    (hiff : AllExpected tr' ↔ AllExpected tr) : Grows s s' tr' := by
  obtain ⟨seg, hseg, hgood, hbad⟩ := h.events
  refine ⟨h.tokens, h.le, h.range, seg, hseg, ?_, ?_⟩
  · intro htr
    exact hgood (hiff.mp htr)
  · intro htr
    exact hbad fun hno => htr (hiff.mpr hno)

theorem NodeOf.congr {kind : SyntaxKind} {s s' : PState} {o : Option CompletedMarker}
    {tr tr' : Trace} (h : NodeOf kind s o s' tr) (hiff : AllExpected tr' ↔ AllExpected tr) :
    NodeOf kind s o s' tr' := by
  obtain ⟨s₁, hgrows, rfl⟩ := h.inner
  exact ⟨h.result, s₁, hgrows.congr hiff, rfl⟩

theorem ExprPost.congr {s s' : PState} {o : Option CompletedMarker} {tr tr' : Trace}
    (h : ExprPost s o s' tr) (hiff : AllExpected tr' ↔ AllExpected tr) : ExprPost s o s' tr' := by
  refine ⟨h.grows.congr hiff, h.progress, h.absent, ?_⟩
  intro hstart hnone htr
  exact h.found hstart hnone (hiff.mp htr)

theorem ChainPost.congr {lhs : CompletedMarker} {s s' : PState} {o : Option CompletedMarker}
    {tr tr' : Trace} (h : ChainPost lhs s o s' tr) (hiff : AllExpected tr' ↔ AllExpected tr) :
    ChainPost lhs s o s' tr' := by
  refine ⟨h.tokens, h.le, h.range, ?_⟩
  intro pre e hevents hpre
  obtain ⟨e', he', hcount, hstrict, hnested⟩ := h.events pre e hevents hpre
  refine ⟨e', he', hcount, ?_, ?_⟩
  · intro htr
    exact hstrict fun hno => htr (hiff.mpr hno)
  · intro htr
    exact hnested (hiff.mp htr)

/-- A call of another rule than an operand or a parameter. -/
theorem allExpected_plain {c : Rule × PState} {tr : Trace} (hc : Expected c = true) :
    AllExpected (c :: tr) ↔ AllExpected tr := by
  rw [allExpected_cons]
  simp [hc]

/-! ### The contract -/

/-- Calls at one place of the input go from a higher rank to a lower. -/
def Rule.rank : Rule → ℕ
  | root => 4
  | items => 3
  | blockLoop _ => 3
  | stmt => 2
  | ifRule _ => 1
  | operand _ => 1
  | exprListLoop => 1
  | callArgsLoop => 1
  | tableLoop => 1
  | commaLoop _ => 1
  | expr _ => 0
  | exprLoop _ _ => 0
  | simpleExprLoop _ _ => 0
  | defArgsLoop _ => 0

/-- What a call needs. -/
def RulePre (r : Rule) (s : PState) : Prop :=
  InRange s ∧
    match r with
    | Rule.ifRule kind => s.atKind = kind ∧ kind ≠ eof
    | Rule.exprLoop _ lhs => Placed lhs s
    | Rule.simpleExprLoop _ lhs => Placed lhs s
    | _ => True

/-- What a call gives, with the calls that are made. -/
def RulePost (r : Rule) (s : PState) (o : Option CompletedMarker) (s' : PState) (tr : Trace) :
    Prop :=
  match r with
  | Rule.root => NodeOf root s o s' tr
  | Rule.stmt => Grows s s' tr ∧ (s.atKind ≠ eof → s.cursor < s'.cursor)
  | Rule.blockLoop stop => Grows s s' tr ∧ stop.stops s'.atKind = true
  | Rule.ifRule _ => NodeOf ifStmt s o s' tr ∧ s.cursor < s'.cursor
  | Rule.expr _ => ExprPost s o s' tr
  | Rule.operand _ => OperandPost s o s' tr
  | Rule.exprLoop _ lhs => ChainPost lhs s o s' tr
  | Rule.simpleExprLoop _ lhs => ChainPost lhs s o s' tr
  | Rule.defArgsLoop _ => DefArgsPost s s' tr
  | _ => Grows s s' tr

/-- What is left of the input, and the rank. -/
def ruleSize (r : Rule) (s : PState) : ℕ := 4 * (s.tokens.length - s.cursor) + r.rank

/-- The contract for an input; a block that is asked for a statement at its end is exempted. -/
def parserContract (tokens : List Token) : Contract Rule PState (Option CompletedMarker) where
  Pre r s := RulePre r s ∧ s.tokens = tokens
  Post := RulePost
  size := ruleSize
  Exempt r s :=
    match r with
    | Rule.blockLoop _ => s.atKind = eof
    | _ => False

/-- A bound on calls: their input, and their size. -/
structure Bound where
  tokens : List Token
  size : ℕ

/-- The calls that are allowed under a bound. -/
def Below (n : Bound) (r : Rule) (s : PState) : Prop :=
  (RulePre r s ∧ s.tokens = n.tokens) ∧ ruleSize r s < n.size

/-- Calls of a rank below `k` are allowed from here on. -/
def Room (k : ℕ) (n : Bound) (s : PState) : Prop :=
  s.tokens = n.tokens ∧ 4 * (s.tokens.length - s.cursor) + k ≤ n.size

theorem Room.grows {k : ℕ} {n : Bound} {s s' : PState} {tr : Trace} (h : Room k n s)
    (hg : Grows s s' tr) : Room k n s' := by
  have hle := hg.le
  obtain ⟨htokens, hsize⟩ := h
  refine ⟨hg.tokens.trans htokens, ?_⟩
  rw [hg.tokens]
  omega

theorem Room.push {k : ℕ} {n : Bound} {s : PState} (h : Room k n s) (e : Event) :
    Room k n (s.push e) := h

theorem Room.preceded {k : ℕ} {n : Bound} {s : PState} (h : Room k n s) (lhs : CompletedMarker)
    (kind : SyntaxKind) : Room k n (preceded s lhs kind) := h

/-- Behind a token all calls are allowed. -/
theorem Room.advance {k : ℕ} {n : Bound} {s s' : PState} {tr : Trace} (h : Room k n s)
    (hg : Grows s s' tr)
    (hs : InRange s) (hlt : s.cursor < s'.cursor) : Room 4 n s' := by
  have hrange := hs.lt
  obtain ⟨htokens, hsize⟩ := h
  refine ⟨hg.tokens.trans htokens, ?_⟩
  rw [hg.tokens]
  omega

theorem Room.mono {k k' : ℕ} {n : Bound} {s : PState} (h : Room k n s) (hle : k' ≤ k) :
    Room k' n s := by
  obtain ⟨htokens, hsize⟩ := h
  exact ⟨htokens, by omega⟩

end Tcvm.Parser
