/-
# The rules of expressions keep the contract

The rules are taken one by one.  A rule that makes a node appends its start, what its parts append,
and its end; the sizes of the calls go down because a token was passed, or because the rank does.

## Main definitions

* `Does` — what a rule does under a bound on the size of its calls;
* `Ready` — there is room for calls, or there will be behind a token;
* `ChainRule` — a rule that extends the expression it is given.

## Main results

* `expect_does`, `start_does` and others — the primitives;
* `link_does` — **a link of a chain**, and the rest of the chain;
* `rSimpleExpr_does`, `rFunc_does`, `rExprInner_does` and others — **the rules**.
-/

import Tcvm.ParserContract

namespace Tcvm.Parser

open OpenRecursion SyntaxKind

/-! ### Primitives -/

/-- What a rule does, when calls below a bound keep the contract. -/
def Does {α : Type} (n : Bound) (m : ParseM α) (s : PState)
    (Q : α → PState → Trace → Prop) : Prop :=
  Spec (Below n) RulePost (m s) Q

section

variable {α β : Type} {n : Bound} {s : PState} {Q : β → PState → Trace → Prop}

theorem Does.seq {m : ParseM α} {f : α → ParseM β} {R : α → PState → Trace → Prop}
    (h : Does n m s R)
    (hf : ∀ a s₁ tr, R a s₁ tr → Does n (f a) s₁ fun b t tr' => Q b t (tr ++ tr')) :
    Does n (m >>= f) s Q := by
  apply Spec.bind
  refine Spec.mono h (fun _ _ hd => hd) ?_
  intro a s₁ tr hr
  exact hf a s₁ tr hr

theorem Does.mono {m : ParseM β} {R : β → PState → Trace → Prop} (h : Does n m s R)
    (hq : ∀ b t tr, R b t tr → Q b t tr) : Does n m s Q :=
  Spec.mono h (fun _ _ hd => hd) hq

theorem pure_does {b : β} (h : Q b s []) : Does n (pure b) s Q := h

theorem atKind_does {f : SyntaxKind → ParseM β} (h : Does n (f s.atKind) s Q) :
    Does n (atKind >>= f) s Q := h

theorem start_does {kind : SyntaxKind} {f : Marker → ParseM β}
    (h : Does n (f { position := s.events.length, kind := kind }) (s.push (Event.enter kind 0)) Q) :
    Does n (start kind >>= f) s Q := h

theorem complete_does {marker : Marker} {f : CompletedMarker → ParseM β}
    (h : Does n (f { position := marker.position, kind := marker.kind }) (s.push Event.exit) Q) :
    Does n (complete marker >>= f) s Q := h

theorem completed_does {marker : Marker} {Q : Option CompletedMarker → PState → Trace → Prop}
    (h : Q (some { position := marker.position, kind := marker.kind }) (s.push Event.exit) []) :
    Does n (completed marker) s Q := h

theorem ite_does {c : Prop} [Decidable c] {a b : ParseM β} (ha : c → Does n a s Q)
    (hb : ¬c → Does n b s Q) : Does n (if c then a else b) s Q := by
  split
  case isTrue hc => exact ha hc
  case isFalse hc => exact hb hc

theorem question_does {m : ParseM (Option α)} {f : α → ParseM (Option β)}
    {R : Option α → PState → Trace → Prop} {Q : Option β → PState → Trace → Prop}
    (h : Does n m s R)
    (hsome : ∀ a s₁ tr, R (some a) s₁ tr → Does n (f a) s₁ fun b t tr' => Q b t (tr ++ tr'))
    (hnone : ∀ s₁ tr, R none s₁ tr → Q none s₁ tr) : Does n (question m f) s Q := by
  refine Does.seq h ?_
  intro o s₁ tr hr
  cases o with
  | some a => exact hsome a s₁ tr hr
  | none =>
      refine pure_does ?_
      rw [List.append_nil]
      exact hnone s₁ tr hr

theorem call_does {r : Rule} {f : Option CompletedMarker → ParseM β} (hbelow : Below n r s)
    (hf : ∀ o s₁ tr, RulePost r s o s₁ tr →
      Does n (f o) s₁ fun b t tr' => Q b t (tr ++ tr')) : Does n (Proc.call r >>= f) s Q :=
  ⟨hbelow, hf⟩

theorem call_last {r : Rule} {Q : Option CompletedMarker → PState → Trace → Prop}
    (hbelow : Below n r s) (h : ∀ o s₁ tr, RulePost r s o s₁ tr → Q o s₁ tr) :
    Does n (Proc.call r) s Q := by
  refine ⟨hbelow, ?_⟩
  intro o s₁ tr hpost
  show Q o s₁ (tr ++ [])
  rw [List.append_nil]
  exact h o s₁ tr hpost

theorem report_grows (hs : InRange s) (message label : String) :
    Grows s (s.report message label) [] where
  tokens := rfl
  le := Nat.le_refl _
  range := ⟨hs.lt, hs.last⟩
  events := (Grows.refl hs).events

theorem report_does {message label : String} {f : Unit → ParseM β}
    (h : Does n (f ()) (s.report message label) Q) : Does n (report message label >>= f) s Q := h

/-- The state behind the current token. -/
def bumped (s : PState) : PState :=
  { s.push (Event.token s.token.kind s.token.span) with cursor := s.cursor + 1 }

theorem bumped_grows (hs : InRange s) (hnext : s.cursor + 1 < s.tokens.length) :
    Grows s (bumped s) [] where
  tokens := rfl
  le := Nat.le_succ _
  range := ⟨hnext, hs.last⟩
  events := by
    refine ⟨[Event.token s.token.kind s.token.span], rfl, ?_, ?_⟩
    · intro _
      exact ⟨_, Nested.token s.token, hs.take_succ⟩
    · intro hno
      exact absurd allExpected_nil hno

theorem expect_here {kind : SyntaxKind} (hat : s.atKind = kind)
    (hnext : s.cursor + 1 < s.tokens.length) : expect kind s = Prog.ret true (bumped s) := by
  show (if s.atKind = kind then (bump >>= fun _ => pure true) else _ : ParseM Bool) s = _
  rw [if_pos hat]
  show Prog.bind (if s.cursor + 1 < s.tokens.length then _ else _) _ = _
  rw [if_pos hnext]
  rfl

/-- `expect` goes forward where the token is there. -/
theorem expect_does {kind : SyntaxKind} {f : Bool → ParseM β} (hs : InRange s) (hkind : kind ≠ eof)
    (h : ∀ b s₁, Grows s s₁ [] → (s.atKind = kind → s.cursor < s₁.cursor) → Does n (f b) s₁ Q) :
    Does n (expect kind >>= f) s Q := by
  by_cases hat : s.atKind = kind
  · have hnext := hs.next (by rw [hat]; exact hkind)
    have hstep := h true (bumped s) (bumped_grows hs hnext) (fun _ => Nat.lt_succ_self _)
    show Spec _ _ (Prog.bind (expect kind s) _) Q
    rw [expect_here hat hnext]
    exact hstep
  · have hstep := h false _ (report_grows hs "unexpected token"
      ("expected token " ++ kind.display ++ " but found " ++ s.atKind.display))
      (fun heq => absurd heq hat)
    have hexpect : expect kind s = Prog.ret false (s.report "unexpected token"
        ("expected token " ++ kind.display ++ " but found " ++ s.atKind.display)) := by
      show (if s.atKind = kind then _ else _ : ParseM Bool) s = _
      rw [if_neg hat]
      rfl
    show Spec _ _ (Prog.bind (expect kind s) _) Q
    rw [hexpect]
    exact hstep

theorem precede_placed {lhs : CompletedMarker} {kind : SyntaxKind} (hplaced : Placed lhs s) :
    precede lhs kind s =
      Prog.ret { position := s.events.length, kind := kind } (preceded s lhs kind) := by
  obtain ⟨k, d, hget⟩ := hplaced
  have hget' : (s.push (Event.enter kind 0)).events[lhs.position]? = some (Event.enter k d) := by
    have hlt := (List.getElem?_eq_some_iff.mp hget).1
    show (s.events ++ [Event.enter kind 0])[lhs.position]? = _
    rw [List.getElem?_append_left hlt]
    exact hget
  have hstart : ∀ f : Marker → ParseM Marker, (start kind >>= f) s =
      f { position := s.events.length, kind := kind } (s.push (Event.enter kind 0)) := fun _ => rfl
  refine (hstart _).trans ?_
  simp only [hget']
  rfl

theorem precede_does {lhs : CompletedMarker} {kind : SyntaxKind} {f : Marker → ParseM β}
    (hplaced : Placed lhs s)
    (h : Does n (f { position := s.events.length, kind := kind }) (preceded s lhs kind) Q) :
    Does n (precede lhs kind >>= f) s Q := by
  show Spec _ _ (Prog.bind (precede lhs kind s) _) Q
  rw [precede_placed hplaced]
  exact h

/-- Abandoning a marker leaves a tombstone, or nothing. -/
theorem abandon_does {pre seg : List Event} {kind k : SyntaxKind} {f : Unit → ParseM β}
    (hevents : s.events = pre ++ Event.enter k 0 :: seg)
    (h : ∀ tombs, tombs = [] ∨ tombs = [Event.tombstone] →
      Does n (f ()) { s with events := pre ++ (tombs ++ seg) } Q) :
    Does n (abandon { position := pre.length, kind := kind } >>= f) s Q := by
  have hget : s.events[pre.length]? = some (Event.enter k 0) := by
    rw [hevents, List.getElem?_append_right (Nat.le_refl _)]
    simp
  have hset : s.events.set pre.length Event.tombstone = pre ++ Event.tombstone :: seg := by
    rw [hevents, List.set_append_right _ _ (Nat.le_refl _)]
    simp
  have habandon : ∃ tombs, (tombs = [] ∨ tombs = [Event.tombstone]) ∧
      abandon { position := pre.length, kind := kind } s =
        Prog.ret () { s with events := pre ++ (tombs ++ seg) } := by
    cases seg with
    | nil =>
        refine ⟨[], Or.inl rfl, ?_⟩
        simp only [abandon, hget, hset]
        simp
    | cons x seg =>
        refine ⟨[Event.tombstone], Or.inr rfl, ?_⟩
        simp only [abandon, hget, hset]
        rw [if_neg (by simp)]
        rfl
  obtain ⟨tombs, htombs, heq⟩ := habandon
  show Spec _ _ (Prog.bind (abandon _ s) _) Q
  rw [heq]
  exact h tombs htombs

end

/-! ### Calls -/

theorem below_of_room {k : ℕ} {n : Bound} {r : Rule} {s : PState} (hpre : RulePre r s)
    (hroom : Room k n s) (hrank : r.rank < k) : Below n r s := by
  obtain ⟨htokens, hsize⟩ := hroom
  refine ⟨⟨hpre, htokens⟩, ?_⟩
  rw [ruleSize]
  omega

variable {n : Bound} {s : PState}

/-- A part that appends events. -/
abbrev GrowsBy {α : Type} (s : PState) : α → PState → Trace → Prop := fun _ s' tr => Grows s s' tr

theorem rExpr_does (hs : InRange s) (hroom : Room 1 n s) :
    Does n rExpr s fun o s' tr => ExprPost s o s' tr := by
  refine call_last (below_of_room ⟨hs, trivial⟩ hroom (Nat.lt_succ_self _)) ?_
  intro o s₁ tr hpost
  exact hpost

/-- A node with one token. -/
theorem tokenNode_does {kind t : SyntaxKind} (hs : InRange s) (ht : t ≠ eof) :
    Does n (start kind >>= fun marker => expect t >>= fun _ => completed marker) s
      fun o s' tr => NodeOf kind s o s' tr ∧ tr = [] ∧ (s.atKind = t → s.cursor < s'.cursor) := by
  refine start_does (expect_does (inRange_push hs _) ht ?_)
  intro b s₁ h₁ hlt
  refine completed_does ⟨⟨rfl, s₁, h₁, rfl⟩, rfl, ?_⟩
  intro hat
  exact hlt hat

theorem rIdent_does (hs : InRange s) :
    Does n rIdent s fun o s' tr =>
      NodeOf ident s o s' tr ∧ tr = [] ∧ (s.atKind = ident → s.cursor < s'.cursor) :=
  tokenNode_does hs (by decide)

/-- `rIdent`, when only its events matter. -/
theorem rIdent_grows (hs : InRange s) : Does n rIdent s (GrowsBy s) := by
  refine Does.mono (rIdent_does hs) ?_
  intro o s' tr h
  exact h.1.grows (by decide)

/-- There is room for every call, or there will be behind the token `k`. -/
def Ready (n : Bound) (k : SyntaxKind) (s : PState) : Prop :=
  Room 4 n s ∨ (Room 0 n s ∧ s.atKind = k)

theorem Ready.room {k : SyntaxKind} {s₁ : PState} {tr : Trace} (h : Ready n k s) (hs : InRange s)
    (hgrows : Grows s s₁ tr) (hlt : s.atKind = k → s.cursor < s₁.cursor) : Room 4 n s₁ := by
  rcases h with hroom | ⟨hroom, hat⟩
  · exact hroom.grows hgrows
  · exact hroom.advance hgrows hs (hlt hat)

/-! ### Lists and arguments -/

theorem rExprListLoop_does (hs : InRange s) (hroom : Room 1 n s) :
    Does n rExprListLoop s (GrowsBy s) := by
  refine atKind_does (ite_does ?_ ?_)
  · intro _
    refine Does.seq (rExpr_does hs hroom) ?_
    intro o s₁ tr₁ h₁
    refine atKind_does (ite_does ?_ ?_)
    · intro hat
      refine expect_does h₁.grows.range (by decide) ?_
      intro b s₂ h₂ hlt
      have hroom₂ := (hroom.grows h₁.grows).advance h₂ h₁.grows.range (hlt hat)
      refine call_last (below_of_room ⟨h₂.range, trivial⟩ hroom₂ (by decide)) ?_
      intro o s₃ tr₃ h₃
      exact h₁.grows.trans (h₂.trans h₃)
    · intro _
      exact pure_does (h₁.grows.trans (Grows.refl h₁.grows.range))
  · intro _
    exact pure_does (Grows.refl hs)

theorem rExprList_does (hs : InRange s) (hroom : Room 4 n s) :
    Does n rExprList s fun o s' tr => NodeOf exprList s o s' tr := by
  refine start_does (call_does (below_of_room ⟨inRange_push hs _, trivial⟩
    (hroom.push _) (by decide)) ?_)
  intro o s₁ tr₁ h₁
  exact completed_does ⟨rfl, s₁, Grows.trans h₁ (Grows.refl h₁.range), rfl⟩

theorem rCallArgsLoop_does (hs : InRange s) (hroom : Room 1 n s) :
    Does n rCallArgsLoop s (GrowsBy s) := by
  refine atKind_does (ite_does ?_ ?_)
  · intro _
    refine expect_does hs (by decide) ?_
    intro b s₁ h₁ _
    exact pure_does (h₁.trans (Grows.refl h₁.range))
  · intro _
    refine Does.seq (rExpr_does hs hroom) ?_
    intro o s₁ tr₁ h₁
    refine atKind_does (ite_does ?_ ?_)
    · intro hat
      refine expect_does h₁.grows.range (by decide) ?_
      intro b s₂ h₂ hlt
      have hroom₂ := (hroom.grows h₁.grows).advance h₂ h₁.grows.range (hlt hat)
      refine call_last (below_of_room ⟨h₂.range, trivial⟩ hroom₂ (by decide)) ?_
      intro o s₃ tr₃ h₃
      exact h₁.grows.trans (h₂.trans h₃)
    · intro _
      refine expect_does h₁.grows.range (by decide) ?_
      intro b s₂ h₂ _
      exact pure_does (h₁.grows.trans (h₂.trans (Grows.refl h₂.range)))

theorem rFuncCallArgs_does (hs : InRange s) (hready : Ready n lParen s) :
    Does n rFuncCallArgs s fun o s' tr =>
      NodeOf funcArgs s o s' tr ∧ (s.atKind = lParen → s.cursor < s'.cursor) := by
  refine start_does (expect_does (inRange_push hs _) (by decide) ?_)
  intro b s₁ h₁ hlt
  have hroom := Ready.room (show Ready n lParen (s.push _) from hready) (inRange_push hs _) h₁ hlt
  refine call_does (below_of_room ⟨h₁.range, trivial⟩ hroom (by decide)) ?_
  intro o s₂ tr₂ h₂
  refine completed_does ⟨⟨rfl, s₂, h₁.trans (Grows.trans h₂ (Grows.refl h₂.range)), rfl⟩, ?_⟩
  intro hat
  exact (hlt hat).trans_le h₂.le

/-- What a method call puts behind the start of its node. -/
theorem rMethodCall_does {marker : Marker} (hs : InRange s) (hroom : Room 0 n s)
    (hat : s.atKind = colon) :
    Does n (rMethodCall marker) s fun o s' tr =>
      o = some { position := marker.position, kind := marker.kind } ∧
        ∃ s₁, Grows s s₁ tr ∧ s' = s₁.push Event.exit ∧ s.cursor < s₁.cursor := by
  refine expect_does hs (by decide) ?_
  intro b s₁ h₁ hlt
  have hroom₁ := hroom.advance h₁ hs (hlt hat)
  refine question_does (rIdent_does h₁.range) ?_ ?_
  · rintro m s₂ tr₂ ⟨hnode, rfl, -⟩
    have h₂ := hnode.grows (by decide)
    refine question_does (rFuncCallArgs_does h₂.range (Or.inl (hroom₁.grows h₂))) ?_ ?_
    · rintro m' s₃ tr₃ ⟨hargs, -⟩
      have h₃ := hargs.grows (by decide)
      refine completed_does ⟨rfl, s₃, h₁.trans (h₂.trans (h₃.trans (Grows.refl h₃.range))), rfl, ?_⟩
      exact ((hlt hat).trans_le h₂.le).trans_le h₃.le
    · rintro s₃ tr₃ ⟨hargs, -⟩
      cases hargs.result
  · rintro s₂ tr₂ ⟨hnode, -, -⟩
    cases hnode.result

/-! ### Chains -/

/-- A rule that extends the expression it is given. -/
structure ChainRule (loop : CompletedMarker → Rule) : Prop where
  pre : ∀ m s, InRange s → Placed m s → RulePre (loop m) s
  post : ∀ m s o s' tr, RulePost (loop m) s o s' tr → ChainPost m s o s' tr
  rank : ∀ m, (loop m).rank = 0

theorem chainRule_exprLoop (bp : ℕ) : ChainRule (Rule.exprLoop bp) :=
  ⟨fun _ _ hs hp => ⟨hs, hp⟩, fun _ _ _ _ _ h => h, fun _ => rfl⟩

theorem chainRule_simpleExprLoop (allowCall : Bool) : ChainRule (Rule.simpleExprLoop allowCall) :=
  ⟨fun _ _ hs hp => ⟨hs, hp⟩, fun _ _ _ _ _ h => h, fun _ => rfl⟩

theorem inRange_preceded (hs : InRange s) (lhs : CompletedMarker) (kind : SyntaxKind) :
    InRange (preceded s lhs kind) := ⟨hs.lt, hs.last⟩

theorem placed_preceded {lhs : CompletedMarker} {kind : SyntaxKind} {s₂ : PState} {tr : Trace}
    (hplaced : Placed lhs s) (hgrows : Grows (preceded s lhs kind) s₂ tr) :
    Placed { position := s.events.length, kind := kind } (s₂.push Event.exit) := by
  obtain ⟨seg, hseg, -⟩ := hgrows.events
  have hlt := hplaced.lt
  refine ⟨kind, 0, ?_⟩
  show (s₂.events ++ [Event.exit])[s.events.length]? = _
  have hevents := preceded_events kind hplaced (List.nil_append s.events).symm (Nat.zero_le _)
  rw [hseg, hevents]
  simp

/-- Behind a link, the chain goes on. -/
theorem link_does {loop : CompletedMarker → Rule} (hloop : ChainRule loop) {lhs : CompletedMarker}
    {kind : SyntaxKind} {s₂ : PState} {tr : Trace} (hkind : kind ≠ SyntaxKind.tombstone)
    (hplaced : Placed lhs s) (hgrows : Grows (preceded s lhs kind) s₂ tr) (hroom : Room 4 n s₂) :
    Does n (Proc.call (loop { position := s.events.length, kind := kind })) (s₂.push Event.exit)
      fun o s' tr' => ChainPost lhs s o s' (tr ++ tr') := by
  refine call_last (below_of_room (hloop.pre _ _ (inRange_push hgrows.range _)
    (placed_preceded hplaced hgrows)) (hroom.push _)
    (by rw [hloop.rank]; decide)) ?_
  intro o s' tr' hpost
  exact ChainPost.step hkind hplaced hgrows (hloop.post _ _ _ _ _ hpost)

/-- A method call in a chain. -/
theorem methodLink_does {loop : CompletedMarker → Rule} (hloop : ChainRule loop)
    {lhs : CompletedMarker} (hs : InRange s) (hplaced : Placed lhs s) (hroom : Room 0 n s)
    (hat : s.atKind = colon) :
    Does n (precede lhs methodCall >>= fun m => question (rMethodCall m) fun lhs =>
      Proc.call (loop lhs)) s fun o s' tr => ChainPost lhs s o s' tr := by
  refine precede_does hplaced ?_
  refine question_does (rMethodCall_does (inRange_preceded hs _ _)
    (hroom.preceded _ _) hat) ?_ ?_
  · rintro m s₁ tr ⟨hm, s₂, hgrows, rfl, hlt⟩
    obtain rfl := Option.some.inj hm
    exact link_does hloop (show methodCall ≠ SyntaxKind.tombstone by decide)
      hplaced hgrows ((hroom.preceded _ _).advance hgrows
        (inRange_preceded hs _ _) hlt)
  · rintro s₁ tr ⟨hm, -⟩
    cases hm

/-- A call in a chain. -/
theorem callLink_does {loop : CompletedMarker → Rule} (hloop : ChainRule loop)
    {lhs : CompletedMarker} (hs : InRange s) (hplaced : Placed lhs s) (hroom : Room 0 n s)
    (hat : s.atKind = lParen) :
    Does n (precede lhs funcCall >>= fun m => question rFuncCallArgs fun _ =>
      complete m >>= fun lhs => Proc.call (loop lhs)) s fun o s' tr => ChainPost lhs s o s' tr := by
  refine precede_does hplaced ?_
  refine question_does (rFuncCallArgs_does (inRange_preceded hs _ _)
    (Or.inr ⟨hroom.preceded _ _, hat⟩)) ?_ ?_
  · rintro m s₁ tr ⟨hargs, hlt⟩
    have hgrows := hargs.grows (by decide)
    exact complete_does (link_does hloop (show funcCall ≠ SyntaxKind.tombstone by decide)
      hplaced hgrows ((hroom.preceded _ _).advance hgrows
        (inRange_preceded hs _ _) (hlt hat)))
  · rintro s₁ tr ⟨hargs, -⟩
    cases hargs.result

/-- An index in a chain, which is lost with its operand. -/
theorem indexLink_does {loop : CompletedMarker → Rule} (hloop : ChainRule loop)
    {lhs : CompletedMarker} (hs : InRange s) (hplaced : Placed lhs s) (hroom : Room 0 n s)
    (hat : s.atKind = lBracket) :
    Does n (precede lhs index >>= fun m => expect lBracket >>= fun _ =>
      question (Proc.call (Rule.operand 0)) fun _ => expect rBracket >>= fun _ =>
        complete m >>= fun lhs => Proc.call (loop lhs)) s
      fun o s' tr => ChainPost lhs s o s' tr := by
  refine precede_does hplaced (expect_does (inRange_preceded hs _ _) (by decide) ?_)
  intro b s₁ h₁ hlt
  have hroom₁ := (hroom.preceded _ _).advance h₁
    (inRange_preceded hs _ _) (hlt hat)
  refine question_does (call_last (below_of_room ⟨h₁.range, trivial⟩ hroom₁ (by decide))
    fun o s₂ tr h => h) ?_ ?_
  · intro m s₂ tr₂ hoperand
    have h₂ := OperandPost.present hoperand (by simp)
    refine expect_does h₂.range (by decide) ?_
    intro b' s₃ h₃ _
    have hgrows := h₁.trans (h₂.trans h₃)
    rw [List.append_nil] at hgrows
    exact complete_does (link_does hloop (show index ≠ SyntaxKind.tombstone by decide)
      hplaced hgrows ((hroom₁.grows h₂).grows h₃))
  · intro s₂ tr₂ hoperand
    exact ChainPost.lost (by decide) hplaced (h₁.lost (OperandPost.missing hoperand rfl))

theorem rSimpleExprLoop_does {allowCall : Bool} {lhs : CompletedMarker} (hs : InRange s)
    (hplaced : Placed lhs s) (hroom : Room 0 n s) :
    Does n (rSimpleExprLoop allowCall lhs) s fun o s' tr => ChainPost lhs s o s' tr := by
  have hloop := chainRule_simpleExprLoop allowCall
  refine atKind_does (ite_does ?_ ?_)
  · intro hat
    exact callLink_does hloop hs hplaced hroom (by simp at hat; exact hat.1)
  · intro _
    refine ite_does ?_ ?_
    · intro hat
      exact indexLink_does hloop hs hplaced hroom hat
    · intro _
      refine ite_does ?_ ?_
      · intro hat
        exact methodLink_does hloop hs hplaced hroom hat
      · intro _
        refine ite_does ?_ ?_
        · intro hat
          refine precede_does hplaced (expect_does (inRange_preceded hs _ _) ?_ ?_)
          · rw [hat]
            decide
          · intro b s₁ h₁ hlt
            have hroom₁ := (hroom.preceded _ _).advance h₁
              (inRange_preceded hs _ _) (hlt rfl)
            refine Does.seq (rIdent_does h₁.range) ?_
            rintro o s₂ tr₂ ⟨hnode, rfl, -⟩
            have h₂ := hnode.grows (by decide)
            exact complete_does (link_does hloop (show binOp ≠ SyntaxKind.tombstone by decide)
              hplaced (h₁.trans h₂) (hroom₁.grows h₂))
        · intro _
          exact pure_does (ChainPost.done hs)

theorem infix_ne_eof {t : SyntaxKind} {p : ℕ × ℕ} (h : infixBindingPower t = some p) :
    t ≠ eof := by
  rintro rfl
  cases h

theorem rExprLoop_does {bp : ℕ} {lhs : CompletedMarker} (hs : InRange s) (hplaced : Placed lhs s)
    (hroom : Room 0 n s) :
    Does n (rExprLoop bp lhs) s fun o s' tr => ChainPost lhs s o s' tr := by
  have hloop := chainRule_exprLoop bp
  refine atKind_does (ite_does ?_ ?_)
  · intro hat
    exact methodLink_does hloop hs hplaced hroom hat
  · intro _
    refine ite_does ?_ ?_
    · intro hat
      exact callLink_does hloop hs hplaced hroom hat.1
    · intro _
      refine ite_does ?_ ?_
      · intro hat
        exact indexLink_does hloop hs hplaced hroom hat.1
      · intro _
        cases hinfix : infixBindingPower s.atKind with
        | none => exact pure_does (ChainPost.done hs)
        | some p =>
            obtain ⟨lBp, rBp⟩ := p
            refine ite_does ?_ ?_
            · intro _
              exact pure_does (ChainPost.done hs)
            · intro _
              refine precede_does hplaced
                (expect_does (inRange_preceded hs _ _) (infix_ne_eof hinfix) ?_)
              intro b s₁ h₁ hlt
              have hroom₁ := (hroom.preceded _ _).advance h₁
                (inRange_preceded hs _ _) (hlt rfl)
              have hoperand : Does n (if s.atKind = dot then rIdent
                  else Proc.call (Rule.operand rBp)) s₁
                  fun o s₂ tr => OperandPost s₁ o s₂ tr := by
                refine ite_does ?_ ?_
                · intro _
                  refine Does.mono (rIdent_does h₁.range) ?_
                  rintro o s₂ tr ⟨hnode, -, -⟩
                  refine ⟨fun _ => hnode.grows (by decide), ?_⟩
                  intro hnone
                  rw [hnode.result] at hnone
                  cases hnone
                · intro _
                  exact call_last (below_of_room ⟨h₁.range, trivial⟩ hroom₁
                    (show 1 < 4 by decide)) fun o s₂ tr h => h
              refine question_does hoperand ?_ ?_
              · intro m s₂ tr₂ hpost
                have h₂ := hpost.present (by simp)
                exact complete_does (link_does hloop (show binOp ≠ SyntaxKind.tombstone by decide)
                  hplaced (h₁.trans h₂) (hroom₁.grows h₂))
              · intro s₂ tr₂ hpost
                exact ChainPost.lost (by decide) hplaced (h₁.lost (hpost.missing rfl))

/-! ### Simple expressions and functions -/

/-- A name and the chain behind it, or an expression in parentheses. -/
theorem rSimpleExpr_does {allowCall : Bool} (hs : InRange s) (hroom : Room 1 n s) :
    Does n (rSimpleExpr allowCall) s fun _ s' tr =>
      Grows s s' tr ∧ (s.atKind = ident ∨ s.atKind = lParen → s.cursor < s'.cursor) := by
  refine atKind_does (ite_does ?_ ?_)
  · intro hat
    refine Does.mono (rExpr_does hs hroom) ?_
    intro o s₁ tr h
    refine ⟨h.grows, ?_⟩
    intro _
    exact h.progress (by rw [hat]; decide)
  · intro hat
    refine question_does (rIdent_does hs) ?_ ?_
    · rintro m s₁ tr₁ ⟨hnode, rfl, hlt⟩
      have hm := Option.some.inj hnode.result
      subst hm
      have h₁ := hnode.grows (by decide)
      refine call_last (below_of_room ⟨h₁.range, hnode.placed⟩ (hroom.grows h₁)
        (show 0 < 1 by decide)) ?_
      intro o s₂ tr₂ hchain
      refine ⟨(hnode.chain (by decide) hchain).1, ?_⟩
      rintro (hident | hparen)
      · exact (hlt hident).trans_le (ChainPost.le hchain)
      · exact absurd hparen hat
    · rintro s₁ tr₁ ⟨hnode, -⟩
      cases hnode.result

theorem rVarargName_does (hs : InRange s) :
    Does n rVarargName s fun _ s' tr => Grows s s' tr ∧ tr = [] := by
  refine atKind_does (ite_does ?_ ?_)
  · intro _
    refine Does.seq (rIdent_does hs) ?_
    rintro o s₁ tr ⟨hnode, rfl, -⟩
    exact pure_does ⟨hnode.grows (by decide), rfl⟩
  · intro _
    exact pure_does ⟨Grows.refl hs, rfl⟩

/-- Parameters that end here are all there. -/
theorem DefArgsPost.of_end {marker : Marker} {s' : PState} {tr : Trace}
    (hexpected : Expected (Rule.defArgsLoop marker, s) = true) (htr : AllExpected tr)
    (h : ∃ s₂, Grows s s₂ tr ∧ s' = s₂.push Event.exit) :
    DefArgsPost s s' ((Rule.defArgsLoop marker, s) :: tr) := by
  obtain ⟨s₂, hgrows, rfl⟩ := h
  have hall := (allExpected_plain hexpected).mpr htr
  refine ⟨hgrows.tokens, hgrows.le, inRange_push hgrows.range _, ?_, ?_⟩
  · intro _
    exact ⟨s₂, hgrows.congr (allExpected_plain hexpected), rfl⟩
  · intro hno
    exact absurd hall hno

theorem rDefArgsLoop_does {marker : Marker} (hs : InRange s) (hroom : Room 0 n s) :
    Does n (rDefArgsLoop marker) s fun _ s' tr =>
      DefArgsPost s s' ((Rule.defArgsLoop marker, s) :: tr) := by
  refine atKind_does (ite_does ?_ ?_)
  · intro hat
    refine expect_does hs (by decide) ?_
    intro b s₁ h₁ _
    refine completed_does (DefArgsPost.of_end ?_ allExpected_nil ⟨s₁, h₁, rfl⟩)
    simp [Expected, hat]
  · intro hparen
    refine ite_does ?_ ?_
    · intro hat
      have hexpected : Expected (Rule.defArgsLoop marker, s) = true := by
        simp [Expected, hat]
      refine start_does (expect_does (inRange_push hs _) (by decide) ?_)
      intro b s₁ h₁ _
      refine Does.seq (rVarargName_does h₁.range) ?_
      rintro _ s₂ tr ⟨h₂, rfl⟩
      refine complete_does ?_
      have hvararg : Grows s (s₂.push Event.exit) [] := Grows.node (by decide) (h₁.trans h₂)
      refine expect_does hvararg.range (by decide) ?_
      intro b' s₃ h₃ _
      exact completed_does
        (DefArgsPost.of_end hexpected allExpected_nil ⟨s₃, hvararg.trans h₃, rfl⟩)
    · intro hvararg
      refine ite_does ?_ ?_
      · intro hat
        have hexpected : Expected (Rule.defArgsLoop marker, s) = true := by
          simp [Expected, hat]
        refine Does.seq (rIdent_does hs) ?_
        rintro o s₁ tr ⟨hnode, rfl, hlt⟩
        have h₁ := hnode.grows (by decide)
        refine atKind_does (ite_does ?_ ?_)
        · intro _
          refine expect_does h₁.range (by decide) ?_
          intro b s₂ h₂ _
          have hroom₂ := Room.grows (hroom.advance h₁ hs (hlt hat)) h₂
          refine call_last (below_of_room ⟨h₂.range, trivial⟩ hroom₂ (show 0 < 4 by decide)) ?_
          intro o' s₃ tr₃ hpost
          exact Grows.defArgs ((h₁.trans h₂).congr (allExpected_plain hexpected)) hpost
            ((allExpected_plain hexpected).mpr allExpected_nil)
        · intro _
          refine expect_does h₁.range (by decide) ?_
          intro b s₂ h₂ _
          exact completed_does
            (DefArgsPost.of_end hexpected allExpected_nil ⟨s₂, h₁.trans h₂, rfl⟩)
      · intro hname
        refine report_does (pure_does ?_)
        have hno : ¬AllExpected [(Rule.defArgsLoop marker, s)] := by
          intro hall
          have := (allExpected_cons.mp hall).1
          simp [Expected, hparen, hvararg, hname] at this
        have hgrows := report_grows hs "unexpected token" ("expected token one of [" ++
          SyntaxKind.rParen.display ++ ", " ++ tDot.display ++ ", " ++ ident.display ++
          "] but found " ++ s.atKind.display)
        refine ⟨hgrows.tokens, hgrows.le, hgrows.range, fun hall => absurd hall hno, ?_⟩
        intro _
        exact ⟨hgrows.tokens, hgrows.le, hgrows.range, hgrows.exits_le, hno⟩

theorem rFuncDefArgs_does (hs : InRange s) (hroom : Room 4 n s) :
    Does n rFuncDefArgs s (GrowsBy s) := by
  refine start_does (expect_does (inRange_push hs _) (by decide) ?_)
  intro b s₁ h₁ _
  have hroom₁ := (hroom.push _).grows h₁
  refine call_last (below_of_room ⟨h₁.range, trivial⟩ hroom₁ (show 0 < 4 by decide)) ?_
  intro o s₂ tr hpost
  exact DefArgsPost.node (by decide) (h₁.defArgs hpost allExpected_nil)

theorem rBlock_does {stop : BlockEnd} (hs : InRange s) (hroom : Room 4 n s) :
    Does n (rBlock stop) s fun o s' tr =>
      NodeOf stmtList s o s' tr ∧ stop.stops s'.atKind = true := by
  refine start_does (call_does (below_of_room ⟨inRange_push hs _, trivial⟩
    (hroom.push _) (show 3 < 4 by decide)) ?_)
  rintro o s₁ tr₁ ⟨h₁, hstop⟩
  exact completed_does ⟨⟨rfl, s₁, h₁.trans (Grows.refl h₁.range), rfl⟩, hstop⟩

theorem rFuncName_does {isExpr : Bool} (hs : InRange s) (hroom : Room 4 n s) :
    Does n (rFuncName isExpr) s (GrowsBy s) := by
  refine ite_does ?_ ?_
  · intro _
    exact pure_does (Grows.refl hs)
  · intro _
    refine Does.seq (rSimpleExpr_does hs (hroom.mono (by decide))) ?_
    rintro o s₁ tr ⟨h₁, -⟩
    exact pure_does (h₁.trans (Grows.refl h₁.range))

theorem rFunc_does {isExpr : Bool} (hs : InRange s) (hready : Ready n functionKw s) :
    Does n (rFunc isExpr) s fun o s' tr =>
      NodeOf (if isExpr then funcExpr else funcStmt) s o s' tr ∧
        (s.atKind = functionKw → s.cursor < s'.cursor) := by
  refine start_does (expect_does (inRange_push hs _) (by decide) ?_)
  intro b s₁ h₁ hlt
  have hroom := Ready.room (show Ready n functionKw (s.push _) from hready) (inRange_push hs _)
    h₁ hlt
  refine Does.seq (rFuncName_does h₁.range hroom) ?_
  intro _ s₂ tr₂ h₂
  have hroom₂ := hroom.grows h₂
  refine Does.seq (rFuncDefArgs_does (Grows.range h₂) hroom₂) ?_
  intro _ s₃ tr₃ h₃
  have hroom₃ := hroom₂.grows h₃
  refine Does.seq (rBlock_does (Grows.range h₃) hroom₃) ?_
  rintro _ s₄ tr₄ ⟨hblock, -⟩
  have h₄ := hblock.grows (by decide)
  refine expect_does h₄.range (by decide) ?_
  intro b' s₅ h₅ _
  refine completed_does
    ⟨⟨rfl, s₅, h₁.trans (Grows.trans h₂ (Grows.trans h₃ (h₄.trans h₅))), ?_⟩, ?_⟩
  · rfl
  · intro hat
    have hle := ((Grows.le h₂).trans (Grows.le h₃)).trans (h₄.le.trans h₅.le)
    exact (hlt hat).trans_le hle

/-! ### Tables -/

theorem rTableElem_does (hs : InRange s) (hroom : Room 1 n s) :
    Does n rTableElem s (GrowsBy s) := by
  refine ite_does ?_ ?_
  · -- a name with a value
    intro _
    refine start_does (Does.seq (rIdent_grows (inRange_push hs _)) ?_)
    intro _ s₁ tr₁ h₁
    have hroom₁ := (hroom.push _).grows h₁
    refine expect_does (Grows.range h₁) (by decide) ?_
    intro b s₂ h₂ _
    refine Does.seq (rExpr_does h₂.range (hroom₁.grows h₂)) ?_
    intro _ s₃ tr₃ h₃
    exact completed_does (Grows.node (by decide)
      (Grows.trans h₁ (h₂.trans (h₃.grows.trans (Grows.refl h₃.grows.range)))))
  · intro _
    refine ite_does ?_ ?_
    · -- a key in brackets with a value
      intro _
      refine start_does (expect_does (inRange_push hs _) (by decide) ?_)
      intro b s₁ h₁ _
      have hroom₁ := (hroom.push _).grows h₁
      refine Does.seq (rExpr_does h₁.range hroom₁) ?_
      intro _ s₂ tr₂ h₂
      have hroom₂ := hroom₁.grows h₂.grows
      refine expect_does h₂.grows.range (by decide) ?_
      intro b₂ s₃ h₃ _
      refine expect_does h₃.range (by decide) ?_
      intro b₃ s₄ h₄ _
      refine Does.seq (rExpr_does h₄.range ((hroom₂.grows h₃).grows h₄)) ?_
      intro _ s₅ tr₅ h₅
      exact completed_does (Grows.node (by decide) (h₁.trans (h₂.grows.trans (h₃.trans
        (h₄.trans (h₅.grows.trans (Grows.refl h₅.grows.range)))))))
    · intro _
      refine ite_does ?_ ?_
      · -- a value
        intro _
        refine start_does (Does.seq (rExpr_does (inRange_push hs _)
          (hroom.push _)) ?_)
        intro _ s₁ tr₁ h₁
        exact completed_does (Grows.node (by decide)
          (h₁.grows.trans (Grows.refl h₁.grows.range)))
      · intro _
        exact report_does (pure_does (report_grows hs _ _))

theorem rTableLoop_does (hs : InRange s) (hroom : Room 1 n s) :
    Does n rTableLoop s (GrowsBy s) := by
  refine atKind_does (ite_does ?_ ?_)
  · intro _
    refine expect_does hs (by decide) ?_
    intro b s₁ h₁ _
    exact pure_does (h₁.trans (Grows.refl h₁.range))
  · intro _
    refine Does.seq (rTableElem_does hs hroom) ?_
    intro _ s₁ tr₁ h₁
    have hroom₁ := hroom.grows h₁
    refine atKind_does (ite_does ?_ ?_)
    · intro hat
      refine expect_does (Grows.range h₁) ?_ ?_
      · intro heof
        rw [heof] at hat
        simp at hat
      · intro b s₂ h₂ hlt
        have hroom₂ := hroom₁.advance h₂ (Grows.range h₁) (hlt rfl)
        refine call_last (below_of_room ⟨h₂.range, trivial⟩ hroom₂ (show 1 < 4 by decide)) ?_
        intro o s₃ tr₃ h₃
        exact Grows.trans h₁ (h₂.trans h₃)
    · intro _
      refine expect_does (Grows.range h₁) (by decide) ?_
      intro b s₂ h₂ _
      exact pure_does (Grows.trans h₁ (h₂.trans (Grows.refl h₂.range)))

theorem rTable_does (hs : InRange s) (hroom : Room 0 n s) (hat : s.atKind = lCurly) :
    Does n rTable s fun o s' tr => NodeOf tableExpr s o s' tr ∧ s.cursor < s'.cursor := by
  refine start_does (expect_does (inRange_push hs _) (by decide) ?_)
  intro b s₁ h₁ hlt
  have hroom₁ := (hroom.push _).advance h₁ (inRange_push hs _) (hlt hat)
  refine call_does (below_of_room ⟨h₁.range, trivial⟩ hroom₁ (show 1 < 4 by decide)) ?_
  intro o s₂ tr₂ h₂
  have hgrows : Grows s₁ s₂ tr₂ := h₂
  exact completed_does ⟨⟨rfl, s₂, h₁.trans (hgrows.trans (Grows.refl hgrows.range)), rfl⟩,
    (hlt hat).trans_le hgrows.le⟩

/-! ### Expressions -/

/-- An expression without what extends it: a node, or something is missing inside. -/
structure LhsPost (s : PState) (o : Option CompletedMarker) (s' : PState) (tr : Trace) : Prop where
  node : (∃ kind, kind ≠ SyntaxKind.tombstone ∧ NodeOf kind s o s' tr) ∨
    (o = none ∧ Grows s s' tr ∧ ¬AllExpected tr)
  progress : s.cursor < s'.cursor

theorem LhsPost.grows {s' : PState} {o : Option CompletedMarker} {tr : Trace}
    (h : LhsPost s o s' tr) : Grows s s' tr := by
  rcases h.node with ⟨kind, hkind, hnode⟩ | ⟨-, hgrows, -⟩
  · exact hnode.grows hkind
  · exact hgrows

theorem rParen_does (hs : InRange s) (hroom : Room 0 n s) (hat : s.atKind = lParen) :
    Does n rParen s fun o s' tr => LhsPost s o s' tr := by
  refine start_does (expect_does (inRange_push hs _) (by decide) ?_)
  intro b s₁ h₁ hlt
  have hroom₁ := (hroom.push _).advance h₁ (inRange_push hs _) (hlt hat)
  refine question_does (call_last (below_of_room ⟨h₁.range, trivial⟩ hroom₁ (show 1 < 4 by decide))
    fun o s₂ tr h => h) ?_ ?_
  · intro m s₂ tr₂ hpost
    have h₂ := OperandPost.present hpost (by simp)
    refine expect_does h₂.range (by decide) ?_
    intro b' s₃ h₃ _
    exact completed_does ⟨Or.inl ⟨expr, by decide, rfl, s₃, h₁.trans (h₂.trans h₃), rfl⟩,
      ((hlt hat).trans_le h₂.le).trans_le h₃.le⟩
  · intro s₂ tr₂ hpost
    have hlost := OperandPost.missing hpost rfl
    have hall := h₁.lost hlost
    exact ⟨Or.inr ⟨rfl, Lost.grows (by decide) hall, hall.unexpected⟩,
      (hlt hat).trans_le hlost.le⟩

theorem prefixBindingPower_unary {t : SyntaxKind} (h : tokenIsUnaryOp t = true) :
    prefixBindingPower t = some 21 ∧ t ≠ eof := by
  cases t <;> first | exact ⟨rfl, by decide⟩ | cases h

theorem rExprUnary_does (hs : InRange s) (hroom : Room 0 n s)
    (hat : tokenIsUnaryOp s.atKind = true) :
    Does n rExprUnary s fun o s' tr => LhsPost s o s' tr := by
  obtain ⟨hpower, heof⟩ := prefixBindingPower_unary hat
  refine start_does (atKind_does (expect_does (inRange_push hs _) heof ?_))
  intro b s₁ h₁ hlt
  have hroom₁ := (hroom.push _).advance h₁ (inRange_push hs _) (hlt rfl)
  rw [show (s.push (Event.enter prefixOp 0)).atKind = s.atKind from rfl, hpower]
  refine call_does (below_of_room ⟨h₁.range, trivial⟩ hroom₁ (show 0 < 4 by decide)) ?_
  intro o s₂ tr₂ h₂
  have hgrows := ExprPost.grows h₂
  exact completed_does ⟨Or.inl ⟨prefixOp, by decide, rfl, s₂,
    h₁.trans (hgrows.trans (Grows.refl hgrows.range)), rfl⟩, (hlt rfl).trans_le hgrows.le⟩

theorem literal_ne_eof {t : SyntaxKind} (h : tokenIsLiteral t = true) : t ≠ eof := by
  rintro rfl
  cases h

/-- **An expression without what extends it.** -/
theorem rExprLhs_does (hs : InRange s) (hroom : Room 0 n s) :
    Does n rExprLhs s fun o s' tr =>
      (tokenIsExprStart s.atKind = true ∧ LhsPost s o s' tr) ∨
        (tokenIsExprStart s.atKind = false ∧ o = none ∧ s' = s ∧ tr = []) := by
  have htoken : ∀ kind t, kind ≠ SyntaxKind.tombstone → t ≠ eof → s.atKind = t →
      Does n (start kind >>= fun marker => expect t >>= fun _ => completed marker) s
        fun o s' tr => LhsPost s o s' tr := by
    intro kind t hkind ht hat
    refine Does.mono (tokenNode_does hs ht) ?_
    rintro o s' tr ⟨hnode, -, hlt⟩
    exact ⟨Or.inl ⟨kind, hkind, hnode⟩, hlt hat⟩
  refine atKind_does (ite_does ?_ ?_)
  · intro hat
    refine Does.mono (htoken ident ident (by decide) (by decide) hat) ?_
    intro o s' tr h
    exact Or.inl ⟨by rw [hat]; decide, h⟩
  · intro hident
    refine ite_does ?_ ?_
    · intro hat
      refine Does.mono (htoken varArgExpr tDot (by decide) (by decide) hat) ?_
      intro o s' tr h
      exact Or.inl ⟨by rw [hat]; decide, h⟩
    · intro hvararg
      refine ite_does ?_ ?_
      · intro hat
        refine Does.mono (rTable_does hs hroom hat) ?_
        rintro o s' tr ⟨hnode, hlt⟩
        exact Or.inl ⟨by rw [hat]; decide, Or.inl ⟨tableExpr, by decide, hnode⟩, hlt⟩
      · intro hcurly
        refine ite_does ?_ ?_
        · intro hat
          refine Does.mono (rParen_does hs hroom hat) ?_
          intro o s' tr h
          exact Or.inl ⟨by rw [hat]; decide, h⟩
        · intro hparen
          refine ite_does ?_ ?_
          · intro hat
            refine Does.mono (rFunc_does hs (Or.inr ⟨hroom, hat⟩)) ?_
            rintro o s' tr ⟨hnode, hlt⟩
            exact Or.inl ⟨by rw [hat]; decide, Or.inl ⟨funcExpr, by decide, hnode⟩, hlt hat⟩
          · intro hfunction
            refine ite_does ?_ ?_
            · intro hat
              refine Does.mono (rExprUnary_does hs hroom hat) ?_
              intro o s' tr h
              exact Or.inl ⟨by simp [tokenIsExprStart, hat], h⟩
            · intro hunary
              refine ite_does ?_ ?_
              · intro hat
                refine Does.mono (htoken literalExpr s.atKind (by decide)
                  (literal_ne_eof hat) rfl) ?_
                intro o s' tr h
                exact Or.inl ⟨by simp [tokenIsExprStart, hat], h⟩
              · intro hliteral
                refine pure_does (Or.inr ⟨?_, rfl, rfl, rfl⟩)
                rw [Bool.not_eq_true] at hunary hliteral
                simp [tokenIsExprStart, hident, hvararg, hcurly, hparen, hfunction, hunary,
                  hliteral]

/-- **An expression.** -/
theorem rExprInner_does {bp : ℕ} (hs : InRange s) (hroom : Room 0 n s) :
    Does n (rExprInner bp) s fun o s' tr => ExprPost s o s' tr := by
  refine question_does (rExprLhs_does hs hroom) ?_ ?_
  · rintro lhs s₁ tr₁ (⟨hstart, hlhs⟩ | ⟨-, hnone, -⟩)
    · rcases hlhs.node with ⟨kind, hkind, hnode⟩ | ⟨hnone, -⟩
      · have hm := Option.some.inj hnode.result
        subst hm
        have h₁ := hlhs.grows
        refine call_last (below_of_room ⟨h₁.range, hnode.placed⟩
          (hroom.advance h₁ hs hlhs.progress) (show 0 < 4 by decide)) ?_
        intro o s₂ tr₂ hchain
        obtain ⟨hgrows, hfound⟩ := hnode.chain hkind hchain
        refine ⟨hgrows, fun _ => hlhs.progress.trans_le (ChainPost.le hchain), ?_,
          fun _ hnone => hfound hnone⟩
        intro hno
        rw [hstart] at hno
        cases hno
      · cases hnone
    · cases hnone
  · rintro s₁ tr₁ (⟨hstart, hlhs⟩ | ⟨hstart, -, rfl, rfl⟩)
    · refine ⟨hlhs.grows, fun _ => hlhs.progress, fun _ => rfl, ?_⟩
      intro _ _
      rcases hlhs.node with ⟨kind, hkind, hnode⟩ | ⟨-, -, hno⟩
      · cases hnode.result
      · exact hno
    · refine ⟨Grows.refl hs, ?_, fun _ => rfl, ?_⟩
      · intro hyes
        rw [hstart] at hyes
        cases hyes
      · intro hyes
        rw [hstart] at hyes
        cases hyes

end Tcvm.Parser
