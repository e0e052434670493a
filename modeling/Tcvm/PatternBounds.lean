/-
What a match may not touch, and what a failed one puts back.

A part of the search that finds no match leaves the level, the budget of calls and the captures in
use as they were; this needs no assumption on the state that it is begun in.  A match that is found
ends in the subject, behind its beginning, and the captures lie in between.  The one thing that goes
wrong is the counter of `%b`.

* `Undoes` — a part of the search that leaves everything as it was when it fails;
* `doMatch_undoes` — every sub-match does;
* `derives_from` — the captures lie behind the beginning;
* `matcher_bounded_iff` — **the runs that stay within their bounds**.
-/

import Tcvm.PatternSearch

namespace Tcvm.Pattern

open Logged

variable {src pat : List UInt8} {st st' : MatchState} {m : ℕ → ℕ → MatchM (Option ℕ)}

/-! ### Failed parts -/

/-- When no match is found, everything is as it was. -/
def Undoes (x : MatchM (Option ℕ)) : Prop :=
  ∀ st, Returns x st fun r st' => r = none → Same st st'

/-- A round that finds no match leaves everything as it was. -/
def UndoesRound (x : MatchM Step) : Prop :=
  ∀ st, Returns x st fun step st' => (∀ e, step ≠ Step.done (some e)) → Same st st'

/-- A part of the search, and another one where it fails. -/
theorem Undoes.orElse {α : Type} {x : MatchM (Option ℕ)} {f : ℕ → MatchM α} {g : MatchM α}
    {Q : α → MatchState → Prop} (hx : Undoes x) (hsome : ∀ e st₁, Returns (f e) st₁ Q)
    (hnone : ∀ st₁, Same st st₁ → Returns g st₁ Q) :
    Returns (x >>= fun r => match r with
      | some e => f e
      | none => g) st Q := by
  refine Returns.bind ((hx st).mono ?_)
  intro r st₁ hsame
  cases r with
  | some e => exact hsome e st₁
  | none => exact hnone st₁ (hsame rfl)

theorem startCapture_undoes (hm : ∀ s p, Undoes (m s p)) (s p : ℕ) (what : CapLen) :
    Undoes (startCapture m s p what) := by
  intro st
  refine Returns.get ?_
  by_cases hfull : MAX_CAPTURES ≤ st.level
  · rw [if_pos hfull]
    exact Returns.fail
  · rw [if_neg hfull]
    refine Returns.modify (Returns.modify ((hm s p).orElse ?_ ?_))
    · exact fun e st₁ => Returns.pure fun hnone => (nomatch hnone)
    · intro st₁ hsame
      exact Returns.modify (Returns.pure fun _ => caps_dropped (Nat.lt_of_not_le hfull) hsame)

/-- The capture to close is one in use, and open. -/
theorem captureToClose_spec {l : ℕ} {c : Capture} (hl : captureToClose st = Except.ok l)
    (hc : captureAt st l = Except.ok c) :
    (caps st)[l]? = some c ∧ c.len = CapLen.unfinished := by
  rw [captureToClose] at hl
  cases hfind : (List.range st.level).reverse.find? (isUnfinished st) with
  | none =>
      rw [hfind] at hl
      cases hl
  | some k =>
      rw [hfind] at hl
      cases hl
      have hmem := List.mem_reverse.mp (List.mem_of_find?_eq_some hfind)
      have hlt : l < st.level := List.mem_range.mp hmem
      have hopen := List.find?_some hfind
      rw [captureAt] at hc
      rw [isUnfinished] at hopen
      cases hget : st.capture[l]? with
      | none =>
          rw [hget] at hc
          cases hc
      | some d =>
          rw [hget] at hc hopen
          cases hc
          exact ⟨(capture_of_lt hlt).symm.trans hget, of_decide_eq_true hopen⟩

theorem endCapture_undoes (hm : ∀ s p, Undoes (m s p)) (s p : ℕ) :
    Undoes (endCapture m s p) := by
  intro st
  refine Returns.get (Returns.lift fun l hl => Returns.lift fun c hc => ?_)
  split
  case isTrue => exact Returns.fail
  case isFalse =>
    refine Returns.modify ((hm s p).orElse ?_ ?_)
    · exact fun e st₁ => Returns.pure fun hnone => (nomatch hnone)
    · intro st₁ hsame
      refine Returns.get (Returns.lift fun d hd => Returns.modify (Returns.pure fun _ => ?_))
      -- what is read back is the capture that was closed, and it is opened again
      obtain ⟨hget, hopen⟩ := captureToClose_spec hl hc
      obtain ⟨hlt, heq⟩ := List.getElem?_eq_some_iff.mp hget
      have hcaps : caps st₁ = (caps st).set l { init := c.init, len := CapLen.len (s - c.init) } :=
        hsame.caps.trans (caps_changed st l _)
      have hlevel : l < st₁.level := Nat.lt_of_lt_of_eq (lt_of_caps hget) hsame.level.symm
      have hclosed : (caps st₁)[l]? = some { init := c.init, len := CapLen.len (s - c.init) } := by
        rw [hcaps, List.getElem?_set_self hlt]
      rw [captureAt_eq hlevel hclosed] at hd
      cases hd
      refine ⟨hsame.depth, hsame.level, ?_⟩
      show caps (changed st₁ l { init := c.init, len := CapLen.unfinished }) = _
      rw [caps_changed, hcaps, List.set_set, ← hopen]
      show (caps st).set l c = caps st
      rw [← heq]
      exact List.set_getElem_self hlt

theorem backOff_undoes (hm : ∀ s p, Undoes (m s p)) (s ep i : ℕ) : Undoes (backOff m s ep i) := by
  induction i with
  | zero => exact hm s (ep + 1)
  | succ i ih =>
      intro st
      refine (hm _ _).orElse (fun e st₁ => Returns.pure fun hnone => (nomatch hnone)) ?_
      intro st₁ hsame
      exact (ih st₁).mono fun r st₂ hback hnone => hsame.trans (hback hnone)

theorem maxExpand_undoes (hm : ∀ s p, Undoes (m s p)) (s p ep : ℕ) :
    Undoes (maxExpand m src pat s p ep) := fun st =>
  Returns.lift fun i _ => backOff_undoes hm s ep i st

theorem minExpand_undoes (hm : ∀ s p, Undoes (m s p)) (p ep : ℕ) (fuel : ℕ) :
    ∀ s, Undoes (minExpand m src pat p ep fuel s) := by
  induction fuel with
  | zero => exact fun s st => Returns.fail
  | succ fuel ih =>
      intro s st
      refine (hm _ _).orElse (fun e st₁ => Returns.pure fun hnone => (nomatch hnone)) ?_
      intro st₁ hsame
      refine Returns.lift fun matched _ => ?_
      cases matched with
      | true => exact (ih (s + 1) st₁).mono fun r st₂ hback hnone => hsame.trans (hback hnone)
      | false => exact Returns.pure fun _ => hsame

/-- The result of a part is that of the round. -/
theorem Undoes.round {x : MatchM (Option ℕ)} (hx : Undoes x) :
    UndoesRound (x >>= fun r => pure (Step.done r)) := by
  intro st
  refine Returns.bind ((hx st).mono ?_)
  intro r st₁ hsame
  refine Returns.pure fun hfailed => hsame ?_
  cases r with
  | none => rfl
  | some e => exact absurd rfl (hfailed e)

theorem matchDefault_undoes (hm : ∀ s p, Undoes (m s p)) (s p : ℕ) :
    UndoesRound (matchDefault m src pat s p) := by
  intro st
  refine Returns.lift fun ep _ => Returns.lift fun matched _ => ?_
  cases matched with
  | false =>
      rw [if_neg Bool.false_ne_true]
      split
      · exact Returns.pure fun _ => Same.refl st
      · exact Returns.pure fun _ => Same.refl st
  | true =>
      rw [if_pos rfl]
      split
      case isTrue =>
        refine (hm _ _).orElse ?_ fun st₁ hsame => Returns.pure fun _ => hsame
        exact fun e st₁ => Returns.pure fun hfailed => absurd rfl (hfailed e)
      case isFalse =>
        split
        case isTrue => exact (maxExpand_undoes hm _ p ep).round st
        case isFalse =>
          split
          case isTrue => exact (maxExpand_undoes hm s p ep).round st
          case isFalse =>
            split
            case isTrue => exact (minExpand_undoes hm p ep _ s).round st
            case isFalse => exact Returns.pure fun _ => Same.refl st

/-- A scan for a balanced run changes nothing. -/
theorem matchBalance_same (s p : ℕ) (st : MatchState) :
    Returns (matchBalance src pat s p) st fun _ st' => st' = st := by
  rw [matchBalance]
  split
  case isTrue => exact Returns.fail
  case isFalse =>
    refine Returns.lift fun b _ => Returns.lift fun e _ => ?_
    split
    case isTrue =>
      exact Returns.tell (Returns.lifted fun r _ => rfl)
    case isFalse => exact Returns.pure rfl

theorem matchStep_undoes (hm : ∀ s p, Undoes (m s p)) (s p : ℕ) :
    UndoesRound (matchStep m src pat s p) := by
  intro st
  rw [matchStep]
  split
  case h_1 => exact Returns.pure fun hfailed => absurd rfl (hfailed s)
  case h_2 c hc =>
    split
    case isTrue =>
      split
      · exact (startCapture_undoes hm s _ _).round st
      · exact (startCapture_undoes hm s _ _).round st
    case isFalse =>
      split
      case isTrue => exact (endCapture_undoes hm s _).round st
      case isFalse =>
        split
        case isTrue => exact Returns.pure fun _ => Same.refl st
        case isFalse =>
          split
          case isFalse => exact matchDefault_undoes hm s p st
          case isTrue =>
            split
            case h_2 => exact matchDefault_undoes hm s p st
            case h_1 d hd =>
              split
              case isTrue =>
                refine Returns.bind ((matchBalance_same s _ st).mono ?_)
                rintro r st₁ rfl
                cases r with
                | some ns => exact Returns.pure fun _ => Same.refl st₁
                | none => exact Returns.pure fun _ => Same.refl st₁
              case isFalse =>
                split
                case isTrue =>
                  exact Returns.lifted fun step _ _ => Same.refl st
                case isFalse =>
                  split
                  case isFalse => exact matchDefault_undoes hm s p st
                  case isTrue =>
                    refine Returns.get (Returns.lift fun r _ => ?_)
                    cases r with
                    | some ns => exact Returns.pure fun _ => Same.refl st
                    | none => exact Returns.pure fun _ => Same.refl st

theorem matchLoop_undoes (hm : ∀ s p, Undoes (m s p)) (fuel : ℕ) :
    ∀ s p, Undoes (matchLoop m src pat fuel s p) := by
  induction fuel with
  | zero => exact fun s p st => Returns.fail
  | succ fuel ih =>
      intro s p st
      refine Returns.bind ((matchStep_undoes hm s p st).mono ?_)
      intro step st₁ hsame
      cases step with
      | init s' p' =>
          have hsame := hsame fun e h => nomatch h
          exact (ih s' p' st₁).mono fun r st₂ hloop hnone => hsame.trans (hloop hnone)
      | done r =>
          refine Returns.pure fun hnone => hsame fun e h => ?_
          rw [hnone] at h
          cases h

/-- **A sub-match that fails leaves everything as it was**, whatever it is begun with. -/
theorem doMatch_undoes (n : ℕ) : ∀ s p, Undoes (doMatch src pat n s p) := by
  induction n with
  | zero => exact fun s p st => Returns.fail
  | succ n ih =>
      intro s p st
      refine Returns.get ?_
      split
      case isTrue => exact Returns.fail
      case isFalse hdepth =>
        refine Returns.modify (Returns.bind ((matchLoop_undoes ih _ s p _).mono ?_))
        intro r st₁ hloop
        refine Returns.modify (Returns.pure fun hnone => ?_)
        obtain ⟨hbudget, hlevel, hcaps⟩ := hloop hnone
        refine ⟨?_, hlevel, hcaps⟩
        show st₁.matchdepth + 1 = st.matchdepth
        rw [hbudget]
        exact Nat.sub_add_cancel (Nat.one_le_iff_ne_zero.mpr hdepth)

/-! ### Captures behind the beginning -/

/-- A point behind a place, and its captures too. -/
def From (s : ℕ) (x : Point) : Prop := s ≤ x.place ∧ ∀ c ∈ x.caps, s ≤ c.init

theorem choices_from {s : ℕ} {e : Elem} {x y : Point} (h : From s x) (hy : y ∈ e.choices src x) :
    From s y := by
  obtain ⟨hplace, hcaps⟩ := h
  have hpushed : ∀ what,
      From s { x with caps := x.caps ++ [{ init := x.place, len := what }] } := by
    intro what
    refine ⟨hplace, fun c hc => ?_⟩
    rcases List.mem_append.mp hc with hc | hc
    · exact hcaps c hc
    · rw [List.mem_singleton.mp hc]
      exact hplace
  cases e with
  | single sg rep =>
      obtain ⟨k, -, rfl⟩ := List.mem_map.mp hy
      exact ⟨Nat.le_add_right_of_le hplace, hcaps⟩
  | openCapture =>
      rw [Elem.choices] at hy
      split at hy
      · rw [List.mem_singleton.mp hy]
        exact hpushed _
      · cases hy
  | position =>
      rw [Elem.choices] at hy
      split at hy
      · rw [List.mem_singleton.mp hy]
        exact hpushed _
      · cases hy
  | close =>
      rw [Elem.choices] at hy
      cases hopen : lastOpen x.caps with
      | none =>
          rw [hopen] at hy
          cases hy
      | some l =>
          rw [hopen] at hy
          rw [List.mem_singleton.mp hy]
          refine ⟨hplace, fun c hc => ?_⟩
          -- closing a capture leaves its beginning where it is
          obtain ⟨i, hi⟩ := List.mem_iff_getElem?.mp hc
          rw [List.getElem?_modify] at hi
          obtain ⟨d, hd, rfl⟩ := Option.map_eq_some_iff.mp hi
          have hfrom := hcaps d (List.mem_of_getElem? hd)
          split
          · exact hfrom
          · exact hfrom
  | backReference n =>
      rw [Elem.choices] at hy
      split at hy
      · split at hy
        · rw [List.mem_singleton.mp hy]
          exact ⟨Nat.le_add_right_of_le hplace, hcaps⟩
        · cases hy
      · cases hy
  | balance b c =>
      rw [Elem.choices] at hy
      split at hy
      · split at hy
        · rw [List.mem_singleton.mp hy]
          exact ⟨Nat.le_add_right_of_le (Nat.le_add_right_of_le hplace), hcaps⟩
        · cases hy
      · cases hy
  | frontier set =>
      rw [Elem.choices] at hy
      generalize (if x.place = 0 then 0 else (src[x.place - 1]?).getD 0) = prev at hy
      split at hy
      · rw [List.mem_singleton.mp hy]
        exact ⟨hplace, hcaps⟩
      · cases hy
  | endAnchor =>
      rw [Elem.choices] at hy
      split at hy
      · rw [List.mem_singleton.mp hy]
        exact ⟨hplace, hcaps⟩
      · cases hy
  | malformed => cases hy

/-- What is derived lies behind the beginning. -/
theorem derives_from {s : ℕ} {es : List Elem} {x y : Point} (h : Derives src es x y)
    (hx : From s x) : From s y := by
  induction h with
  | nil x => exact hx
  | cons hy h ih => exact ih (choices_from hx hy)

/-! ### The bounds -/

/-- How a match may end: with a place of the subject behind its beginning and the captures in
between, with nothing found and nothing changed, or with an error of the pattern. -/
def EndsInBounds (src : List UInt8) (s : ℕ) (st : MatchState) :
    Except Stop (Option ℕ × MatchState) → Prop
  | Except.ok (some e, st') => s ≤ e ∧ e ≤ src.length ∧
      ∀ c ∈ caps st', ∀ n, c.len = CapLen.len n → s ≤ c.init ∧ c.init + n ≤ e
  | Except.ok (none, st') => Same (started st) st'
  | Except.error (Stop.error _) => True
  | Except.error _ => False

/-- A matcher within its bounds, whose sub-matches put back what they changed when they fail. -/
structure MatcherBounded (src pat : List UInt8) (s : ℕ) (st : MatchState) : Prop where
  ends : EndsInBounds src s st (matchAt src pat s st).2
  submatch : ∀ n s p, Undoes (doMatch src pat n s p)
  capture : ∀ n s p what, Undoes (startCapture (doMatch src pat n) s p what)
  closing : ∀ n s p, Undoes (endCapture (doMatch src pat n) s p)
  greedy : ∀ n s p ep, Undoes (maxExpand (doMatch src pat n) src pat s p ep)
  reluctant : ∀ n fuel s p ep, Undoes (minExpand (doMatch src pat n) src pat p ep fuel s)
  item : ∀ n s p, UndoesRound (matchDefault (doMatch src pat n) src pat s p)

/-- **The runs that stay within their bounds** are those in which no scan for a balanced run has
more delimiters open at once than an `i32` counts. -/
theorem matcher_bounded_iff (src pat : List UInt8) (s : ℕ) (st : MatchState) (hs : s ≤ src.length) :
    MatcherBounded src pat s st ↔ ∀ scan ∈ (matchAt src pat s st).1,
      ¬ TooDeep scan.opening scan.closing 1 (src.drop scan.start) := by
  have hsound : Sound (scans src) (matchAt src pat s) st _ := matchAt_sound hs
  constructor
  · intro hbounded scan hscan hdeep
    have hcrash := hsound.crash_iff.mpr ⟨scan, hscan, fun hno => hno hdeep⟩
    have hends := hbounded.ends
    rw [hcrash] at hends
    exact hends
  · intro hlog
    have hundoes : ∀ n s p, Undoes (doMatch src pat n s p) := doMatch_undoes
    refine ⟨?_, hundoes, fun n => startCapture_undoes (hundoes n),
      fun n => endCapture_undoes (hundoes n), fun n => maxExpand_undoes (hundoes n),
      fun n fuel s p ep => minExpand_undoes (hundoes n) p ep fuel s,
      fun n => matchDefault_undoes (hundoes n)⟩
    have hends := hsound.ends hlog
    cases hresult : (matchAt src pat s st).2 with
    | error e =>
        rw [hresult] at hends
        obtain ⟨pe, rfl⟩ := hends
        trivial
    | ok x =>
        obtain ⟨r, st'⟩ := x
        rw [hresult] at hends
        cases r with
        | none => exact hends.2
        | some e =>
            obtain ⟨hfirst, hgood, -⟩ := hends
            have hderived := mem_search_iff.mp (List.mem_of_mem_head? hfirst)
            obtain ⟨hplace, hcaps⟩ := derives_from hderived
              (⟨Nat.le_refl s, fun c hc => nomatch hc⟩ : From s { place := s, caps := [] })
            refine ⟨hplace, hgood.place, fun c hc n hn => ⟨hcaps c hc, ?_⟩⟩
            exact (hgood.front c hc).2 n hn

/-- `(%b())` at the second byte of `a(b)`. -/
theorem matcher_bounded_balanced :
    MatcherBounded [97, 40, 98, 41] [40, 37, 98, 40, 41, 41] 1 MatchState.new :=
  (matcher_bounded_iff _ _ 1 _ (by decide)).2 fun scan _ =>
    not_tooDeep_of_short (by decide) scan.start

theorem TooDeep.append {b e : UInt8} {d : ℕ} {run : List UInt8} (h : TooDeep b e d run)
    (more : List UInt8) : TooDeep b e d (run ++ more) := by
  obtain ⟨k, hk, hopen, hdeep⟩ := h
  have htake : ∀ j ≤ k, (run ++ more).take j = run.take j := fun j hj =>
    List.take_append_of_le_length (Nat.le_trans hj hk)
  refine ⟨k, ?_, ?_, ?_⟩
  · rw [List.length_append]
    exact Nat.le_add_right_of_le hk
  · intro j hj
    rw [htake j hj]
    exact hopen j hj
  · rw [htake k (Nat.le_refl k)]
    exact hdeep

/-- The scan of `2 ^ 31` opening parentheses and a closing one leaves the range of the counter. -/
theorem not_matcher_bounded_parentheses : ¬ ∀ src pat s st, s ≤ src.length →
    MatcherBounded src pat s st := by
  intro h
  obtain ⟨n, hn⟩ : ∃ n, n = 2 ^ 31 := ⟨2 ^ 31, rfl⟩
  have hends := (h (List.replicate n 40 ++ [41]) [37, 98, 40, 41] 0 MatchState.new
    (Nat.zero_le _)).ends
  have hlen : (List.replicate n (40 : UInt8)).length = n := List.length_replicate
  have hopen : (List.replicate n (40 : UInt8) ++ [41])[0]? = some 40 := by
    rw [List.getElem?_append_left (by omega), List.getElem?_replicate, if_pos (by omega)]
  have hdeep : TooDeep 40 41 1 ((List.replicate n (40 : UInt8) ++ [41]).drop 1) := by
    rw [List.drop_append_of_le_length (by omega)]
    exact (tooDeep_replicate (Nat.le_of_eq hn.symm)).append [41]
  rw [matchAt_overflow hopen hdeep] at hends
  exact hends

end Tcvm.Pattern
