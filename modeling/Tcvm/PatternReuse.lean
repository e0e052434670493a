/-
A matcher can be used again.

Only the captures in use are ever read.  So two states that agree on the level, the budget and the
captures in use lead to the same results, and to states that agree again; the captures that an
earlier match left behind do not matter.

* `Agree`, `Stable` — computations that cannot tell such states apart;
* `doMatch_stable` — the matcher is one;
* `matchAt_reuse` — **a used matcher gives what a new one gives**.
-/

import Tcvm.PatternBounds

namespace Tcvm.Pattern

open Logged

variable {src pat : List UInt8} {st st' : MatchState} {m : ℕ → ℕ → MatchM (Option ℕ)}
variable {α β : Type}

/-! ### Results that agree -/

/-- The same result with states that agree, or the same failure. -/
def Agree : Except Stop (α × MatchState) → Except Stop (α × MatchState) → Prop
  | Except.ok (a, st), Except.ok (b, st') => a = b ∧ Same st st'
  | Except.error e, Except.error e' => e = e'
  | _, _ => False

/-- A computation that reads nothing but what states agree on. -/
def Stable (x : MatchM α) : Prop := ∀ st st', Same st st' → Agree (x st).2 (x st').2

theorem Stable.pure (a : α) : Stable (Pure.pure a) := fun _ _ h => ⟨rfl, h⟩

theorem Stable.fail (e : Stop) : Stable (fail e : MatchM α) := fun _ _ _ => rfl

/-- What follows results that agree. -/
theorem Agree.bind {x : MatchM α} {f : α → MatchM β} (h : Agree (x st).2 (x st').2)
    (hf : ∀ a u u', (x st).2 = Except.ok (a, u) → Same u u' → Agree (f a u).2 (f a u').2) :
    Agree ((x >>= f) st).2 ((x >>= f) st').2 := by
  rw [bind_run, bind_run]
  revert h hf
  obtain ⟨w, r⟩ := x st
  obtain ⟨w', r'⟩ := x st'
  intro h hf
  cases r with
  | error e =>
      cases r' with
      | error e' => exact h
      | ok p => exact h.elim
  | ok p =>
      obtain ⟨a, u⟩ := p
      cases r' with
      | error e' => exact h.elim
      | ok p' =>
          obtain ⟨b, u'⟩ := p'
          obtain ⟨rfl, hsame⟩ := h
          exact hf a u u' rfl hsame

theorem Stable.bind {x : MatchM α} {f : α → MatchM β} (hx : Stable x) (hf : ∀ a, Stable (f a)) :
    Stable (x >>= f) := fun st st' h => (hx st st' h).bind fun a u u' _ hsame => hf a u u' hsame

theorem Stable.lift (x : Except Stop α) : Stable (Logged.lift x : MatchM α) := by
  intro st st' h
  cases x with
  | ok a => exact ⟨rfl, h⟩
  | error e => exact rfl

theorem Stable.modify {f : MatchState → MatchState}
    (hf : ∀ st st', Same st st' → Same (f st) (f st')) :
    Stable (Logged.modify f : MatchM Unit) := fun st st' h => ⟨rfl, hf st st' h⟩

/-- Reading the state, in two states that agree. -/
theorem Stable.get {f : MatchState → MatchM β}
    (hf : ∀ st st', Same st st' → Agree (f st st).2 (f st' st').2) :
    Stable (Logged.get >>= f) := hf

/-! ### Reading captures -/

theorem isUnfinished_same (h : Same st st') {l : ℕ} (hl : l < st.level) :
    isUnfinished st' l = isUnfinished st l := by
  rw [isUnfinished_eq hl, isUnfinished_eq (Nat.lt_of_lt_of_eq hl h.level.symm), h.caps]

theorem captureAt_same (h : Same st st') {l : ℕ} (hl : l < st.level) :
    captureAt st' l = captureAt st l := by
  rw [captureAt, captureAt, capture_of_lt hl, capture_of_lt (Nat.lt_of_lt_of_eq hl h.level.symm),
    h.caps]

theorem captureToClose_same (h : Same st st') : captureToClose st' = captureToClose st := by
  rw [captureToClose, captureToClose, h.level]
  congr 1
  refine find_congr fun l hl => isUnfinished_same h ?_
  exact List.mem_range.mp (List.mem_reverse.mp hl)

theorem captureToClose_lt {l : ℕ} (h : captureToClose st = Except.ok l) : l < st.level := by
  rw [captureToClose] at h
  cases hfind : (List.range st.level).reverse.find? (isUnfinished st) with
  | none =>
      rw [hfind] at h
      cases h
  | some k =>
      rw [hfind] at h
      cases h
      exact List.mem_range.mp (List.mem_reverse.mp (List.mem_of_find?_eq_some hfind))

theorem checkCapture_same (h : Same st st') (digit : UInt8) :
    checkCapture st' digit = checkCapture st digit := by
  have hiff : ∀ n, (n = 0 ∨ st'.level ≤ n - 1 ∨ isUnfinished st' (n - 1) = true) ↔
      (n = 0 ∨ st.level ≤ n - 1 ∨ isUnfinished st (n - 1) = true) := by
    intro n
    rw [h.level]
    by_cases hle : st.level ≤ n - 1
    · exact iff_of_true (Or.inr (Or.inl hle)) (Or.inr (Or.inl hle))
    · rw [isUnfinished_same h (Nat.lt_of_not_le hle)]
  rw [checkCapture, checkCapture]
  exact if_congr (hiff _) rfl rfl

theorem checkCapture_lt {digit : UInt8} {l : ℕ} (h : checkCapture st digit = Except.ok l) :
    l < st.level := by
  rw [checkCapture] at h
  split at h
  case isTrue => exact nomatch h
  case isFalse hgood =>
    cases h
    exact Nat.lt_of_not_le fun hle => hgood (Or.inr (Or.inl hle))

theorem matchCapture_same (h : Same st st') (s : ℕ) (digit : UInt8) :
    matchCapture src st' s digit = matchCapture src st s digit := by
  rw [matchCapture, matchCapture, checkCapture_same h]
  cases hcheck : checkCapture st digit with
  | error e => rfl
  | ok l =>
      show (captureAt st' l >>= _) = (captureAt st l >>= _)
      rw [captureAt_same h (checkCapture_lt hcheck)]

theorem setCapture_stable (l : ℕ) (c : Capture) : Stable (setCapture l c) := by
  refine Stable.modify fun st st' h => ⟨h.depth, h.level, ?_⟩
  show caps (changed st' l c) = caps (changed st l c)
  rw [caps_changed, caps_changed, h.caps]

/-! ### The search -/

/-- A part of the search, and another one where it fails. -/
theorem Stable.orElse {x : MatchM (Option ℕ)} {f : ℕ → MatchM α} {g : MatchM α} (hx : Stable x)
    (hf : ∀ e, Stable (f e)) (hg : Stable g) :
    Stable (x >>= fun r => match r with
      | some e => f e
      | none => g) := by
  refine hx.bind fun r => ?_
  cases r with
  | some e => exact hf e
  | none => exact hg

theorem dropCapture_stable :
    Stable (Logged.modify fun st : MatchState => { st with level := st.level - 1 }) := by
  refine Stable.modify fun st st' h => ⟨h.depth, congrArg (· - 1) h.level, ?_⟩
  have htake : ∀ u : MatchState, u.capture.toList.take (u.level - 1) =
      (caps u).take (u.level - 1) := by
    intro u
    rw [caps, List.take_take, Nat.min_eq_left (Nat.sub_le _ _)]
  show st'.capture.toList.take (st'.level - 1) = st.capture.toList.take (st.level - 1)
  rw [htake, htake, h.caps, h.level]

theorem startCapture_stable (hm : ∀ s p, Stable (m s p)) (s p : ℕ) (what : CapLen) :
    Stable (startCapture m s p what) := by
  refine Stable.get fun st st' h => ?_
  by_cases hfull : MAX_CAPTURES ≤ st.level
  · rw [if_pos hfull, if_pos (h.level.symm ▸ hfull)]
    exact Stable.fail _ st st' h
  · rw [if_neg hfull, if_neg (h.level.symm ▸ hfull)]
    -- the capture that comes into use is the one that is written
    have hopened : Same (opened st { init := s, len := what })
        (opened st' { init := s, len := what }) := by
      have hlt := Nat.lt_of_not_le hfull
      refine ⟨h.depth, congrArg (· + 1) h.level, ?_⟩
      rw [caps_opened hlt, caps_opened (h.level.symm ▸ hlt), h.caps]
    exact ((hm s p).orElse (fun e => Stable.pure _)
      (dropCapture_stable.bind fun _ => Stable.pure none)) _ _ hopened

theorem endCapture_stable (hm : ∀ s p, Stable (m s p)) (hu : ∀ s p, Undoes (m s p)) (s p : ℕ) :
    Stable (endCapture m s p) := by
  refine Stable.get fun st st' h => ?_
  rw [captureToClose_same h]
  cases hl : captureToClose st with
  | error e => exact Stable.fail e st st' h
  | ok l =>
      have hlt := captureToClose_lt hl
      show Agree ((lift (captureAt st l) >>= _) st).2 ((lift (captureAt st' l) >>= _) st').2
      rw [captureAt_same h hlt]
      cases captureAt st l with
      | error e => exact Stable.fail e st st' h
      | ok c =>
          refine (Stable.lift (Except.ok c) st st' h).bind fun d u u' hget hsame => ?_
          cases hget
          by_cases hfront : s < c.init
          · rw [if_pos hfront]
            exact Stable.fail _ st u' hsame
          · rw [if_neg hfront]
            have hclosed := (setCapture_stable l { init := c.init, len := CapLen.len (s - c.init) })
              st u' hsame
            refine hclosed.bind fun _ u u' hset hsame => (hm s p u u' hsame).bind ?_
            intro r v v' hr hsame'
            cases r with
            | some e => exact Stable.pure _ v v' hsame'
            | none =>
                -- the level is what it was before
                have hlevel : l < v.level := by
                  rw [(hu s p u none v hr rfl).level]
                  cases hset
                  exact hlt
                show Agree ((lift (captureAt v l) >>= _) v).2 ((lift (captureAt v' l) >>= _) v').2
                rw [captureAt_same hsame' hlevel]
                exact ((Stable.lift _).bind fun d => (setCapture_stable l _).bind fun _ =>
                  Stable.pure none) v v' hsame'

theorem backOff_stable (hm : ∀ s p, Stable (m s p)) (s ep i : ℕ) : Stable (backOff m s ep i) := by
  induction i with
  | zero => exact hm s (ep + 1)
  | succ i ih => exact (hm _ _).orElse (fun e => Stable.pure _) ih

theorem maxExpand_stable (hm : ∀ s p, Stable (m s p)) (s p ep : ℕ) :
    Stable (maxExpand m src pat s p ep) := (Stable.lift _).bind fun i => backOff_stable hm s ep i

theorem minExpand_stable (hm : ∀ s p, Stable (m s p)) (p ep fuel : ℕ) :
    ∀ s, Stable (minExpand m src pat p ep fuel s) := by
  induction fuel with
  | zero => exact fun s => Stable.fail _
  | succ fuel ih =>
      refine fun s => (hm _ _).orElse (fun e => Stable.pure _) ?_
      refine (Stable.lift _).bind fun matched => ?_
      cases matched with
      | true => exact ih (s + 1)
      | false => exact Stable.pure none

theorem matchDefault_stable (hm : ∀ s p, Stable (m s p)) (s p : ℕ) :
    Stable (matchDefault m src pat s p) := by
  refine (Stable.lift _).bind fun ep => (Stable.lift _).bind fun matched => ?_
  cases matched with
  | false =>
      rw [if_neg Bool.false_ne_true]
      split
      · exact Stable.pure _
      · exact Stable.pure _
  | true =>
      rw [if_pos rfl]
      split
      case isTrue => exact (hm _ _).orElse (fun e => Stable.pure _) (Stable.pure _)
      case isFalse =>
        split
        case isTrue => exact (maxExpand_stable hm _ p ep).bind fun r => Stable.pure _
        case isFalse =>
          split
          case isTrue => exact (maxExpand_stable hm s p ep).bind fun r => Stable.pure _
          case isFalse =>
            split
            case isTrue => exact (minExpand_stable hm p ep _ s).bind fun r => Stable.pure _
            case isFalse => exact Stable.pure _

theorem matchBalance_stable (s p : ℕ) : Stable (matchBalance src pat s p) := by
  rw [matchBalance]
  split
  case isTrue => exact Stable.fail _
  case isFalse =>
    refine (Stable.lift _).bind fun b => (Stable.lift _).bind fun e => ?_
    split
    case isTrue =>
      refine Stable.bind (fun st st' h => ⟨rfl, h⟩) fun u => Stable.lift _
    case isFalse => exact Stable.pure none

theorem matchStep_stable (hm : ∀ s p, Stable (m s p)) (hu : ∀ s p, Undoes (m s p)) (s p : ℕ) :
    Stable (matchStep m src pat s p) := by
  rw [matchStep]
  split
  case h_1 => exact Stable.pure _
  case h_2 c hc =>
    split
    case isTrue =>
      split
      · exact (startCapture_stable hm s _ _).bind fun r => Stable.pure _
      · exact (startCapture_stable hm s _ _).bind fun r => Stable.pure _
    case isFalse =>
      split
      case isTrue => exact (endCapture_stable hm hu s _).bind fun r => Stable.pure _
      case isFalse =>
        split
        case isTrue => exact Stable.pure _
        case isFalse =>
          split
          case isFalse => exact matchDefault_stable hm s p
          case isTrue =>
            split
            case h_2 => exact matchDefault_stable hm s p
            case h_1 d hd =>
              split
              case isTrue =>
                exact (matchBalance_stable s _).orElse (fun e => Stable.pure _) (Stable.pure _)
              case isFalse =>
                split
                case isTrue => exact Stable.lift _
                case isFalse =>
                  split
                  case isFalse => exact matchDefault_stable hm s p
                  case isTrue =>
                    refine Stable.get fun st st' h => ?_
                    rw [matchCapture_same h]
                    refine ((Stable.lift _).bind fun r => ?_) st st' h
                    cases r with
                    | some ns => exact Stable.pure _
                    | none => exact Stable.pure _

theorem matchLoop_stable (hm : ∀ s p, Stable (m s p)) (hu : ∀ s p, Undoes (m s p)) (fuel : ℕ) :
    ∀ s p, Stable (matchLoop m src pat fuel s p) := by
  induction fuel with
  | zero => exact fun s p => Stable.fail _
  | succ fuel ih =>
      refine fun s p => (matchStep_stable hm hu s p).bind fun step => ?_
      cases step with
      | init s' p' => exact ih s' p'
      | done r => exact Stable.pure r

/-- **The matcher reads nothing but what states agree on.** -/
theorem doMatch_stable (n : ℕ) : ∀ s p, Stable (doMatch src pat n s p) := by
  induction n with
  | zero => exact fun s p => Stable.fail _
  | succ n ih =>
      refine fun s p => Stable.get fun st st' h => ?_
      rw [h.depth]
      split
      case isTrue => exact Stable.fail _ st st' h
      case isFalse =>
        have hloop := @matchLoop_stable src pat _ ih (doMatch_undoes n) (pat.length + 1) s p
        refine ((Stable.modify fun st st' h => ?_).bind fun u => hloop.bind fun r =>
          (Stable.modify fun st st' h => ?_).bind fun u => Stable.pure r) st st' h
        · exact ⟨congrArg (· - 1) h.depth, h.level, h.caps⟩
        · exact ⟨congrArg (· + 1) h.depth, h.level, h.caps⟩

/-- **A used matcher gives what a new one gives.** -/
theorem matchAt_reuse (src pat : List UInt8) (s : ℕ) (st st' : MatchState) :
    Agree (matchAt src pat s st).2 (matchAt src pat s st').2 := by
  have hstarted : Same (started st) (started st') := ⟨rfl, rfl, rfl⟩
  exact doMatch_stable (MAX_CCALLS + 1) s 0 _ _ hstarted

end Tcvm.Pattern
