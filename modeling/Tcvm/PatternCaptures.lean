/-
# The captures of the matcher and of the reference

The matcher keeps its captures in an array of which only the first `level` are in use; a branch of
the search that fails puts back what it changed.  The captures in use are the captures of a point.
`Finds` says what a part of the search does: it comes to the first of the points it is to come to,
or there are none and everything is as it was before.

## Main definitions

* `caps` — the captures in use;
* `Good` — a place of the subject with captures that lie in front of it;
* `Finds` — what a part of the search does.

## Main results

* `captureToClose_eq`, `matchCapture_eq` — reading captures;
* `startCapture_sound`, `endCapture_sound` — **captures that are opened and closed**.
-/

import Tcvm.PatternItems

namespace Tcvm.Pattern

open Logged

/-! ### The captures in use -/

/-- The captures in use. -/
def caps (st : MatchState) : List Capture := st.capture.toList.take st.level

variable {src pat : List UInt8} {st st' : MatchState} {s : ℕ}

theorem caps_length (h : st.level ≤ MAX_CAPTURES) : (caps st).length = st.level := by
  rw [caps, List.length_take, Vector.length_toList]
  exact Nat.min_eq_left h

theorem capture_of_lt {l : ℕ} (h : l < st.level) : st.capture[l]? = (caps st)[l]? := by
  rw [caps, List.getElem?_take_of_lt h, Vector.getElem?_toList]

/-- A capture lies in front of a place. -/
def Capture.InFront (s : ℕ) (c : Capture) : Prop :=
  c.init ≤ s ∧ ∀ n, c.len = CapLen.len n → c.init + n ≤ s

/-- A place of the subject, with captures in front of it. -/
structure Good (src : List UInt8) (s : ℕ) (st : MatchState) : Prop where
  level : st.level ≤ MAX_CAPTURES
  place : s ≤ src.length
  front : ∀ c ∈ caps st, c.InFront s

theorem Good.advance {s' : ℕ} (h : Good src s st) (hle : s ≤ s') (hlen : s' ≤ src.length) :
    Good src s' st := by
  refine ⟨h.level, hlen, ?_⟩
  intro c hc
  obtain ⟨hinit, hclosed⟩ := h.front c hc
  exact ⟨Nat.le_trans hinit hle, fun n hn => Nat.le_trans (hclosed n hn) hle⟩

/-- Everything that a failed branch may not change. -/
structure Same (st st' : MatchState) : Prop where
  depth : st'.matchdepth = st.matchdepth
  level : st'.level = st.level
  caps : caps st' = caps st

theorem Same.refl (st : MatchState) : Same st st := ⟨rfl, rfl, rfl⟩

theorem Same.trans {st'' : MatchState} (h : Same st st') (h' : Same st' st'') : Same st st'' :=
  ⟨h'.depth.trans h.depth, h'.level.trans h.level, h'.caps.trans h.caps⟩

theorem Good.same (h : Good src s st) (hsame : Same st st') : Good src s st' := by
  refine ⟨?_, h.place, ?_⟩
  · rw [hsame.level]
    exact h.level
  · rw [hsame.caps]
    exact h.front

/-- The first of the points is found, or there is none and nothing has changed. -/
def Finds (src : List UInt8) (st : MatchState) (points : List Point) (r : Option ℕ)
    (st' : MatchState) : Prop :=
  match r with
  | none => points = [] ∧ Same st st'
  | some e => points.head? = some { place := e, caps := caps st' } ∧ Good src e st' ∧
      st'.matchdepth = st.matchdepth

/-- A branch that failed, and what is found behind it. -/
theorem Finds.after {points : List Point} {r : Option ℕ} {st₁ : MatchState} (hsame : Same st st₁)
    (h : Finds src st₁ points r st') : Finds src st points r st' := by
  cases r with
  | none => exact ⟨h.1, hsame.trans h.2⟩
  | some e => exact ⟨h.1, h.2.1, h.2.2.trans hsame.depth⟩

/-- What is found at once. -/
theorem Finds.append {points more : List Point} {e : ℕ} (h : Finds src st points (some e) st') :
    Finds src st (points ++ more) (some e) st' := by
  refine ⟨?_, h.2⟩
  rw [List.head?_append, h.1]
  rfl

/-! ### Reading captures -/

theorem isUnfinished_eq {l : ℕ} (h : l < st.level) :
    isUnfinished st l = match (caps st)[l]? with
      | some c => decide (c.len = CapLen.unfinished)
      | none => false := by
  rewrite [isUnfinished, capture_of_lt h]
  cases (caps st)[l]? <;> rfl

theorem find_congr {f g : ℕ → Bool} {xs : List ℕ} (h : ∀ x ∈ xs, f x = g x) :
    xs.find? f = xs.find? g := by
  induction xs with
  | nil => rfl
  | cons x xs ih =>
      have hx := h x List.mem_cons_self
      have hxs := ih fun y hy => h y (List.mem_cons_of_mem _ hy)
      rw [List.find?_cons, List.find?_cons, hx, hxs]

/-- **The innermost open capture.** -/
theorem captureToClose_eq (h : st.level ≤ MAX_CAPTURES) :
    captureToClose st = match lastOpen (caps st) with
      | some l => Except.ok l
      | none => Except.error (Stop.error PatError.invalidPatternCapture) := by
  have hfind : (List.range st.level).reverse.find? (isUnfinished st) = lastOpen (caps st) := by
    rw [lastOpen, caps_length h]
    refine find_congr ?_
    intro l hl
    rw [List.mem_reverse, List.mem_range] at hl
    rewrite [isUnfinished_eq hl]
    cases (caps st)[l]? <;> rfl
  rewrite [captureToClose, hfind]
  cases lastOpen (caps st) <;> rfl

theorem lastOpen_some {cs : List Capture} {l : ℕ} (h : lastOpen cs = some l) :
    ∃ c, cs[l]? = some c ∧ c.len = CapLen.unfinished := by
  have hopen := List.find?_some h
  cases hget : cs[l]? with
  | none =>
      rw [hget] at hopen
      cases hopen
  | some c =>
      rw [hget] at hopen
      exact ⟨c, rfl, of_decide_eq_true hopen⟩

theorem captureAt_eq {l : ℕ} {c : Capture} (hl : l < st.level) (h : (caps st)[l]? = some c) :
    captureAt st l = Except.ok c := by
  rw [captureAt, capture_of_lt hl, h]

theorem lt_of_caps {l : ℕ} {c : Capture} (h : (caps st)[l]? = some c) : l < st.level := by
  have hlt := (List.getElem?_eq_some_iff.mp h).1
  rw [caps, List.length_take] at hlt
  omega

/-- The number of a capture that a digit refers to. -/
def captureNumber (digit : UInt8) : ℕ := digit.toNat - (ascii '0').toNat

theorem matchCapture_of_index (src : List UInt8) (s : ℕ) {digit : UInt8} {l : ℕ}
    (h : checkCapture st digit = Except.ok l) :
    matchCapture src st s digit = (captureAt st l).bind fun c =>
      match c.len with
      | CapLen.len m =>
          if src.length < s then Except.error Stop.outside
          else if m ≤ src.length - s then
            (slice src c.init (c.init + m)).bind fun a =>
              (slice src s (s + m)).bind fun b =>
                Except.ok (if a = b then some (s + m) else none)
          else Except.ok none
      | _ => Except.ok none := by
  rw [matchCapture, h]
  rfl

/-- **A reference to a capture** matches its text. -/
theorem matchCapture_eq (digit : UInt8) (hgood : Good src s st) :
    (∃ e, matchCapture src st s digit = Except.error (Stop.error e)) ∨
      ∃ r, matchCapture src st s digit = Except.ok r ∧
        (∀ ns, r = some ns → s ≤ ns ∧ ns ≤ src.length) ∧
        (Elem.backReference (captureNumber digit)).choices src { place := s, caps := caps st } =
          (r.map fun ns => ({ place := ns, caps := caps st } : Point)).toList := by
  generalize hn : captureNumber digit = n
  have hcheck : checkCapture st digit =
      if n = 0 ∨ st.level ≤ n - 1 ∨ isUnfinished st (n - 1) = true then
        Except.error (Stop.error (PatError.invalidCaptureIndex n))
      else Except.ok (n - 1) := by
    rw [← hn]
    rfl
  by_cases hbad : n = 0 ∨ st.level ≤ n - 1 ∨ isUnfinished st (n - 1) = true
  · refine Or.inl ⟨PatError.invalidCaptureIndex n, ?_⟩
    rw [matchCapture, hcheck, if_pos hbad]
    rfl
  · refine Or.inr ?_
    have hpos : n ≠ 0 := fun hno => hbad (Or.inl hno)
    have hlt : n - 1 < st.level := Nat.lt_of_not_le fun hno => hbad (Or.inr (Or.inl hno))
    have hsome : ∃ c, (caps st)[n - 1]? = some c := by
      have hlen := caps_length hgood.level
      exact ⟨_, List.getElem?_eq_getElem (by omega)⟩
    obtain ⟨c, hc⟩ := hsome
    have hindex : checkCapture st digit = Except.ok (n - 1) := by rw [hcheck, if_neg hbad]
    rw [matchCapture_of_index src s hindex, captureAt_eq hlt hc]
    have hfront := hgood.front c (List.mem_of_getElem? hc)
    have hplace := hgood.place
    have hone : 1 ≤ n := Nat.one_le_iff_ne_zero.mpr hpos
    cases hlen : c.len with
    | unfinished =>
        refine ⟨none, by simp [Except.bind, hlen], by simp, ?_⟩
        simp [Elem.choices, hc, Capture.text, hlen]
    | position =>
        refine ⟨none, by simp [Except.bind, hlen], by simp, ?_⟩
        simp [Elem.choices, hc, Capture.text, hlen]
    | len m =>
        have hinside := hfront.2 m hlen
        have htext : ((src.drop c.init).take m).length = m := by
          rw [List.length_take, List.length_drop]
          omega
        have hslice : ∀ a, a + m ≤ src.length →
            slice src a (a + m) = Except.ok ((src.drop a).take m) := by
          intro a ha
          rw [slice, if_pos ⟨Nat.le_add_right _ _, ha⟩, List.drop_take, Nat.add_sub_cancel_left]
        have hchoices : (Elem.backReference n).choices src { place := s, caps := caps st } =
            if ((src.drop c.init).take m).isPrefixOf (src.drop s) then
              [{ place := s + m, caps := caps st }] else [] := by
          simp only [Elem.choices, hc, Option.bind_some, Capture.text, hlen, htext, hone, true_and]
        have hstarts : ((src.drop c.init).take m).isPrefixOf (src.drop s) = true ↔
            m ≤ src.length - s ∧ (src.drop c.init).take m = (src.drop s).take m := by
          rw [List.isPrefixOf_iff_prefix, List.prefix_iff_eq_take, htext]
          constructor
          · intro heq
            refine ⟨?_, heq⟩
            have hl := congrArg List.length heq
            rw [htext, List.length_take, List.length_drop] at hl
            omega
          · exact fun h => h.2
        by_cases hfits : m ≤ src.length - s
        · refine ⟨if (src.drop c.init).take m = (src.drop s).take m then some (s + m) else none,
            ?_, ?_, ?_⟩
          · simp only [Except.bind, hlen, if_neg (Nat.not_lt.mpr hplace), if_pos hfits]
            rw [hslice c.init (by omega), hslice s (by omega)]
          · intro ns hns
            split at hns
            · cases hns
              omega
            · cases hns
          · rw [hchoices]
            by_cases heq : (src.drop c.init).take m = (src.drop s).take m
            · rw [if_pos (hstarts.mpr ⟨hfits, heq⟩), if_pos heq]
              rfl
            · rw [if_neg (fun h => heq (hstarts.mp h).2), if_neg heq]
              rfl
        · refine ⟨none, ?_, by simp, ?_⟩
          · simp only [Except.bind, hlen, if_neg (Nat.not_lt.mpr hplace), if_neg hfits]
          · rw [hchoices, if_neg (fun h => hfits (hstarts.mp h).1)]
            rfl

/-! ### Parts of the search -/

/-- What the matcher may log, and how it may fail. -/
def scans (src : List UInt8) : Policy Scan Stop where
  Harmless scan := ¬TooDeep scan.opening scan.closing 1 (src.drop scan.start)
  Allowed e := ∃ pe, e = Stop.error pe
  crash := Stop.overflow
  not_allowed := by
    rintro ⟨pe, h⟩
    cases h

theorem allowed_error (pe : PatError) : (scans src).Allowed (Stop.error pe) := ⟨pe, rfl⟩

/-- What the rest of the pattern leads to. -/
def restOf (src pat : List UInt8) (p : ℕ) (x : Point) : List Point :=
  search src (elems (pat.drop p)) x

/-- A matcher that does what it should while less than `n` calls are open. -/
def Searches (src pat : List UInt8) (n : ℕ) (m : ℕ → ℕ → MatchM (Option ℕ)) : Prop :=
  ∀ s p st, Good src s st → st.matchdepth < n →
    Sound (scans src) (m s p) st (Finds src st (restOf src pat p { place := s, caps := caps st }))

variable {n : ℕ} {m : ℕ → ℕ → MatchM (Option ℕ)}

/-- A part of the search, and another one where it fails. -/
theorem Sound.orElse {α : Type} {x : MatchM (Option ℕ)} {points : List Point} {f : ℕ → MatchM α}
    {g : MatchM α} {Q : α → MatchState → Prop}
    (hx : Sound (scans src) x st (Finds src st points))
    (hsome : ∀ e st₁, Finds src st points (some e) st₁ → Sound (scans src) (f e) st₁ Q)
    (hnone : ∀ st₁, points = [] → Same st st₁ → Sound (scans src) g st₁ Q) :
    Sound (scans src) (x >>= fun r => match r with
      | some e => f e
      | none => g) st Q := by
  refine Sound.bind (hx.mono ?_)
  intro r st₁ hfinds
  cases r with
  | some e => exact hsome e st₁ hfinds
  | none => exact hnone st₁ hfinds.1 hfinds.2

/-- The state with another capture. -/
def opened (st : MatchState) (c : Capture) : MatchState :=
  { st with capture := st.capture.setIfInBounds st.level c, level := st.level + 1 }

theorem caps_opened {c : Capture} (h : st.level < MAX_CAPTURES) :
    caps (opened st c) = caps st ++ [c] := by
  have hlen : st.level < (st.capture.toList.set st.level c).length := by
    rw [List.length_set, Vector.length_toList]
    exact h
  show (st.capture.setIfInBounds st.level c).toList.take (st.level + 1) = _
  rw [Vector.toList_setIfInBounds, List.take_succ_eq_append_getElem hlen,
    List.getElem_set_self, List.take_set_of_le (Nat.le_refl _)]
  rfl

theorem Good.opened {what : CapLen} (h : Good src s st) (hlt : st.level < MAX_CAPTURES)
    (hwhat : ∀ n, what ≠ CapLen.len n) :
    Good src s (opened st { init := s, len := what }) := by
  refine ⟨hlt, h.place, ?_⟩
  intro c hc
  rw [caps_opened hlt] at hc
  rcases List.mem_append.mp hc with hc | hc
  · exact h.front c hc
  · obtain rfl := List.mem_singleton.mp hc
    exact ⟨Nat.le_refl _, fun n hn => absurd hn (hwhat n)⟩

/-- What is left of the captures when one is dropped. -/
theorem caps_dropped {st₁ : MatchState} {c : Capture} (hlt : st.level < MAX_CAPTURES)
    (hsame : Same (opened st c) st₁) : Same st { st₁ with level := st₁.level - 1 } := by
  have hlevel : st₁.level - 1 = st.level := by
    rw [hsame.level]
    rfl
  refine ⟨hsame.depth, hlevel, ?_⟩
  have htake : caps st₁ = caps st ++ [c] := hsame.caps.trans (caps_opened hlt)
  have hle : st.level ≤ st₁.level := by
    rw [← hlevel]
    exact Nat.sub_le _ _
  show st₁.capture.toList.take (st₁.level - 1) = _
  rw [hlevel, ← Nat.min_eq_left hle, ← List.take_take]
  show (caps st₁).take st.level = _
  rw [htake, ← caps_length (Nat.le_of_lt hlt), List.take_left]

/-- **A capture that is opened.** -/
theorem startCapture_sound {p : ℕ} {what : CapLen} (hm : Searches src pat n m)
    (hgood : Good src s st) (hdepth : st.matchdepth < n) (hwhat : ∀ n, what ≠ CapLen.len n) :
    Sound (scans src) (startCapture m s p what) st
      (Finds src st (if (caps st).length < MAX_CAPTURES then
        restOf src pat p { place := s, caps := caps st ++ [{ init := s, len := what }] }
          else [])) := by
  rw [caps_length hgood.level]
  refine Sound.get ?_
  by_cases hfull : MAX_CAPTURES ≤ st.level
  · rw [if_pos hfull]
    exact Sound.fail (allowed_error _)
  · have hlt := Nat.lt_of_not_le hfull
    rw [if_neg hfull, if_pos hlt]
    refine Sound.modify (Sound.modify ?_)
    have hsearch := hm s p _ (hgood.opened hlt hwhat) hdepth
    rw [caps_opened hlt] at hsearch
    refine Sound.orElse hsearch ?_ ?_
    · intro e st₁ hfinds
      exact Sound.pure hfinds
    · intro st₁ hnone hsame
      exact Sound.modify (Sound.pure ⟨hnone, caps_dropped hlt hsame⟩)

/-- The state with a capture changed. -/
def changed (st : MatchState) (l : ℕ) (c : Capture) : MatchState :=
  { st with capture := st.capture.setIfInBounds l c }

theorem caps_changed (st : MatchState) (l : ℕ) (c : Capture) :
    caps (changed st l c) = (caps st).set l c := by
  show (st.capture.setIfInBounds l c).toList.take st.level = _
  rw [Vector.toList_setIfInBounds, List.take_set]
  rfl

theorem mem_set_cases {cs : List Capture} {l : ℕ} {c d : Capture} (h : d ∈ cs.set l c) :
    d ∈ cs ∨ d = c := List.mem_or_eq_of_mem_set h

/-- **A capture that is closed.** -/
theorem endCapture_sound {p : ℕ} (hm : Searches src pat n m) (hgood : Good src s st)
    (hdepth : st.matchdepth < n) :
    Sound (scans src) (endCapture m s p) st
      (Finds src st (match lastOpen (caps st) with
        | some l => restOf src pat p { place := s, caps := (caps st).modify l fun c =>
            { init := c.init, len := CapLen.len (s - c.init) } }
        | none => [])) := by
  refine Sound.get (Sound.lift ?_ ?_)
  · intro l hl
    rw [captureToClose_eq hgood.level] at hl
    cases hopen : lastOpen (caps st) with
    | none =>
        rw [hopen] at hl
        cases hl
    | some l' =>
        rw [hopen] at hl
        cases hl
        obtain ⟨c, hc, hunfinished⟩ := lastOpen_some hopen
        have hl := lt_of_caps hc
        have hfront := hgood.front c (List.mem_of_getElem? hc)
        refine Sound.lift ?_ ?_
        · intro c' hc'
          rw [captureAt_eq hl hc] at hc'
          cases hc'
          rw [if_neg (Nat.not_lt.mpr hfront.1)]
          refine Sound.modify ?_
          generalize hclosed : ({ init := c.init, len := CapLen.len (s - c.init) } : Capture) = d
          have hmodify : ((caps st).modify l fun c =>
              { init := c.init, len := CapLen.len (s - c.init) }) = caps (changed st l d) := by
            rw [caps_changed, List.modify_eq_set_getElem?, hc, ← hclosed]
            rfl
          have hgood' : Good src s (changed st l d) := by
            refine ⟨hgood.level, hgood.place, ?_⟩
            intro x hx
            rw [caps_changed] at hx
            rcases mem_set_cases hx with hx | rfl
            · exact hgood.front x hx
            · rw [← hclosed]
              refine ⟨hfront.1, ?_⟩
              intro k hk
              have hk' : s - c.init = k := CapLen.len.inj hk
              have hinit := hfront.1
              show c.init + k ≤ s
              omega
          show Sound _ _ (changed st l d) _
          dsimp only
          rw [hmodify]
          refine Sound.orElse (hm s p _ hgood' hdepth) ?_ ?_
          · intro e st₁ hfinds
            exact Sound.pure hfinds
          · intro st₁ hnone hsame
            have hd : (caps st₁)[l]? = some d := by
              rw [hsame.caps, caps_changed, List.getElem?_set_self (by
                exact (List.getElem?_eq_some_iff.mp hc).1)]
            have hl' : l < st₁.level := lt_of_caps hd
            refine Sound.get (Sound.lift ?_ ?_)
            · intro c' hc'
              rw [captureAt_eq hl' hd] at hc'
              cases hc'
              refine Sound.modify (Sound.pure ⟨hnone, hsame.depth, hsame.level, ?_⟩)
              have hback : ({ init := d.init, len := CapLen.unfinished } : Capture) = c := by
                rw [← hclosed, ← hunfinished]
              show caps (changed st₁ l { init := d.init, len := CapLen.unfinished }) = _
              rw [hback, caps_changed, hsame.caps, caps_changed, List.set_set]
              obtain ⟨hlt, heq⟩ := List.getElem?_eq_some_iff.mp hc
              rw [← heq]
              exact List.set_getElem_self hlt
            · intro e he
              rw [captureAt_eq hl' hd] at he
              cases he
        · intro e he
          rw [captureAt_eq hl hc] at he
          cases he
  · intro e he
    rw [captureToClose_eq hgood.level] at he
    cases hopen : lastOpen (caps st) with
    | none =>
        rw [hopen] at he
        cases he
        exact allowed_error _
    | some l =>
        rw [hopen] at he
        cases he

end Tcvm.Pattern
