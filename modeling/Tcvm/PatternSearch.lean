/-
# The matcher searches in the reference order

Every part of the matcher comes to the first of the points that its part of the pattern leads to, or
fails where there is none and leaves everything as it was.  A round of the loop of `do_match` either
decides this, or goes on with a point from which the rest leads to the same.

## Main definitions

* `MatchesFirst` — what `match_at` is to do.

## Main results

* `backOff_sound`, `minExpand_sound` — repetitions, in their order;
* `matchStep_sound` — **a round of the loop**, by the element that it is at;
* `doMatch_sound` — **the search**;
* `matchAt_first_iff` — **the matcher gives the first match**, unless the counter of a balanced run
  overflows.
-/

import Tcvm.PatternCaptures

namespace Tcvm.Pattern

open Logged

variable {src pat : List UInt8} {st st' : MatchState} {s n : ℕ}
  {m : ℕ → ℕ → MatchM (Option ℕ)}

/-! ### Repetitions -/

/-- The places that are led to after some repetitions. -/
def afterCounts (src pat : List UInt8) (ep : ℕ) (x : Point) (counts : List ℕ) : List Point :=
  counts.flatMap fun k => restOf src pat ep { x with place := x.place + k }

theorem afterCounts_cons (src pat : List UInt8) (ep : ℕ) (x : Point) (k : ℕ) (counts : List ℕ) :
    afterCounts src pat ep x (k :: counts) =
      restOf src pat ep { x with place := x.place + k } ++ afterCounts src pat ep x counts :=
  List.flatMap_cons

/-- **Backing off** tries the larger numbers first. -/
theorem backOff_sound {ep i : ℕ} (hm : Searches src pat n m) (hgood : Good src s st)
    (hdepth : st.matchdepth < n) (hi : s + i ≤ src.length) :
    Sound (scans src) (backOff m s ep i) st (Finds src st
      (afterCounts src pat (ep + 1) { place := s, caps := caps st }
        (List.range (i + 1)).reverse)) := by
  induction i generalizing st with
  | zero =>
      refine Sound.mono (hm s (ep + 1) st hgood hdepth) ?_
      intro r st₁ hfinds
      simpa [afterCounts] using hfinds
  | succ i ih =>
      rw [List.range_succ, List.reverse_append, List.reverse_singleton, List.singleton_append,
        afterCounts_cons]
      have hat := hgood.advance (Nat.le_add_right s (i + 1)) hi
      refine Sound.orElse (hm (s + (i + 1)) (ep + 1) st hat hdepth) ?_ ?_
      · intro e st₁ hfinds
        exact Sound.pure hfinds.append
      · intro st₁ hnone hsame
        have hdepth₁ : st₁.matchdepth < n := by
          rw [hsame.depth]
          exact hdepth
        refine Sound.mono (ih (hgood.same hsame) hdepth₁ (by omega)) ?_
        intro r st₂ hfinds
        rw [hnone, List.nil_append, ← hsame.caps]
        exact hfinds.after hsame

/-- **The shortest repetition first.** -/
theorem minExpand_sound {p ep fuel : ℕ} {has : UInt8 → Bool} {run : List UInt8}
    (hm : Searches src pat n m)
    (hitem : ∀ s, singleMatch src pat s p ep = Except.ok ((src[s]?).any has))
    (hrun : src.drop s = run) (hfuel : run.length < fuel) (hgood : Good src s st)
    (hdepth : st.matchdepth < n) :
    Sound (scans src) (minExpand m src pat p ep fuel s) st (Finds src st
      (afterCounts src pat (ep + 1) { place := s, caps := caps st }
        (List.range ((run.takeWhile has).length + 1)))) := by
  induction run generalizing s fuel st with
  | nil =>
      obtain ⟨fuel, rfl⟩ : ∃ k, fuel = k + 1 := ⟨fuel - 1, by omega⟩
      have hend : src[s]? = none := List.getElem?_eq_none (List.drop_eq_nil_iff.mp hrun)
      have hone : (List.takeWhile has []).length + 1 = 1 := rfl
      rw [hone, List.range_one, afterCounts_cons]
      refine Sound.orElse (hm s (ep + 1) st hgood hdepth) ?_ ?_
      · intro e st₁ hfinds
        exact Sound.pure hfinds.append
      · intro st₁ hnone hsame
        refine Sound.lift ?_ ?_
        · intro b hb
          rw [hitem, hend] at hb
          cases hb
          refine Sound.pure ⟨?_, hsame⟩
          exact List.append_eq_nil_iff.mpr ⟨hnone, rfl⟩
        · intro e he
          rw [hitem] at he
          cases he
  | cons x run ih =>
      obtain ⟨fuel, rfl⟩ : ∃ k, fuel = k + 1 := ⟨fuel - 1, by omega⟩
      simp only [List.length_cons] at hfuel
      rw [List.range_succ_eq_map, afterCounts_cons]
      refine Sound.orElse (hm s (ep + 1) st hgood hdepth) ?_ ?_
      · intro e st₁ hfinds
        exact Sound.pure hfinds.append
      · intro st₁ hnone hsame
        have hnone' : restOf src pat (ep + 1) { place := s + 0, caps := caps st } = [] := hnone
        refine Sound.lift ?_ ?_
        · intro b hb
          rw [hitem, getElem?_of_drop hrun] at hb
          cases hb
          show Sound _ (if has x = true then _ else _) _ _
          cases hx : has x with
          | false =>
              rw [if_neg (by decide), List.takeWhile_cons, if_neg (by rw [hx]; decide), hnone']
              exact Sound.pure ⟨rfl, hsame⟩
          | true =>
              have hgood₁ := (hgood.same hsame).advance (Nat.le_succ s) (lt_of_drop hrun)
              have hdepth₁ : st₁.matchdepth < n := by
                rw [hsame.depth]
                exact hdepth
              rw [if_pos rfl, List.takeWhile_cons, if_pos hx, List.length_cons, hnone',
                List.nil_append]
              refine Sound.mono (ih (drop_succ_of_drop hrun) (by omega) hgood₁ hdepth₁) ?_
              intro r st₂ hfinds
              rw [hsame.caps] at hfinds
              have hshift : afterCounts src pat (ep + 1) { place := s, caps := caps st }
                  ((List.range ((run.takeWhile has).length + 1)).map Nat.succ) =
                  afterCounts src pat (ep + 1) { place := s + 1, caps := caps st }
                    (List.range ((run.takeWhile has).length + 1)) := by
                rw [afterCounts, afterCounts, List.flatMap_map]
                congr 1
                funext k
                rw [show s + Nat.succ k = s + 1 + k by omega]
              rw [hshift]
              exact hfinds.after hsame
        · intro e he
          rw [hitem] at he
          cases he

/-! ### A round of the loop -/

/-- What a round does: it finds the first of the points, or goes on with a point from which the rest
of the pattern leads to the same. -/
def Rounds (src pat : List UInt8) (p : ℕ) (st : MatchState) (points : List Point) (step : Step)
    (st' : MatchState) : Prop :=
  match step with
  | Step.done r => Finds src st points r st'
  | Step.init s' p' => Same st st' ∧ (p < p' ∧ p < pat.length) ∧ Good src s' st' ∧
      points = restOf src pat p' { place := s', caps := caps st }

theorem restOf_of_drop {p : ℕ} {c : UInt8} {r : List UInt8} (h : pat.drop p = c :: r) (x : Point) :
    restOf src pat p x =
      ((parseElem c r).1.choices src x).flatMap (search src (elems (parseElem c r).2)) := by
  rw [restOf, h, elems]
  rfl

/-- An element that leads to one point at most. -/
theorem restOf_of_choice {p q : ℕ} {c : UInt8} {r : List UInt8} {e : Elem} {x : Point}
    {o : Option ℕ} (h : pat.drop p = c :: r) (helem : parseElem c r = (e, pat.drop q))
    (hchoices : e.choices src x = (o.map fun ns => { x with place := ns }).toList) :
    restOf src pat p x = o.elim [] fun ns => restOf src pat q { x with place := ns } := by
  rw [restOf_of_drop h, helem, hchoices]
  cases o with
  | none => rfl
  | some ns =>
      rw [Option.map_some, Option.toList_some, List.flatMap_singleton]
      rfl

/-- A round without a search. -/
theorem rounds_of_choice {p q : ℕ} {x : Point} {o : Option ℕ} {step : Step}
    (hpoints : restOf src pat p x = o.elim [] fun ns => restOf src pat q { x with place := ns })
    (hx : x = { place := s, caps := caps st }) (hgood : Good src s st)
    (hlt : p < q ∧ p < pat.length)
    (hplace : ∀ ns, o = some ns → s ≤ ns ∧ ns ≤ src.length)
    (hstep : step = o.elim (Step.done none) fun ns => Step.init ns q) :
    Rounds src pat p st (restOf src pat p x) step st := by
  subst hx hstep
  rw [hpoints]
  cases o with
  | none => exact ⟨rfl, Same.refl st⟩
  | some ns =>
      obtain ⟨hle, hlen⟩ := hplace ns rfl
      exact ⟨Same.refl st, hlt, hgood.advance hle hlen, rfl⟩

/-! ### Items with a suffix -/

theorem parseSuffix_some {rest : List UInt8} {a : UInt8} {rep : Repeat}
    (h : rest.head? = some a) (hrep : repeatOf a = some rep) :
    parseSuffix rest = (rep, rest.tail) := by
  rw [parseSuffix, h, Option.bind_some, hrep]

theorem parseSuffix_none {rest : List UInt8} (h : ∀ a, rest.head? = some a → repeatOf a = none) :
    parseSuffix rest = (Repeat.once, rest) := by
  cases rest with
  | nil => rfl
  | cons a rest =>
      rw [parseSuffix, List.head?_cons, Option.bind_some, h a rfl]

theorem repeats_pos (sg : Single) (s : ℕ) :
    1 ≤ repeats src sg s ↔ (src[s]?).any sg.has = true := by
  rw [repeats, ← List.head?_drop]
  cases src.drop s with
  | nil => simp
  | cons x run =>
      rw [List.takeWhile_cons]
      cases hx : sg.has x <;> simp [hx]

/-- One repetition, and those behind it. -/
theorem repeats_succ {sg : Single} (h : (src[s]?).any sg.has = true) :
    s < src.length ∧ repeats src sg s = 1 + repeats src sg (s + 1) := by
  cases hdrop : src.drop s with
  | nil =>
      rw [← List.head?_drop, hdrop] at h
      cases h
  | cons x run =>
      rw [getElem?_of_drop hdrop] at h
      refine ⟨lt_of_drop hdrop, ?_⟩
      rw [repeats, repeats, hdrop, drop_succ_of_drop hdrop, List.takeWhile_cons,
        if_pos (show sg.has x = true from h), List.length_cons, Nat.add_comm]

theorem repeats_le (sg : Single) (hs : s ≤ src.length) : s + repeats src sg s ≤ src.length := by
  have hle : (List.takeWhile sg.has (src.drop s)).length ≤ (src.drop s).length :=
    (List.takeWhile_prefix _).length_le
  rw [List.length_drop] at hle
  rw [repeats]
  omega

theorem afterCounts_one (src pat : List UInt8) (ep : ℕ) (x : Point) (k : ℕ) :
    afterCounts src pat ep x [k] = restOf src pat ep { x with place := x.place + k } :=
  List.flatMap_singleton _ _

/-- The greedy repetitions of an item. -/
theorem maxExpand_sound {p ep : ℕ} {sg : Single} (hm : Searches src pat n m)
    (hitem : ∀ s, singleMatch src pat s p ep = Except.ok ((src[s]?).any sg.has))
    (hgood : Good src s st) (hdepth : st.matchdepth < n) :
    Sound (scans src) (maxExpand m src pat s p ep) st (Finds src st
      (afterCounts src pat (ep + 1) { place := s, caps := caps st }
        (List.range (repeats src sg s + 1)).reverse)) := by
  have hcount : countLoop src pat s p ep (src.length + 1) 0 = Except.ok (repeats src sg s) := by
    have hfuel : (src.drop (s + 0)).length < src.length + 1 := by
      rw [List.length_drop]
      omega
    rw [countLoop_eq hitem rfl hfuel, Nat.zero_add]
    rfl
  refine Sound.lift ?_ ?_
  · intro i hi
    rw [hcount] at hi
    cases hi
    exact backOff_sound hm hgood hdepth (repeats_le sg hgood.place)
  · intro e he
    rw [hcount] at he
    cases he

/-- The places behind at least one repetition. -/
theorem afterCounts_range' (src pat : List UInt8) (ep k : ℕ) (cs : List Capture) :
    afterCounts src pat ep { place := s, caps := cs } (List.range' 1 k).reverse =
      afterCounts src pat ep { place := s + 1, caps := cs } (List.range k).reverse := by
  rw [List.range'_eq_map_range, ← List.map_reverse, afterCounts, afterCounts, List.flatMap_map]
  congr 1
  funext j
  rw [Nat.add_assoc]

/-- What an item with a suffix leads to. -/
structure ItemPoints (src pat : List UInt8) (p ep : ℕ) (rest : List UInt8) (sg : Single)
    (x : Point) : Prop where
  suffix : ∀ a rep, rest.head? = some a → repeatOf a = some rep →
    restOf src pat p x = afterCounts src pat (ep + 1) x (rep.counts (repeats src sg x.place))
  plain : (∀ a, rest.head? = some a → repeatOf a = none) →
    restOf src pat p x = afterCounts src pat ep x (Repeat.once.counts (repeats src sg x.place))

theorem itemPoints {p ep : ℕ} {c : UInt8} {r rest : List UInt8} {sg : Single}
    (h : pat.drop p = c :: r) (hitem : parseElem c r = parseItem c r)
    (hsingle : parseSingle c r = some (sg, rest)) (hdrop : pat.drop ep = rest) (x : Point) :
    ItemPoints src pat p ep rest sg x := by
  constructor
  · intro a rep ha hrep
    have htail : pat.drop (ep + 1) = rest.tail := by
      cases rest with
      | nil => cases ha
      | cons b rest => exact drop_succ_of_drop hdrop
    rw [restOf_of_drop h, hitem, parseItem, hsingle]
    dsimp only
    rw [parseSuffix_some ha hrep, Elem.choices, List.flatMap_map, ← htail]
    rfl
  · intro hnone
    rw [restOf_of_drop h, hitem, parseItem, hsingle]
    dsimp only
    rw [parseSuffix_none hnone, Elem.choices, List.flatMap_map, ← hdrop]
    rfl

/-- An item that matches at least once. -/
theorem matched_sound {p ep : ℕ} {rest : List UInt8} {sg : Single} (hm : Searches src pat n m)
    (hlt : p < ep ∧ p < pat.length)
    (hmatch : ∀ s, singleMatch src pat s p ep = Except.ok ((src[s]?).any sg.has))
    (hpoints : ItemPoints src pat p ep rest sg { place := s, caps := caps st })
    (hgood : Good src s st) (hdepth : st.matchdepth < n) (hany : (src[s]?).any sg.has = true) :
    Sound (scans src)
      (if rest.head? = some (ascii '?') then do
        match ← m (s + 1) (ep + 1) with
        | some r => pure (Step.done (some r))
        | none => pure (Step.init s (ep + 1))
      else if rest.head? = some (ascii '+') then do
        let r ← maxExpand m src pat (s + 1) p ep
        pure (Step.done r)
      else if rest.head? = some (ascii '*') then do
        let r ← maxExpand m src pat s p ep
        pure (Step.done r)
      else if rest.head? = some (ascii '-') then do
        let r ← minExpand m src pat p ep (src.length + 1) s
        pure (Step.done r)
      else pure (Step.init (s + 1) ep)) st
      (Rounds src pat p st (restOf src pat p { place := s, caps := caps st })) := by
  obtain ⟨hin, hsucc⟩ := repeats_succ hany
  have hone : 1 ≤ repeats src sg s := (repeats_pos sg s).mpr hany
  have hnext : Good src (s + 1) st := hgood.advance (Nat.le_succ s) hin
  split
  case isTrue hsuffix =>
    rw [hpoints.suffix _ Repeat.optional hsuffix rfl, Repeat.counts, if_pos hone, afterCounts_cons]
    refine Sound.orElse (hm (s + 1) (ep + 1) st hnext hdepth) ?_ ?_
    · intro e st₁ hfinds
      exact Sound.pure hfinds.append
    · intro st₁ hnone hsame
      refine Sound.pure ⟨hsame, by omega, hgood.same hsame, ?_⟩
      dsimp only
      rw [hnone, List.nil_append, afterCounts_one]
      rfl
  case isFalse hopt =>
    split
    case isTrue hsuffix =>
      rw [hpoints.suffix _ Repeat.greedyOne hsuffix rfl, Repeat.counts, if_pos hone,
        afterCounts_range', hsucc, Nat.add_comm 1 (repeats src sg (s + 1))]
      refine Sound.bind (Sound.mono (maxExpand_sound hm hmatch hnext hdepth) ?_)
      intro r st₁ hfinds
      exact Sound.pure hfinds
    case isFalse hplus =>
      split
      case isTrue hsuffix =>
        rw [hpoints.suffix _ Repeat.greedy hsuffix rfl, Repeat.counts]
        refine Sound.bind (Sound.mono (maxExpand_sound hm hmatch hgood hdepth) ?_)
        intro r st₁ hfinds
        exact Sound.pure hfinds
      case isFalse hstar =>
        split
        case isTrue hsuffix =>
          have hfuel : (src.drop s).length < src.length + 1 := by
            rw [List.length_drop]
            omega
          rw [hpoints.suffix _ Repeat.reluctant hsuffix rfl, Repeat.counts]
          refine Sound.bind (Sound.mono (minExpand_sound hm hmatch rfl hfuel hgood hdepth) ?_)
          intro r st₁ hfinds
          exact Sound.pure hfinds
        case isFalse hminus =>
          have hnone : ∀ a, rest.head? = some a → repeatOf a = none := by
            intro a ha
            rw [ha, Option.some.injEq] at hopt hplus hstar hminus
            rw [repeatOf, if_neg hopt, if_neg hplus, if_neg hstar, if_neg hminus]
          rw [hpoints.plain hnone, Repeat.counts, if_pos hone, afterCounts_one]
          exact Sound.pure ⟨Same.refl st, hlt, hnext, rfl⟩

/-- An item that does not match. -/
theorem unmatched_sound {p ep : ℕ} {rest : List UInt8} {sg : Single}
    (hlt : p < ep ∧ p < pat.length)
    (hpoints : ItemPoints src pat p ep rest sg { place := s, caps := caps st })
    (hgood : Good src s st) (hany : (src[s]?).any sg.has = false) :
    Sound (scans src)
      (if rest.head? = some (ascii '*') ∨ rest.head? = some (ascii '?') ∨
          rest.head? = some (ascii '-') then
        pure (Step.init s (ep + 1))
      else pure (Step.done none)) st
      (Rounds src pat p st (restOf src pat p { place := s, caps := caps st })) := by
  have hzero : repeats src sg s = 0 := by
    have hno : ¬1 ≤ repeats src sg s := by
      rw [repeats_pos, hany]
      decide
    omega
  have hskip : ∀ a rep, rest.head? = some a → repeatOf a = some rep → rep.counts 0 = [0] →
      Rounds src pat p st (restOf src pat p { place := s, caps := caps st })
        (Step.init s (ep + 1)) st := by
    intro a rep ha hrep hcounts
    rw [hpoints.suffix a rep ha hrep, hzero, hcounts, afterCounts_one]
    exact ⟨Same.refl st, by omega, hgood, rfl⟩
  split
  case isTrue hsuffix =>
    rcases hsuffix with ha | ha | ha
    · exact Sound.pure (hskip _ Repeat.greedy ha rfl rfl)
    · exact Sound.pure (hskip _ Repeat.optional ha rfl rfl)
    · exact Sound.pure (hskip _ Repeat.reluctant ha rfl rfl)
  case isFalse hsuffix =>
    refine Sound.pure ⟨?_, Same.refl st⟩
    by_cases hplus : rest.head? = some (ascii '+')
    · rw [hpoints.suffix _ Repeat.greedyOne hplus rfl, hzero]
      rfl
    · have hnone : ∀ a, rest.head? = some a → repeatOf a = none := by
        intro a ha
        rw [ha, Option.some.injEq, Option.some.injEq, Option.some.injEq] at hsuffix
        rw [ha, Option.some.injEq] at hplus
        rw [repeatOf, if_neg (fun h => hsuffix (Or.inr (Or.inl h))), if_neg hplus,
          if_neg (fun h => hsuffix (Or.inl h)), if_neg (fun h => hsuffix (Or.inr (Or.inr h)))]
      rw [hpoints.plain hnone, hzero]
      rfl

/-- **An item with its suffix.** -/
theorem matchDefault_sound {p : ℕ} {c : UInt8} {r : List UInt8} (hm : Searches src pat n m)
    (h : pat.drop p = c :: r) (hitem : parseElem c r = parseItem c r) (hgood : Good src s st)
    (hdepth : st.matchdepth < n) :
    Sound (scans src) (matchDefault m src pat s p) st
      (Rounds src pat p st (restOf src pat p { place := s, caps := caps st })) := by
  cases hsingle : parseSingle c r with
  | none =>
      obtain ⟨pe, herror⟩ := classend_noSingle h hsingle
      refine Sound.lift ?_ ?_
      · intro ep hep
        rw [herror] at hep
        cases hep
      · intro e he
        rw [herror] at he
        cases he
        exact allowed_error pe
  | some item =>
      obtain ⟨sg, rest⟩ := item
      obtain ⟨ep, hclassend, hend, hmatch⟩ := classend_single h hsingle
      have hhead : pat[ep]? = rest.head? := by
        rw [← List.head?_drop, hend.drop]
      have hin : p < ep ∧ p < pat.length := ⟨hend.lt, lt_of_drop h⟩
      have hpoints : ItemPoints src pat p ep rest sg { place := s, caps := caps st } :=
        itemPoints h hitem hsingle hend.drop _
      refine Sound.lift ?_ ?_
      · intro ep' hep
        rw [hclassend] at hep
        cases hep
        refine Sound.lift ?_ ?_
        · intro b hb
          rw [hmatch] at hb
          cases hb
          rw [hhead]
          cases hany : (src[s]?).any sg.has with
          | true => exact matched_sound hm hin (hmatch src) hpoints hgood hdepth hany
          | false => exact unmatched_sound hin hpoints hgood hany
        · intro e he
          rw [hmatch] at he
          cases he
      · intro e he
        rw [hclassend] at he
        cases he

/-! ### Balanced runs and frontiers -/

theorem balancedLength_le {b e : UInt8} {d k : ℕ} {run : List UInt8}
    (h : balancedLength b e d run = some k) : k ≤ run.length := by
  have hmem := List.mem_of_find?_eq_some h
  rw [List.mem_range] at hmem
  omega

/-- **A balanced run**, unless the counter overflows. -/
theorem matchBalance_sound {p : ℕ} {b e : UInt8} {r : List UInt8}
    (h : pat.drop p = b :: e :: r) (hs : s ≤ src.length) :
    Sound (scans src) (matchBalance src pat s p) st fun o st' => st' = st ∧
      (∀ ns, o = some ns → s ≤ ns ∧ ns ≤ src.length) ∧
      ∀ cs, (Elem.balance b e).choices src { place := s, caps := cs } =
        (o.map fun ns => ({ place := ns, caps := cs } : Point)).toList := by
  have hsecond := drop_succ_of_drop h
  have hlong : ¬pat.length ≤ p + 1 := Nat.not_le_of_lt (lt_of_drop hsecond)
  rw [matchBalance, if_neg hlong, index_of_drop h, index_of_drop hsecond]
  refine Sound.lift ?_ (fun _ he => by cases he)
  intro b' hb'
  cases hb'
  refine Sound.lift ?_ (fun _ he => by cases he)
  intro e' he'
  cases he'
  by_cases hopen : src[s]? = some b
  · have hlt : s < src.length := (List.getElem?_eq_some_iff.mp hopen).1
    have hfuel : (src.drop (s + 1)).length < src.length + 1 := by
      rw [List.length_drop]
      omega
    obtain ⟨hdeep, hscan⟩ : (TooDeep b e 1 (src.drop (s + 1)) → _) ∧ _ :=
      balanceLoop_eq rfl Nat.one_pos (by decide) hfuel
    rw [if_pos hopen]
    refine Sound.tell ?_ ?_
    · intro hharmless
      rw [hscan hharmless]
      refine Sound.lifted ?_ (fun _ he => by cases he)
      intro o ho
      cases ho
      refine ⟨rfl, ?_, ?_⟩
      · intro ns hns
        obtain ⟨k, hk, rfl⟩ := Option.map_eq_some_iff.mp hns
        have hle := balancedLength_le hk
        rw [List.length_drop] at hle
        omega
      · intro cs
        rw [Elem.choices, if_pos hopen]
        cases balancedLength b e 1 (src.drop (s + 1)) <;> rfl
    · intro hbad
      rw [hdeep (Classical.not_not.mp hbad)]
      rfl
  · rw [if_neg hopen]
    refine Sound.pure ⟨rfl, by simp, ?_⟩
    intro cs
    rw [Elem.choices, if_neg hopen]
    rfl

theorem matchBalance_short {p : ℕ} (h : pat.length ≤ p + 1) {Q : Option ℕ → MatchState → Prop} :
    Sound (scans src) (matchBalance src pat s p) st Q := by
  rw [matchBalance, if_pos h]
  exact Sound.fail (allowed_error _)

/-- **A frontier**. -/
theorem matchFrontier_eq {fp : ℕ} {r : List UInt8} (h : pat.drop fp = r) (hs : s ≤ src.length) :
    (∃ pe, matchFrontier src pat s fp = Except.error (Stop.error pe)) ∨
      ∃ ep set o, parseFrontier r = (Elem.frontier set, pat.drop ep) ∧ fp < ep ∧
        matchFrontier src pat s fp =
          Except.ok (o.elim (Step.done none) fun ns => Step.init ns ep) ∧
        (∀ ns, o = some ns → ns = s) ∧
        ∀ cs, (Elem.frontier set).choices src { place := s, caps := cs } =
          (o.map fun ns => ({ place := ns, caps := cs } : Point)).toList := by
  have hhead : pat[fp]? = r.head? := by
    rw [← List.head?_drop, h]
  by_cases hbracket : r.head? = some (ascii '[')
  · cases r with
    | nil => cases hbracket
    | cons x r =>
        obtain rfl := Option.some.inj hbracket
        cases hset : parseSet r with
        | none =>
            refine Or.inl ⟨PatError.missingBracket, ?_⟩
            rw [matchFrontier, hhead, if_neg (fun hno => hno rfl), classend_noSet h hset]
            rfl
        | some x =>
            obtain ⟨set, rest⟩ := x
            obtain ⟨hclassend, hend, hwalk⟩ := matchBracketClass_eq h hset
            refine Or.inr ?_
            generalize hep : pat.length - rest.length = ep at hclassend hend hwalk
            -- the byte in front of the place
            have hprev : ∃ prev, prevByte src s = Except.ok prev ∧
                prev = if s = 0 then 0 else (src[s - 1]?).getD 0 := by
              by_cases hzero : s = 0
              · exact ⟨0, by rw [prevByte, if_pos hzero], by rw [if_pos hzero]⟩
              · have hlt : s - 1 < src.length := by omega
                refine ⟨src[s - 1], ?_, ?_⟩
                · rw [prevByte, if_neg hzero, index, List.getElem?_eq_getElem hlt]
                · rw [if_neg hzero, List.getElem?_eq_getElem hlt]
                  rfl
            obtain ⟨prev, hread, hvalue⟩ := hprev
            have hmatch : matchFrontier src pat s fp =
                if set.has prev then Except.ok (Step.done none)
                else if set.has ((src[s]?).getD 0) then Except.ok (Step.init s ep)
                else Except.ok (Step.done none) := by
              rw [matchFrontier, hhead, if_neg (fun hno => hno rfl), hclassend, hread]
              show ((matchBracketClass prev pat fp (ep - 1)).bind fun b => _) = _
              rw [hwalk]
              show (if set.has prev = true then _ else
                (matchBracketClass ((src[s]?).getD 0) pat fp (ep - 1)).bind fun b => _) = _
              rw [hwalk]
              rfl
            refine ⟨ep, set, if !set.has prev && set.has ((src[s]?).getD 0) then some s else none,
              ?_, hend.lt, ?_, ?_, ?_⟩
            · rw [parseFrontier, if_pos hbracket, List.tail_cons, hset, hend.drop]
            · rw [hmatch]
              cases set.has prev <;> cases set.has ((src[s]?).getD 0) <;> rfl
            · intro ns hns
              split at hns
              · exact (Option.some.inj hns).symm
              · cases hns
            · intro cs
              rw [Elem.choices, ← hvalue]
              cases set.has prev <;> cases set.has ((src[s]?).getD 0) <;> rfl
  · refine Or.inl ⟨PatError.missingFrontierBracket, ?_⟩
    rw [matchFrontier, hhead, if_pos hbracket]
    rfl

/-! ### The search -/

/-- What is known of the element, round by round. -/
theorem rounds_choice {p q : ℕ} {c : UInt8} {r : List UInt8} {e : Elem} {o : Option ℕ}
    (h : pat.drop p = c :: r) (helem : parseElem c r = (e, pat.drop q)) (hlt : p < q)
    (hgood : Good src s st) (hplace : ∀ ns, o = some ns → s ≤ ns ∧ ns ≤ src.length)
    (hchoices : e.choices src { place := s, caps := caps st } =
      (o.map fun ns => ({ place := ns, caps := caps st } : Point)).toList) :
    Rounds src pat p st (restOf src pat p { place := s, caps := caps st })
      (o.elim (Step.done none) fun ns => Step.init ns q) st :=
  rounds_of_choice (restOf_of_choice h helem hchoices) rfl hgood ⟨hlt, lt_of_drop h⟩ hplace rfl

/-- An escape that is no item. -/
theorem matchEscape_sound {p : ℕ} {d : UInt8} {r : List UInt8} (hm : Searches src pat n m)
    (h : pat.drop p = L_ESC :: d :: r) (hgood : Good src s st) (hdepth : st.matchdepth < n) :
    Sound (scans src)
      (if d = ascii 'b' then do
        match ← matchBalance src pat s (p + 2) with
        | some ns => pure (Step.init ns (p + 4))
        | none => pure (Step.done none)
      else if d = ascii 'f' then lift (matchFrontier src pat s (p + 2))
      else if isDigit d then do
        let st ← get
        match ← lift (matchCapture src st s d) with
        | some ns => pure (Step.init ns (p + 2))
        | none => pure (Step.done none)
      else matchDefault m src pat s p) st
      (Rounds src pat p st (restOf src pat p { place := s, caps := caps st })) := by
  have hrest : pat.drop (p + 2) = r := drop_succ_of_drop (drop_succ_of_drop h)
  have helem : parseElem L_ESC (d :: r) =
      if d = ascii 'b' then parseBalance r
      else if d = ascii 'f' then parseFrontier r
      else if isDigit d then (Elem.backReference (captureNumber d), r)
      else parseItem L_ESC (d :: r) := by
    rw [parseElem.eq_def, if_neg (by decide), if_neg (by decide), if_neg (by simp), if_pos rfl]
    rfl
  split
  case isTrue hb =>
    rw [if_pos hb] at helem
    refine Sound.bind ?_
    rcases r with _ | ⟨b, _ | ⟨e, r⟩⟩
    · refine matchBalance_short ?_
      have hle := List.drop_eq_nil_iff.mp hrest
      omega
    · refine matchBalance_short ?_
      have hlen := length_of_drop hrest
      simp only [List.length_nil] at hlen
      omega
    · refine Sound.mono (matchBalance_sound hrest hgood.place) ?_
      rintro o st₁ ⟨rfl, hplace, hchoices⟩
      have helem' : parseElem L_ESC (d :: b :: e :: r) = (Elem.balance b e, pat.drop (p + 4)) := by
        rw [helem, parseBalance]
        congr 1
        exact (drop_succ_of_drop (drop_succ_of_drop hrest)).symm
      have hround := rounds_choice h helem' (by omega) hgood hplace (hchoices _)
      cases o with
      | none => exact Sound.pure hround
      | some ns => exact Sound.pure hround
  case isFalse hb =>
    rw [if_neg hb] at helem
    split
    case isTrue hf =>
      rw [if_pos hf] at helem
      rcases matchFrontier_eq hrest hgood.place with
        ⟨pe, herror⟩ | ⟨ep, set, o, hparse, hlt, hok, hsame, hchoices⟩
      · refine Sound.lifted ?_ ?_
        · intro a ha
          rw [herror] at ha
          cases ha
        · intro e he
          rw [herror] at he
          cases he
          exact allowed_error pe
      · refine Sound.lifted ?_ ?_
        · intro step hstep
          rw [hok] at hstep
          cases hstep
          refine rounds_choice h (helem.trans hparse) (by omega) hgood ?_ (hchoices _)
          intro ns hns
          rw [hsame ns hns]
          exact ⟨Nat.le_refl s, hgood.place⟩
        · intro e he
          rw [hok] at he
          cases he
    case isFalse hf =>
      rw [if_neg hf] at helem
      split
      case isTrue hd =>
        have helem' : parseElem L_ESC (d :: r) =
            (Elem.backReference (captureNumber d), pat.drop (p + 2)) := by
          rw [helem, if_pos hd, hrest]
        refine Sound.get ?_
        rcases matchCapture_eq d hgood with ⟨e, herror⟩ | ⟨o, hok, hplace, hchoices⟩
        · refine Sound.lift ?_ ?_
          · intro a ha
            rw [herror] at ha
            cases ha
          · intro e' he
            rw [herror] at he
            cases he
            exact allowed_error e
        · have hround := rounds_choice h helem' (by omega) hgood hplace hchoices
          refine Sound.lift ?_ ?_
          · intro a ha
            rw [hok] at ha
            cases ha
            cases o with
            | none => exact Sound.pure hround
            | some ns => exact Sound.pure hround
          · intro e he
            rw [hok] at he
            cases he
      case isFalse hd =>
        rw [if_neg hd] at helem
        exact matchDefault_sound hm h helem hgood hdepth

/-- **A round of the loop.** -/
theorem matchStep_sound {p : ℕ} (hm : Searches src pat n m) (hgood : Good src s st)
    (hdepth : st.matchdepth < n) :
    Sound (scans src) (matchStep m src pat s p) st
      (Rounds src pat p st (restOf src pat p { place := s, caps := caps st })) := by
  cases h : pat.drop p with
  | nil =>
      have hnone : pat[p]? = none := List.getElem?_eq_none (List.drop_eq_nil_iff.mp h)
      have hpoints : restOf src pat p { place := s, caps := caps st } =
          [{ place := s, caps := caps st }] := by
        rw [restOf, h, elems]
        rfl
      rw [matchStep.eq_def, hnone, hpoints]
      exact Sound.pure ⟨rfl, hgood, rfl⟩
  | cons c r =>
      rw [matchStep.eq_def, getElem?_of_drop h]
      dsimp only
      rw [getElem?_succ_of_drop h]
      split
      case isTrue hc =>
        -- a capture that is opened, or a position
        subst hc
        have helem : parseElem (ascii '(') r =
            if r.head? = some (ascii ')') then (Elem.position, r.tail)
            else (Elem.openCapture, r) := by
          rw [parseElem.eq_def, if_pos rfl]
        split
        case isTrue hposition =>
          have hrest : pat.drop (p + 2) = r.tail := by
            cases r with
            | nil => cases hposition
            | cons x r => exact drop_succ_of_drop (drop_succ_of_drop h)
          have hpoints : restOf src pat p { place := s, caps := caps st } =
              if (caps st).length < MAX_CAPTURES then
                restOf src pat (p + 2)
                  { place := s, caps := caps st ++ [{ init := s, len := CapLen.position }] }
              else [] := by
            rw [restOf_of_drop h, helem, if_pos hposition, Elem.choices, ← hrest]
            split
            · exact List.flatMap_singleton _ _
            · rfl
          rw [hpoints]
          refine Sound.bind (Sound.mono
            (startCapture_sound hm hgood hdepth (fun k hk => by cases hk)) ?_)
          intro o st₁ hfinds
          exact Sound.pure hfinds
        case isFalse hposition =>
          have hrest : pat.drop (p + 1) = r := drop_succ_of_drop h
          have hpoints : restOf src pat p { place := s, caps := caps st } =
              if (caps st).length < MAX_CAPTURES then
                restOf src pat (p + 1)
                  { place := s, caps := caps st ++ [{ init := s, len := CapLen.unfinished }] }
              else [] := by
            rw [restOf_of_drop h, helem, if_neg hposition, Elem.choices, ← hrest]
            split
            · exact List.flatMap_singleton _ _
            · rfl
          rw [hpoints]
          refine Sound.bind (Sound.mono
            (startCapture_sound hm hgood hdepth (fun k hk => by cases hk)) ?_)
          intro o st₁ hfinds
          exact Sound.pure hfinds
      case isFalse hc =>
        split
        case isTrue hclose =>
          -- a capture that is closed
          subst hclose
          have hrest : pat.drop (p + 1) = r := drop_succ_of_drop h
          have helem : parseElem (ascii ')') r = (Elem.close, r) := by
            rw [parseElem.eq_def, if_neg hc, if_pos rfl]
          have hpoints : restOf src pat p { place := s, caps := caps st } =
              match lastOpen (caps st) with
              | some l => restOf src pat (p + 1) { place := s, caps := (caps st).modify l fun c =>
                  { init := c.init, len := CapLen.len (s - c.init) } }
              | none => [] := by
            rw [restOf_of_drop h, helem, Elem.choices, ← hrest]
            cases lastOpen (caps st) with
            | none => rfl
            | some l => exact List.flatMap_singleton _ _
          rw [hpoints]
          refine Sound.bind (Sound.mono (endCapture_sound hm hgood hdepth) ?_)
          intro o st₁ hfinds
          exact Sound.pure hfinds
        case isFalse hclose =>
          have hlast : p + 1 = pat.length ↔ r = [] := by
            have hlen := length_of_drop h
            rw [← List.length_eq_zero_iff]
            omega
          split
          case isTrue hend =>
            -- the end of the subject
            obtain ⟨rfl, hnil⟩ := hend
            obtain rfl := hlast.mp hnil
            have helem : parseElem (ascii '$') [] = (Elem.endAnchor, []) := by
              rw [parseElem.eq_def, if_neg hc, if_neg hclose, if_pos ⟨rfl, rfl⟩]
            have hpoints : restOf src pat p { place := s, caps := caps st } =
                if s = src.length then [{ place := s, caps := caps st }] else [] := by
              rw [restOf_of_drop h, helem, Elem.choices, elems]
              split
              · rfl
              · rfl
            rw [hpoints]
            refine Sound.pure ?_
            by_cases hs : s = src.length
            · rw [if_pos hs, if_pos hs]
              exact ⟨rfl, hgood, rfl⟩
            · rw [if_neg hs, if_neg hs]
              exact ⟨rfl, Same.refl st⟩
          case isFalse hlong =>
            have hend : ¬(c = ascii '$' ∧ r = []) := by
              rintro ⟨hdollar, hnil⟩
              exact hlong ⟨hdollar, hlast.mpr hnil⟩
            split
            case isTrue hesc =>
              subst hesc
              cases r with
              | nil =>
                  have helem : parseElem L_ESC [] = parseItem L_ESC [] := by
                    rw [parseElem.eq_def, if_neg hc, if_neg hclose, if_neg hend, if_pos rfl]
                  exact matchDefault_sound hm h helem hgood hdepth
              | cons d r => exact matchEscape_sound hm h hgood hdepth
            case isFalse hesc =>
              have helem : parseElem c r = parseItem c r := by
                rw [parseElem.eq_def, if_neg hc, if_neg hclose, if_neg hend, if_neg hesc]
              exact matchDefault_sound hm h helem hgood hdepth

/-- The loop goes through the pattern. -/
theorem matchLoop_sound {p fuel : ℕ} (hm : Searches src pat n m) (hgood : Good src s st)
    (hdepth : st.matchdepth < n) (hfuel : pat.length - p < fuel) :
    Sound (scans src) (matchLoop m src pat fuel s p) st
      (Finds src st (restOf src pat p { place := s, caps := caps st })) := by
  induction fuel generalizing s p st with
  | zero => omega
  | succ fuel ih =>
      refine Sound.bind (Sound.mono (matchStep_sound hm hgood hdepth) ?_)
      intro step st₁ hround
      cases step with
      | done r => exact Sound.pure hround
      | init s' p' =>
          obtain ⟨hsame, ⟨hlt, hin⟩, hgood₁, hpoints⟩ := hround
          have hdepth₁ : st₁.matchdepth < n := by
            rw [hsame.depth]
            exact hdepth
          rw [hpoints, ← hsame.caps]
          refine Sound.mono (ih hgood₁ hdepth₁ (by omega)) ?_
          intro r st₂ hfinds
          exact hfinds.after hsame

/-- The state within a call. -/
def entered (st : MatchState) : MatchState := { st with matchdepth := st.matchdepth - 1 }

/-- **The search**, with as many calls open as the depth allows. -/
theorem doMatch_sound (src pat : List UInt8) (n : ℕ) : Searches src pat n (doMatch src pat n) := by
  induction n with
  | zero =>
      intro s p st _ hdepth
      cases hdepth
  | succ n ih =>
      intro s p st hgood hdepth
      refine Sound.get ?_
      by_cases hzero : st.matchdepth = 0
      · rw [if_pos hzero]
        exact Sound.fail (allowed_error _)
      · rw [if_neg hzero]
        have hentered : Good src s (entered st) := ⟨hgood.level, hgood.place, hgood.front⟩
        have hdepth' : (entered st).matchdepth < n := by
          show st.matchdepth - 1 < n
          omega
        refine Sound.modify (Sound.bind (Sound.mono
          (matchLoop_sound ih hentered hdepth' (by omega)) ?_))
        intro r st₁ hfinds
        refine Sound.modify (Sound.pure ?_)
        have hback : st₁.matchdepth = (entered st).matchdepth →
            st₁.matchdepth + 1 = st.matchdepth := by
          intro heq
          rw [heq]
          show st.matchdepth - 1 + 1 = _
          omega
        cases r with
        | none =>
            obtain ⟨hnone, hsame⟩ := hfinds
            exact ⟨hnone, hback hsame.depth, hsame.level, hsame.caps⟩
        | some e =>
            obtain ⟨hfirst, hgood₁, hsame⟩ := hfinds
            exact ⟨hfirst, ⟨hgood₁.level, hgood₁.place, hgood₁.front⟩, hback hsame⟩

/-! ### Matching at a place -/

/-- The state in which a match begins. -/
def started (st : MatchState) : MatchState := { st with level := 0, matchdepth := MAX_CCALLS }

theorem matchAt_sound (hs : s ≤ src.length) :
    Sound (scans src) (matchAt src pat s) st
      (Finds src (started st) (search src (elems pat) { place := s, caps := [] })) := by
  have hgood : Good src s (started st) := ⟨Nat.zero_le _, hs, by simp [caps, started]⟩
  refine Sound.modify (Sound.mono (doMatch_sound src pat (MAX_CCALLS + 1) s 0 (started st) hgood
    (Nat.lt_succ_self _)) ?_)
  intro r st₁ hfinds
  have hcaps : caps (started st) = [] := List.take_zero
  rw [hcaps] at hfinds
  exact hfinds

/-- What the matcher is to do at a place: unless it reports an error, it gives the first point that
the pattern leads to, with its captures, or there is none. -/
def MatchesFirst (src pat : List UInt8) (s : ℕ) (st : MatchState) : Prop :=
  match (matchAt src pat s st).2 with
  | Except.ok (some e, st') =>
      (search src (elems pat) { place := s, caps := [] }).head? =
        some { place := e, caps := caps st' }
  | Except.ok (none, _) => ∀ y, ¬Derives src (elems pat) { place := s, caps := [] } y
  | Except.error (Stop.error _) => True
  | Except.error _ => False

/-- **The matcher gives the first match**, exactly when no scan for a balanced run that it makes has
more delimiters open at once than an `i32` counts. -/
theorem matchAt_first_iff (src pat : List UInt8) (s : ℕ) (st : MatchState) (hs : s ≤ src.length) :
    MatchesFirst src pat s st ↔ ∀ scan ∈ (matchAt src pat s st).1,
      ¬TooDeep scan.opening scan.closing 1 (src.drop scan.start) := by
  have hsound : Sound (scans src) (matchAt src pat s) st _ := matchAt_sound hs
  constructor
  · intro hmatches scan hscan hdeep
    have hcrash := hsound.crash_iff.mpr ⟨scan, hscan, fun hno => hno hdeep⟩
    rw [MatchesFirst, hcrash] at hmatches
    exact hmatches
  · intro hlog
    have hends := hsound.ends hlog
    rw [MatchesFirst]
    cases hresult : (matchAt src pat s st).2 with
    | error e =>
        rw [hresult] at hends
        obtain ⟨pe, rfl⟩ := hends
        trivial
    | ok x =>
        obtain ⟨r, st'⟩ := x
        rw [hresult] at hends
        cases r with
        | some e => exact hends.1
        | none =>
            intro y hy
            have hmem := mem_search_iff.mpr hy
            rw [hends.1] at hmem
            cases hmem

/-- The state of a new matcher. -/
def MatchState.new : MatchState where
  level := 0
  matchdepth := MAX_CCALLS
  capture := Vector.replicate MAX_CAPTURES { init := 0, len := CapLen.unfinished }

/-- A subject that is short is not too deep. -/
theorem not_tooDeep_of_short {b e : UInt8} {src : List UInt8} (h : src.length + 1 < 2 ^ 31)
    (start : ℕ) : ¬TooDeep b e 1 (src.drop start) := by
  rintro ⟨k, -, -, hdeep⟩
  have hopenings : openings b e ((src.drop start).take k) ≤ src.length := by
    unfold openings
    split
    · exact Nat.zero_le _
    · refine Nat.le_trans List.count_le_length ?_
      rw [List.length_take, List.length_drop]
      omega
  omega

/-- `(%b())` at the second byte of `a(b)`. -/
theorem matchAt_first_balanced :
    MatchesFirst [97, 40, 98, 41] [40, 37, 98, 40, 41, 41] 1 MatchState.new :=
  (matchAt_first_iff _ _ 1 _ (by decide)).2 fun scan _ =>
    not_tooDeep_of_short (by decide) scan.start

/-- More opening parentheses than the counter counts are too deep. -/
theorem tooDeep_replicate {n : ℕ} (hn : 2 ^ 31 ≤ n) :
    TooDeep 40 41 1 ((List.replicate n (40 : UInt8)).drop 1) := by
  rw [List.drop_replicate]
  refine ⟨n - 1, by simp, ?_, ?_⟩
  · intro j hj
    simp [closings, openings, List.take_replicate, List.count_replicate]
  · simp [closings, openings, List.take_replicate, List.count_replicate]
    omega

/-- `%b()` at parentheses that are too deep. -/
theorem matchAt_overflow {src : List UInt8} {st : MatchState} (hopen : src[0]? = some 40)
    (hdeep : TooDeep 40 41 1 (src.drop 1)) :
    (matchAt src [37, 98, 40, 41] 0 st).2 = Except.error Stop.overflow := by
  have hfuel : (src.drop 1).length < src.length + 1 := by
    rw [List.length_drop]
    omega
  have hloop := (balanceLoop_eq rfl Nat.one_pos (by decide) hfuel).1 hdeep
  have hbalance : ∀ st', matchBalance src [37, 98, 40, 41] 0 2 st' =
      ([{ start := 1, opening := 40, closing := 41 }], Except.error Stop.overflow) := by
    intro st'
    show (if src[0]? = some 40 then
      (tell { start := 1, opening := 40, closing := 41 } >>= fun _ =>
        lift (balanceLoop src 40 41 (src.length + 1) 1 1) : MatchM (Option ℕ))
          else pure none) st' = _
    rw [if_pos hopen, hloop]
    rfl
  have hstep : ∀ m st', matchStep m src [37, 98, 40, 41] 0 0 st' =
      ([{ start := 1, opening := 40, closing := 41 }], Except.error Stop.overflow) :=
    fun m st' => bind_error (hbalance st')
  have hloop : ∀ m st', matchLoop m src [37, 98, 40, 41] 5 0 0 st' =
      ([{ start := 1, opening := 40, closing := 41 }], Except.error Stop.overflow) :=
    fun m st' => bind_error (hstep m st')
  have hdo : doMatch src [37, 98, 40, 41] (MAX_CCALLS + 1) 0 0 (started st) =
      ([{ start := 1, opening := 40, closing := 41 }], Except.error Stop.overflow) := by
    have hdepth : (started st).matchdepth ≠ 0 := (show MAX_CCALLS ≠ 0 by decide)
    rw [doMatch, get_bind, if_neg hdepth, modify_bind]
    exact bind_error (hloop _ _)
  show (doMatch src [37, 98, 40, 41] (MAX_CCALLS + 1) 0 0 (started st)).2 = _
  rw [hdo]

/-- `%b()` at `2 ^ 31` opening parentheses overflows. -/
theorem not_matchAt_first_parentheses : ¬∀ src pat s st, s ≤ src.length →
    MatchesFirst src pat s st := by
  intro h
  obtain ⟨n, hn⟩ : ∃ n, 2 ^ 31 ≤ n := ⟨2 ^ 31, Nat.le_refl _⟩
  have hmatches := h (List.replicate n 40) [37, 98, 40, 41] 0 MatchState.new (Nat.zero_le _)
  have hopen : (List.replicate n (40 : UInt8))[0]? = some 40 := by
    rw [List.getElem?_replicate, if_pos (by omega)]
  rw [MatchesFirst, matchAt_overflow hopen (tooDeep_replicate hn)] at hmatches
  exact hmatches

end Tcvm.Pattern
