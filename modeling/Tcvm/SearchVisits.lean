/-
The loops that search a string, told by the visits of a scan.

All of them try the same matcher, so what they find is told by the visits of a scan with that
matcher: an iterator meets them one after the other, `find` and `match` give the first, and the two
loops of `gsub` replace the first few.

* `ReportsNoError` — a pattern and a subject without an error of the matcher;
* `findLoop_visits`, `gmatchRun_visits` — searching;
* `gsubStringLoop_visits`, `gsubRunLoop_visits` — replacing;
* `findLoop_anchored`, `gsubStringLoop_anchored`, `gsubRunLoop_anchored` — anchored patterns.
-/

import Tcvm.StringSearch

namespace Tcvm.Pattern

open Logged Scanning

variable {src pat : List UInt8} {st st' : MatchState} {σ ε : Type}

/-! ### What the matcher finds -/

/-- The match of a new matcher at a place, by its end and the captures. -/
def matchesAt (src body : List UInt8) (s : ℕ) : Option (ℕ × MatchState) :=
  match (matchAt src body s MatchState.new).2 with
  | Except.ok (some e, st) => some (e, st)
  | _ => none

/-- The matcher reports no error at any place of the subject. -/
def ReportsNoError (src body : List UInt8) : Prop :=
  ∀ s ≤ src.length, ∃ x, (matchAt src body s MatchState.new).2 = Except.ok x

/-- A matcher that was used before finds the same. -/
theorem matchAt_eq {s : ℕ} (hno : ReportsNoError src pat) (hs : s ≤ src.length) (st : MatchState) :
    ∃ st', (matchAt src pat s st).2 = Except.ok ((matchesAt src pat s).map Prod.fst, st') ∧
      ∀ x, matchesAt src pat s = some x → Same x.2 st' := by
  obtain ⟨⟨r, st₀⟩, hnew⟩ := hno s hs
  have hagree := matchAt_reuse src pat s MatchState.new st
  rw [hnew] at hagree
  rw [matchesAt, hnew]
  cases hused : (matchAt src pat s st).2 with
  | error e =>
      rw [hused] at hagree
      exact hagree.elim
  | ok y =>
      obtain ⟨r', st'⟩ := y
      rw [hused] at hagree
      obtain ⟨rfl, hsame⟩ := hagree
      refine ⟨st', ?_, ?_⟩
      · cases r <;> rfl
      · intro x hx
        cases r with
        | none => exact nomatch hx
        | some e =>
            cases hx
            exact hsame

/-- Matches lie in the subject. -/
theorem matchesAt_bounded (src pat : List UInt8) :
    Bounded (matchesAt src pat) Prod.fst src.length := by
  intro s hs x hx
  obtain ⟨e, st'⟩ := x
  have hresult : (matchAt src pat s MatchState.new).2 = Except.ok (some e, st') := by
    rw [matchesAt] at hx
    split at hx
    case h_1 heq =>
      cases hx
      exact heq
    case h_2 => exact nomatch hx
  rcases @matchAt_sound src pat MatchState.new s hs with ⟨-, hends⟩ | ⟨-, hcrash⟩
  · rw [hresult] at hends
    obtain ⟨hfirst, hgood, -⟩ := hends
    have hderived := mem_search_iff.mp (List.mem_of_mem_head? hfirst)
    have hfrom := derives_from hderived
      (⟨Nat.le_refl s, fun c hc => nomatch hc⟩ : From s { place := s, caps := [] })
    exact ⟨hfrom.1, hgood.place⟩
  · rw [hresult] at hcrash
    exact nomatch hcrash

/-! ### Captures -/

theorem getOnecapture_same (h : Same st st') (i ws we : ℕ) :
    getOnecapture st' i ws we = getOnecapture st i ws we := by
  rw [getOnecapture, getOnecapture, h.level]
  by_cases hle : st.level ≤ i
  · rw [if_pos hle, if_pos hle]
  · rw [if_neg hle, if_neg hle, captureAt_same h (Nat.lt_of_not_le hle)]

theorem numCaptures_same (h : Same st st') (hasWhole : Bool) :
    numCaptures st' hasWhole = numCaptures st hasWhole := by
  rw [numCaptures, numCaptures, h.level]

theorem captures_same (h : Same st st') (n ws we : ℕ) :
    captures st' n ws we = captures st n ws we := by
  simp only [captures, getOnecapture_same h]

/-- A template reads nothing but captures in use. -/
theorem addS_same (h : Same st st') (s e : ℕ) : ∀ template out,
    (addS src st' s e template out : Except (StringError ε) _) = addS src st s e template out
  | [], _ => rfl
  | [_], _ => rfl
  | b :: c :: template, out => by
      simp only [addS, getOnecapture_same h, addS_same h s e template,
        addS_same h s e (c :: template)]

/-- What is written so far stays in front. -/
theorem addS_append (s e : ℕ) : ∀ template out,
    (addS src st s e template out : Except (StringError ε) _) =
      (addS src st s e template []).map fun bytes => out ++ bytes
  | [], out => by simp [addS, Except.map]
  | [b], out => by
      rw [addS, addS]
      split <;> rfl
  | b :: c :: template, out => by
      have hrest : ∀ more : List UInt8,
          (addS src st s e template (out ++ more) : Except (StringError ε) _) =
            (addS src st s e template ([] ++ more)).map fun bytes => out ++ bytes := by
        intro more
        rw [addS_append s e template (out ++ more), addS_append s e template ([] ++ more)]
        cases addS src st s e template [] with
        | error err => rfl
        | ok bytes => exact congrArg Except.ok (List.append_assoc out more bytes)
      have htail : (addS src st s e (c :: template) (out ++ [b]) : Except (StringError ε) _) =
          (addS src st s e (c :: template) ([] ++ [b])).map fun bytes => out ++ bytes := by
        rw [addS_append s e (c :: template) (out ++ [b]),
          addS_append s e (c :: template) ([] ++ [b])]
        cases addS src st s e (c :: template) [] with
        | error err => rfl
        | ok bytes => exact congrArg Except.ok (List.append_assoc out [b] bytes)
      rw [addS, addS]
      split
      · exact htail
      · split
        · exact hrest _
        · split
          · cases (fromPattern (slice src s e) : Except (StringError ε) _) with
            | error err => rfl
            | ok whole => exact hrest whole
          · split
            · cases (fromPattern (getOnecapture st (c.toNat - (ascii '1').toNat) s e) :
                Except (StringError ε) _) with
              | error err => rfl
              | ok v =>
                  cases v with
                  | pos n => exact hrest _
                  | str start stop =>
                      show (fromPattern (slice src start stop) >>= fun text =>
                          addS src st s e template (out ++ text)) =
                        Except.map _ (fromPattern (slice src start stop) >>= fun text =>
                          addS src st s e template ([] ++ text))
                      cases (fromPattern (slice src start stop) : Except (StringError ε) _) with
                      | error err => rfl
                      | ok text => exact hrest text
            · rfl

/-! ### One match -/

/-- A search that finds the first of the visits, or nothing if there are none. -/
def FindsFirst (xs : List (ℕ × ℕ × MatchState)) :
    Except Stop (Option (ℕ × ℕ × MatchState)) → Prop
  | Except.ok (some (s, e, st')) => ∃ st rest, xs = (s, e, st) :: rest ∧ Same st st'
  | Except.ok none => xs = []
  | Except.error _ => False

theorem findLoop_visits {pos fuel : ℕ} {last : Option ℕ} {xs : List (ℕ × ℕ × MatchState)}
    (hno : ReportsNoError src pat) (h : Visits (matchesAt src pat) Prod.fst src.length pos last xs)
    (hlast : last = none) (hpos : pos ≤ src.length) (hfuel : src.length - pos < fuel) :
    ∀ st, FindsFirst xs (findLoop src pat false fuel st pos) := by
  induction h generalizing fuel with
  | past hlt => exact absurd hlt (Nat.not_lt.mpr hpos)
  | @skip pos last xs hle hskip rest ih =>
      intro st
      obtain ⟨fuel, rfl⟩ := Nat.exists_eq_succ_of_ne_zero (Nat.ne_of_gt (Nat.zero_lt_of_lt hfuel))
      obtain ⟨st', hmatch, -⟩ := matchAt_eq hno hle st
      have hnone : matchesAt src pat pos = none := by
        cases hx : matchesAt src pat pos with
        | none => rfl
        | some x => exact nomatch (hskip x hx).trans hlast
      rw [hnone] at hmatch
      rw [findLoop, hmatch]
      show FindsFirst xs (if (false || decide (src.length ≤ pos)) = true then _ else _)
      by_cases hend : src.length ≤ pos
      · rw [if_pos (by simpa using hend)]
        exact rest.nil_of_past (Nat.lt_succ_of_le hend)
      · rw [if_neg (by simpa using hend)]
        exact ih hlast (Nat.lt_of_not_le hend) (by omega) st'
  | @take pos last x xs hle hx hnew rest ih =>
      intro st
      obtain ⟨fuel, rfl⟩ := Nat.exists_eq_succ_of_ne_zero (Nat.ne_of_gt (Nat.zero_lt_of_lt hfuel))
      obtain ⟨st', hmatch, hsame⟩ := matchAt_eq hno hle st
      rw [hx] at hmatch
      rw [findLoop, hmatch]
      exact ⟨x.2, xs, rfl, hsame x hx⟩

/-! ### `gmatch` -/

/-- What an iterator gives for a match. -/
def yielded (x : ℕ × ℕ × MatchState) : Except Stop (ℕ × ℕ × List CapValue) :=
  (captures x.2.2 (numCaptures x.2.2 true) x.1 x.2.1).map fun caps => (x.1, x.2.1, caps)

/-- The loop of a step comes to the first of the visits. -/
theorem gmatchLoop_visits {pos fuel : ℕ} {last : Option ℕ} {xs : List (ℕ × ℕ × MatchState)}
    (hno : ReportsNoError src pat) (h : Visits (matchesAt src pat) Prod.fst src.length pos last xs)
    (hfuel : src.length + 1 - pos < fuel) :
    ∀ st, gmatchLoop src pat last fuel st pos = match xs.head? with
      | some x => (yielded x).map some
      | none => Except.ok none := by
  induction h generalizing fuel with
  | past hlt =>
      intro st
      obtain ⟨fuel, rfl⟩ := Nat.exists_eq_succ_of_ne_zero (Nat.ne_of_gt (Nat.zero_lt_of_lt hfuel))
      rw [gmatchLoop, if_pos hlt]
      rfl
  | @skip pos last xs hle hskip rest ih =>
      intro st
      obtain ⟨fuel, rfl⟩ := Nat.exists_eq_succ_of_ne_zero (Nat.ne_of_gt (Nat.zero_lt_of_lt hfuel))
      obtain ⟨st', hmatch, -⟩ := matchAt_eq hno hle st
      rw [gmatchLoop, if_neg (Nat.not_lt.mpr hle), hmatch]
      have hgo := @ih fuel (by omega) st'
      cases hx : matchesAt src pat pos with
      | none => exact hgo
      | some x =>
          show (if some x.1 ≠ last then _ else _) = _
          rw [if_neg (not_not.mpr (hskip x hx))]
          exact hgo
  | @take pos last x xs hle hx hnew rest ih =>
      intro st
      obtain ⟨fuel, rfl⟩ := Nat.exists_eq_succ_of_ne_zero (Nat.ne_of_gt (Nat.zero_lt_of_lt hfuel))
      obtain ⟨st', hmatch, hsame⟩ := matchAt_eq hno hle st
      rw [hx] at hmatch
      rw [gmatchLoop, if_neg (Nat.not_lt.mpr hle), hmatch]
      show (if some x.1 ≠ last then _ else _) = _
      rw [if_pos hnew, captures_same (hsame x hx), numCaptures_same (hsame x hx)]
      show _ = (yielded (pos, x)).map some
      rw [yielded]
      cases captures x.2 (numCaptures x.2 true) pos x.1 with
      | error e => rfl
      | ok caps => rfl

/-- Behind the first of the visits come the others. -/
theorem Visits.tail {pos : ℕ} {last : Option ℕ} {x : ℕ × ℕ × MatchState}
    {xs : List (ℕ × ℕ × MatchState)} {find : ℕ → Option (ℕ × MatchState)} {n : ℕ}
    (h : Visits find Prod.fst n pos last (x :: xs)) :
    Visits find Prod.fst n x.2.1 (some x.2.1) xs := by
  generalize hys : x :: xs = ys at h
  induction h with
  | past => exact nomatch hys
  | skip _ _ _ ih => exact ih hys
  | take _ _ _ rest _ =>
      cases hys
      exact rest

/-- **The loop over an iterator sees the visits.** -/
theorem gmatchRun_visits {xs : List (ℕ × ℕ × MatchState)} (hno : ReportsNoError src pat) :
    ∀ {pos fuel : ℕ} {last : Option ℕ},
      Visits (matchesAt src pat) Prod.fst src.length pos last xs → xs.length < fuel →
        gmatchRun src pat fuel { pos := pos, lastmatch := last } = xs.mapM yielded := by
  induction xs with
  | nil =>
      intro pos fuel last h hfuel
      obtain ⟨fuel, rfl⟩ := Nat.exists_eq_succ_of_ne_zero (Nat.ne_of_gt hfuel)
      rw [gmatchRun, gmatchAux, gmatchLoop_visits hno h (by omega)]
      rfl
  | cons x xs ih =>
      intro pos fuel last h hfuel
      obtain ⟨fuel, rfl⟩ := Nat.exists_eq_succ_of_ne_zero (Nat.ne_of_gt (Nat.zero_lt_of_lt hfuel))
      rw [gmatchRun, gmatchAux, gmatchLoop_visits hno h (by omega), List.mapM_cons]
      have hrest := ih (Visits.tail h) (Nat.lt_of_succ_lt_succ hfuel)
      show (Except.map some (yielded x) >>= _) >>= _ = _
      rw [yielded]
      cases captures x.2.2 (numCaptures x.2.2 true) x.1 x.2.1 with
      | error e => rfl
      | ok caps =>
          show (gmatchRun src pat fuel { pos := x.2.1, lastmatch := some x.2.1 } >>= _) = _
          rw [hrest]
          rfl

/-! ### `gsub` with a template -/

theorem finish_eq {g : GsubState} (h : g.pos ≤ src.length) :
    (finish src g : Except (StringError ε) _) = Except.ok (g.out ++ src.drop g.pos, g.count) := by
  have hslice : slice src g.pos src.length = Except.ok (src.drop g.pos) := by
    rw [slice, if_pos ⟨h, Nat.le_refl _⟩, List.take_length]
  rw [finish, hslice]
  rfl

theorem copyByte_lt {g : GsubState} {b : UInt8} (hb : src[g.pos]? = some b) :
    (copyByte src g : Except (StringError ε) _) =
      Except.ok (some { g with out := g.out ++ [b], pos := g.pos + 1 }) := by
  have hlt : g.pos < src.length := (List.getElem?_eq_some_iff.mp hb).1
  rw [copyByte, if_pos hlt, index, hb]
  rfl

theorem copyByte_end {g : GsubState} (h : src.length ≤ g.pos) :
    (copyByte src g : Except (StringError ε) _) = Except.ok none := by
  rw [copyByte, if_neg (Nat.not_lt.mpr h)]
  rfl

/-- The template for a match. -/
def templateAt (src template : List UInt8) (s : ℕ) (x : ℕ × MatchState) (u : Unit) :
    Except (StringError Empty) (List UInt8 × Unit) :=
  (addS src x.2 s x.1 template []).map fun bytes => (bytes, u)

/-- A round at a match that is taken. -/
theorem gsubStringRound_take {template : List UInt8} {g : GsubState} {x : ℕ × MatchState}
    (hno : ReportsNoError src pat) (hpos : g.pos ≤ src.length)
    (hx : matchesAt src pat g.pos = some x) (hnew : some x.1 ≠ g.lastmatch) (st : MatchState) :
    ∃ st', gsubStringRound src pat template st g =
      (addS src x.2 g.pos x.1 template []).map fun bytes =>
        (some { out := g.out ++ bytes, pos := x.1, lastmatch := some x.1, count := g.count + 1 },
          st') := by
  obtain ⟨st', hmatch, hsame⟩ := matchAt_eq hno hpos st
  rw [hx] at hmatch
  refine ⟨st', ?_⟩
  rw [gsubStringRound, hmatch]
  show (if some x.1 ≠ g.lastmatch then _ else _) = _
  rw [if_pos hnew, addS_same (hsame x hx), addS_append]
  cases addS src x.2 g.pos x.1 template [] with
  | error e => rfl
  | ok bytes => rfl

/-- A round at another place. -/
theorem gsubStringRound_skip {template : List UInt8} {g : GsubState}
    (hno : ReportsNoError src pat) (hpos : g.pos ≤ src.length)
    (hskip : ∀ x, matchesAt src pat g.pos = some x → some x.1 = g.lastmatch) (st : MatchState) :
    ∃ st', gsubStringRound src pat template st g =
      (copyByte src g).map fun next => (next, st') := by
  obtain ⟨st', hmatch, -⟩ := matchAt_eq hno hpos st
  refine ⟨st', ?_⟩
  rw [gsubStringRound, hmatch]
  cases hx : matchesAt src pat g.pos with
  | none =>
      show (copyByte src g >>= _) = _
      cases (copyByte src g : Except (StringError Empty) _) with
      | error e => rfl
      | ok next => rfl
  | some x =>
      show (if some x.1 ≠ g.lastmatch then _ else _) = _
      rw [if_neg (not_not.mpr (hskip x hx))]
      cases (copyByte src g : Except (StringError Empty) _) with
      | error e => rfl
      | ok next => rfl

/-- What a loop of `gsub` makes of the replacements that are left. -/
def spliced (src out : List UInt8) (pos count : ℕ) (rs : List (ℕ × ℕ × List UInt8)) :
    List UInt8 × ℕ := (out ++ splice src pos rs, count + rs.length)

/-- A byte in front of the replacements can be copied first. -/
theorem spliced_copy {out : List UInt8} {pos count : ℕ} {b : UInt8} (hb : src[pos]? = some b)
    {rs : List (ℕ × ℕ × List UInt8)} (h : ∀ x ∈ rs.head?, pos + 1 ≤ x.1) :
    spliced src (out ++ [b]) (pos + 1) count rs = spliced src out pos count rs := by
  rw [spliced, spliced, splice_succ hb h, List.append_assoc]
  rfl

theorem spliced_take {out bytes : List UInt8} {pos e count : ℕ} {rs : List (ℕ × ℕ × List UInt8)} :
    spliced src (out ++ bytes) e (count + 1) rs =
      spliced src out pos count ((pos, e, bytes) :: rs) := by
  rw [spliced, spliced, splice_here, List.append_assoc, List.length_cons, Nat.add_right_comm]
  rfl

/-- The replacements of visits are not in front of the place. -/
theorem head_of_replaceEach {α E : Type} {stop : α → ℕ} {ρ : ℕ → α → σ → Except E (List UInt8 × σ)}
    {find : ℕ → Option α} {n pos k : ℕ} {last : Option ℕ} {xs : List (ℕ × α)} {w w' : σ}
    {rs : List (ℕ × ℕ × List UInt8)} (h : Visits find stop n pos last xs)
    (hrs : replaceEach stop ρ (xs.take k) w = Except.ok (rs, w')) :
    ∀ x ∈ rs.head?, pos ≤ x.1 := by
  intro x hx
  have hspans := congrArg List.head? (replaceEach_spans hrs)
  rw [List.head?_map, List.head?_map, hx] at hspans
  obtain ⟨y, hy, heq⟩ := Option.map_eq_some_iff.mp hspans.symm
  have hfirst : y ∈ xs.head? := by
    rw [List.head?_take] at hy
    split at hy
    case isTrue => exact nomatch hy
    case isFalse => exact hy
  have hstart : y.1 = x.1 := congrArg Prod.fst heq
  rw [← hstart]
  exact (h.head y hfirst).1

theorem gsubStringLoop_visits {template : List UInt8} {maxN : ℤ} {pos fuel : ℕ} {last : Option ℕ}
    {xs : List (ℕ × ℕ × MatchState)} (hno : ReportsNoError src pat)
    (h : Visits (matchesAt src pat) Prod.fst src.length pos last xs) (hpos : pos ≤ src.length)
    (hfuel : rounds src.length pos last < fuel) :
    ∀ st out count, gsubStringLoop src pat template false maxN fuel st
        { out := out, pos := pos, lastmatch := last, count := count } =
      (replaceEach Prod.fst (templateAt src template) (xs.take (maxN - count).toNat) ()).map
        fun r => spliced src out pos count r.1 := by
  induction h generalizing fuel with
  | past hlt => exact absurd hlt (Nat.not_lt.mpr hpos)
  | @skip pos last xs hle hskip rest ih =>
      intro st out count
      obtain ⟨fuel, rfl⟩ := Nat.exists_eq_succ_of_ne_zero (Nat.ne_of_gt (Nat.zero_lt_of_lt hfuel))
      rw [gsubStringLoop]
      by_cases hcount : (count : ℤ) < maxN
      · rw [if_pos hcount]
        obtain ⟨st', hround⟩ := @gsubStringRound_skip src pat template
          { out := out, pos := pos, lastmatch := last, count := count } hno hle hskip st
        rw [hround]
        by_cases hend : src.length ≤ pos
        · rw [copyByte_end hend, rest.nil_of_past (Nat.lt_succ_of_le hend), List.take_nil]
          exact finish_eq hle
        · have hlt := Nat.lt_of_not_le hend
          have hb : src[pos]? = some src[pos] := List.getElem?_eq_getElem hlt
          rw [copyByte_lt hb]
          have hgo := @ih fuel hlt (Nat.lt_of_lt_of_le (rounds_skip hle) (Nat.le_of_lt_succ hfuel))
            st' (out ++ [src[pos]]) count
          refine hgo.trans ?_
          cases hrs : replaceEach Prod.fst (templateAt src template)
              (xs.take (maxN - count).toNat) () with
          | error e => rfl
          | ok r => exact congrArg Except.ok (spliced_copy hb (head_of_replaceEach rest hrs))
      · have hk : (maxN - count).toNat = 0 := by omega
        rw [if_neg hcount, hk, List.take_zero]
        exact finish_eq hle
  | @take pos last x xs hle hx hnew rest ih =>
      intro st out count
      obtain ⟨fuel, rfl⟩ := Nat.exists_eq_succ_of_ne_zero (Nat.ne_of_gt (Nat.zero_lt_of_lt hfuel))
      rw [gsubStringLoop]
      by_cases hcount : (count : ℤ) < maxN
      · have hk : (maxN - count).toNat = (maxN - (count + 1 : ℕ)).toNat + 1 := by omega
        obtain ⟨st', hround⟩ := @gsubStringRound_take src pat template
          { out := out, pos := pos, lastmatch := last, count := count } x hno hle hx hnew st
        have hstop := matchesAt_bounded src pat pos hle x hx
        rw [if_pos hcount, hround, hk, List.take_succ_cons, replaceEach, templateAt]
        cases addS src x.2 pos x.1 template [] with
        | error e => rfl
        | ok bytes =>
            have hgo := @ih fuel hstop.2
              (Nat.lt_of_lt_of_le (rounds_take hle hstop.1 hnew) (Nat.le_of_lt_succ hfuel))
              st' (out ++ bytes) (count + 1)
            refine hgo.trans ?_
            show _ = Except.map _ (Except.map _ (replaceEach Prod.fst (templateAt src template)
              (xs.take (maxN - (count + 1 : ℕ)).toNat) ()))
            cases replaceEach Prod.fst (templateAt src template)
                (xs.take (maxN - (count + 1 : ℕ)).toNat) () with
            | error e => rfl
            | ok r => exact congrArg Except.ok spliced_take
      · have hk : (maxN - count).toNat = 0 := by omega
        rw [if_neg hcount, hk, List.take_zero]
        exact finish_eq hle

/-! ### `gsub` with calls -/

/-- The arguments of the call for a match. -/
def callArgs (src : List UInt8) (isFunc : Bool) (s : ℕ) (x : ℕ × MatchState) :
    Except Stop (List OwnedCap × List UInt8) := do
  let n := if isFunc then numCaptures x.2 true else 1
  let caps ← (List.range n).mapM fun i => getOnecapture x.2 i s x.1 >>= ownCap src
  let whole ← slice src s x.1
  pure (caps, whole)

/-- The bytes that a call puts in the place of a match. -/
def ReplResult.bytesFor (whole : List UInt8) : ReplResult → List UInt8
  | ReplResult.keep => whole
  | ReplResult.bytes b => b

/-- The call for a match. -/
def callAt (src : List UInt8) (repl : Repl σ ε) (s : ℕ) (x : ℕ × MatchState) (w : σ) :
    Except (StringError ε) (List UInt8 × σ) :=
  (fromPattern (callArgs src repl.isFunc s x)).bind fun args =>
    (repl.apply args.1 w).map fun res => (res.1.bytesFor args.2, res.2)

theorem gsubMatch_take {isFunc : Bool} {g : GsubState} {x : ℕ × MatchState}
    (hno : ReportsNoError src pat) (hpos : g.pos ≤ src.length)
    (hx : matchesAt src pat g.pos = some x) (hnew : some x.1 ≠ g.lastmatch) :
    gsubMatch src pat isFunc g = (callArgs src isFunc g.pos x).map fun args =>
      GsubStep.replace args.2 args.1 x.1 := by
  obtain ⟨st', hmatch, hsame⟩ := matchAt_eq hno hpos MatchState.new
  rw [hx] at hmatch
  rw [gsubMatch, hmatch]
  show (if some x.1 ≠ g.lastmatch then _ else _) = _
  rw [if_pos hnew, numCaptures_same (hsame x hx), callArgs]
  simp only [getOnecapture_same (hsame x hx)]
  cases (List.range (if isFunc then numCaptures x.2 true else 1)).mapM fun i =>
      getOnecapture x.2 i g.pos x.1 >>= ownCap src with
  | error e => rfl
  | ok caps =>
      show (slice src g.pos x.1 >>= _) = Except.map _ (slice src g.pos x.1 >>= _)
      cases slice src g.pos x.1 with
      | error e => rfl
      | ok whole => rfl

theorem gsubMatch_skip {isFunc : Bool} {g : GsubState} (hno : ReportsNoError src pat)
    (hpos : g.pos ≤ src.length)
    (hskip : ∀ x, matchesAt src pat g.pos = some x → some x.1 = g.lastmatch) :
    gsubMatch src pat isFunc g =
      Except.ok (if g.pos < src.length then GsubStep.skipChar else GsubStep.finished) := by
  obtain ⟨st', hmatch, -⟩ := matchAt_eq hno hpos MatchState.new
  rw [gsubMatch, hmatch]
  cases hx : matchesAt src pat g.pos with
  | none => rfl
  | some x =>
      show (if some x.1 ≠ g.lastmatch then _ else _) = _
      rw [if_neg (not_not.mpr (hskip x hx))]
      rfl

/-- What a loop does behind a round. -/
def gsubRunNext (src body : List UInt8) (repl : Repl σ ε) (anchor : Bool) (maxN : ℤ) (fuel : ℕ)
    (g : GsubState) (w : σ) : Except (StringError ε) ((List UInt8 × ℕ) × σ) :=
  if anchor then (finish src g).map fun r => (r, w)
  else gsubRunLoop src body repl anchor maxN fuel g w

section Round

variable {repl : Repl σ ε} {anchor : Bool} {maxN : ℤ} {fuel : ℕ} {g : GsubState} {w : σ}

theorem gsubRunLoop_enough (h : ¬ (g.count : ℤ) < maxN) :
    gsubRunLoop src pat repl anchor maxN (fuel + 1) g w = (finish src g).map fun r => (r, w) := by
  rw [gsubRunLoop, if_neg h]

theorem gsubRunLoop_finished (h : (g.count : ℤ) < maxN)
    (hstep : gsubMatch src pat repl.isFunc g = Except.ok GsubStep.finished) :
    gsubRunLoop src pat repl anchor maxN (fuel + 1) g w = (finish src g).map fun r => (r, w) := by
  rw [gsubRunLoop, if_pos h, hstep]
  rfl

theorem gsubRunLoop_skip {b : UInt8} (h : (g.count : ℤ) < maxN)
    (hstep : gsubMatch src pat repl.isFunc g = Except.ok GsubStep.skipChar)
    (hb : index src g.pos = Except.ok b) :
    gsubRunLoop src pat repl anchor maxN (fuel + 1) g w =
      gsubRunNext src pat repl anchor maxN fuel
        { g with out := g.out ++ [b], pos := g.pos + 1 } w := by
  rw [gsubRunLoop, if_pos h, hstep]
  show (fromPattern (index src g.pos) >>= _) = _
  rw [hb]
  rfl

theorem gsubRunLoop_replace {args : Except Stop (List OwnedCap × List UInt8)} {e : ℕ}
    (h : (g.count : ℤ) < maxN)
    (hstep : gsubMatch src pat repl.isFunc g = args.map fun args =>
      GsubStep.replace args.2 args.1 e) :
    gsubRunLoop src pat repl anchor maxN (fuel + 1) g w =
      (fromPattern args).bind fun args => (repl.apply args.1 w).bind fun res =>
        gsubRunNext src pat repl anchor maxN fuel
          { out := g.out ++ res.1.bytesFor args.2, pos := e, lastmatch := some e,
            count := g.count + 1 } res.2 := by
  rw [gsubRunLoop, if_pos h, hstep]
  cases args with
  | error err => rfl
  | ok args =>
      show (repl.apply args.1 w >>= _) = Except.bind (repl.apply args.1 w) _
      cases repl.apply args.1 w with
      | error err => rfl
      | ok res =>
          obtain ⟨res, w'⟩ := res
          cases res <;> rfl

end Round

theorem gsubRunLoop_visits {repl : Repl σ ε} {maxN : ℤ} {pos fuel : ℕ} {last : Option ℕ}
    {xs : List (ℕ × ℕ × MatchState)} (hno : ReportsNoError src pat)
    (h : Visits (matchesAt src pat) Prod.fst src.length pos last xs) (hpos : pos ≤ src.length)
    (hfuel : rounds src.length pos last < fuel) :
    ∀ out count w, gsubRunLoop src pat repl false maxN fuel
        { out := out, pos := pos, lastmatch := last, count := count } w =
      (replaceEach Prod.fst (callAt src repl) (xs.take (maxN - count).toNat) w).map
        fun r => (spliced src out pos count r.1, r.2) := by
  induction h generalizing fuel with
  | past hlt => exact absurd hlt (Nat.not_lt.mpr hpos)
  | @skip pos last xs hle hskip rest ih =>
      intro out count w
      obtain ⟨fuel, rfl⟩ := Nat.exists_eq_succ_of_ne_zero (Nat.ne_of_gt (Nat.zero_lt_of_lt hfuel))
      have hstep := @gsubMatch_skip src pat repl.isFunc
        { out := out, pos := pos, lastmatch := last, count := count } hno hle hskip
      by_cases hcount : (count : ℤ) < maxN
      · by_cases hend : src.length ≤ pos
        · rw [if_neg (Nat.not_lt.mpr hend)] at hstep
          rw [gsubRunLoop_finished hcount hstep, rest.nil_of_past (Nat.lt_succ_of_le hend),
            List.take_nil, finish_eq hle]
          rfl
        · have hlt := Nat.lt_of_not_le hend
          have hb : src[pos]? = some src[pos] := List.getElem?_eq_getElem hlt
          have hindex : index src pos = Except.ok src[pos] := by rw [index, hb]
          rw [if_pos hlt] at hstep
          rw [gsubRunLoop_skip hcount hstep hindex]
          have hgo := @ih fuel hlt (Nat.lt_of_lt_of_le (rounds_skip hle) (Nat.le_of_lt_succ hfuel))
            (out ++ [src[pos]]) count w
          refine hgo.trans ?_
          cases hrs : replaceEach Prod.fst (callAt src repl)
              (xs.take (maxN - count).toNat) w with
          | error e => rfl
          | ok r =>
              refine congrArg Except.ok (Prod.ext ?_ rfl)
              exact spliced_copy hb (head_of_replaceEach rest hrs)
      · have hk : (maxN - count).toNat = 0 := by omega
        rw [gsubRunLoop_enough hcount, hk, List.take_zero, finish_eq hle]
        rfl
  | @take pos last x xs hle hx hnew rest ih =>
      intro out count w
      obtain ⟨fuel, rfl⟩ := Nat.exists_eq_succ_of_ne_zero (Nat.ne_of_gt (Nat.zero_lt_of_lt hfuel))
      by_cases hcount : (count : ℤ) < maxN
      · have hk : (maxN - count).toNat = (maxN - (count + 1 : ℕ)).toNat + 1 := by omega
        have hstop := matchesAt_bounded src pat pos hle x hx
        have hstep := @gsubMatch_take src pat repl.isFunc
          { out := out, pos := pos, lastmatch := last, count := count } x hno hle hx hnew
        rw [gsubRunLoop_replace hcount hstep, hk, List.take_succ_cons, replaceEach, callAt]
        cases (fromPattern (callArgs src repl.isFunc pos x) : Except (StringError ε) _) with
        | error e => rfl
        | ok args =>
            show Except.bind (repl.apply args.1 w) _ =
              Except.map _ (Except.bind (Except.map _ (repl.apply args.1 w)) _)
            cases repl.apply args.1 w with
            | error e => rfl
            | ok res =>
                have hgo := @ih fuel hstop.2
                  (Nat.lt_of_lt_of_le (rounds_take hle hstop.1 hnew) (Nat.le_of_lt_succ hfuel))
                  (out ++ res.1.bytesFor args.2) (count + 1) res.2
                refine hgo.trans ?_
                show _ = Except.map _ (Except.map _ (replaceEach Prod.fst (callAt src repl)
                  (xs.take (maxN - (count + 1 : ℕ)).toNat) res.2))
                cases replaceEach Prod.fst (callAt src repl)
                    (xs.take (maxN - (count + 1 : ℕ)).toNat) res.2 with
                | error e => rfl
                | ok r => exact congrArg Except.ok (Prod.ext spliced_take rfl)
      · have hk : (maxN - count).toNat = 0 := by omega
        rw [gsubRunLoop_enough hcount, hk, List.take_zero, finish_eq hle]
        rfl

/-! ### Anchored patterns -/

/-- The one match of an anchored pattern. -/
def anchoredVisits (src body : List UInt8) : List (ℕ × ℕ × MatchState) :=
  (matchesAt src body 0).toList.map fun x => (0, x)

theorem anchoredVisits_take {k : ℕ} (h : 0 < k) :
    (anchoredVisits src pat).take k = anchoredVisits src pat := by
  refine List.take_of_length_le ?_
  rw [anchoredVisits, List.length_map]
  cases matchesAt src pat 0 with
  | none => exact Nat.zero_le _
  | some x => exact h

theorem findLoop_anchored {s fuel : ℕ} (hno : ReportsNoError src pat) (hs : s ≤ src.length)
    (st : MatchState) :
    FindsFirst ((matchesAt src pat s).toList.map fun x => (s, x))
      (findLoop src pat true (fuel + 1) st s) := by
  obtain ⟨st', hmatch, hsame⟩ := matchAt_eq hno hs st
  rw [findLoop, hmatch]
  cases hx : matchesAt src pat s with
  | none => exact rfl
  | some x => exact ⟨x.2, [], rfl, hsame x hx⟩

/-- A byte that is copied is not missed. -/
theorem copied_eq {b : UInt8} (hb : src[0]? = some b) : [b] ++ src.drop 1 = src.drop 0 := by
  obtain ⟨hlt, rfl⟩ := List.getElem?_eq_some_iff.mp hb
  exact (List.drop_eq_getElem_cons hlt).symm

theorem gsubStringLoop_anchored {template : List UInt8} {maxN : ℤ} {fuel : ℕ}
    (hno : ReportsNoError src pat) (st : MatchState) :
    gsubStringLoop src pat template true maxN (fuel + 1) st
        { out := [], pos := 0, lastmatch := none, count := 0 } =
      (replaceEach Prod.fst (templateAt src template)
        ((anchoredVisits src pat).take maxN.toNat) ()).map fun r => spliced src [] 0 0 r.1 := by
  have hle : 0 ≤ src.length := Nat.zero_le _
  rw [gsubStringLoop]
  by_cases hcount : ((0 : ℕ) : ℤ) < maxN
  · rw [if_pos hcount, anchoredVisits_take (by omega), anchoredVisits]
    cases hx : matchesAt src pat 0 with
    | some x =>
        obtain ⟨st', hround⟩ := @gsubStringRound_take src pat template
          { out := [], pos := 0, lastmatch := none, count := 0 } x hno hle hx (by simp) st
        rw [hround]
        show _ = Except.map _ (Except.bind (Except.map _ (addS src x.2 0 x.1 template [])) _)
        cases addS src x.2 0 x.1 template [] with
        | error e => rfl
        | ok bytes => exact finish_eq (matchesAt_bounded src pat 0 hle x hx).2
    | none =>
        obtain ⟨st', hround⟩ := @gsubStringRound_skip src pat template
          { out := [], pos := 0, lastmatch := none, count := 0 } hno hle
          (fun x h => nomatch hx.symm.trans h) st
        rw [hround]
        cases hb : src[0]? with
        | none =>
            rw [copyByte_end (List.getElem?_eq_none_iff.mp hb)]
            exact finish_eq hle
        | some b =>
            rw [copyByte_lt hb]
            have hlt := (List.getElem?_eq_some_iff.mp hb).1
            refine (@finish_eq src Empty ⟨[b], 1, none, 0⟩ hlt).trans ?_
            exact congrArg (fun bytes => Except.ok (bytes, 0)) (copied_eq hb)
  · have hk : maxN.toNat = 0 := by omega
    rw [if_neg hcount, hk, List.take_zero]
    exact finish_eq hle

theorem gsubRunLoop_anchored {repl : Repl σ ε} {maxN : ℤ} {fuel : ℕ}
    (hno : ReportsNoError src pat) (w : σ) :
    gsubRunLoop src pat repl true maxN (fuel + 1)
        { out := [], pos := 0, lastmatch := none, count := 0 } w =
      (replaceEach Prod.fst (callAt src repl)
        ((anchoredVisits src pat).take maxN.toNat) w).map
          fun r => (spliced src [] 0 0 r.1, r.2) := by
  have hle : 0 ≤ src.length := Nat.zero_le _
  by_cases hcount : ((0 : ℕ) : ℤ) < maxN
  · rw [anchoredVisits_take (by omega), anchoredVisits]
    cases hx : matchesAt src pat 0 with
    | some x =>
        have hstep := @gsubMatch_take src pat repl.isFunc
          { out := [], pos := 0, lastmatch := none, count := 0 } x hno hle hx (by simp)
        rw [gsubRunLoop_replace hcount hstep]
        show _ = Except.map _ (Except.bind (Except.bind
          (fromPattern (callArgs src repl.isFunc 0 x)) _) _)
        cases (fromPattern (callArgs src repl.isFunc 0 x) : Except (StringError ε) _) with
        | error e => rfl
        | ok args =>
            show Except.bind (repl.apply args.1 w) _ =
              Except.map _ (Except.bind (Except.map _ (repl.apply args.1 w)) _)
            cases repl.apply args.1 w with
            | error e => rfl
            | ok res =>
                show Except.map _ (finish src _) = _
                rw [finish_eq (matchesAt_bounded src pat 0 hle x hx).2]
                rfl
    | none =>
        have hstep := @gsubMatch_skip src pat repl.isFunc
          { out := [], pos := 0, lastmatch := none, count := 0 } hno hle
          (fun x h => nomatch hx.symm.trans h)
        cases hb : src[0]? with
        | none =>
            have hend := List.getElem?_eq_none_iff.mp hb
            rw [if_neg (Nat.not_lt.mpr hend)] at hstep
            rw [gsubRunLoop_finished hcount hstep, finish_eq hle]
            rfl
        | some b =>
            have hlt := (List.getElem?_eq_some_iff.mp hb).1
            have hindex : index src 0 = Except.ok b := by rw [index, hb]
            rw [if_pos hlt] at hstep
            have hfinish := @finish_eq src ε ⟨[b], 1, none, 0⟩ hlt
            rw [gsubRunLoop_skip hcount hstep hindex, gsubRunNext, if_pos rfl]
            refine (congrArg (Except.map fun r => (r, w)) hfinish).trans ?_
            exact congrArg (fun bytes => Except.ok ((bytes, 0), w)) (copied_eq hb)
  · have hk : maxN.toNat = 0 := by omega
    rw [gsubRunLoop_enough hcount, hk, List.take_zero, finish_eq hle]
    rfl

end Tcvm.Pattern
