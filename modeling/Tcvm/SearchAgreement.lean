/-
The functions that search a string agree.

The matches of a pattern in a subject are the visits of a scan, or the one at the start of the
subject if the pattern is anchored.  An iterator gives all of them, `find` and `match` the first,
and `gsub` replaces as many as it may, by a template or by calls.

* `Visited` — the matches that are visited;
* `ReplacesSpans` — a text with the spans of some matches replaced;
* `SearchersAgree` — what the functions do with them;
* `searchers_agree` — **all of them agree**.
-/

import Tcvm.PlainSearch

namespace Tcvm.Pattern

open Logged Scanning

variable {src pat : List UInt8} {σ ε : Type} {xs : List (ℕ × ℕ × MatchState)}

/-! ### What the functions give for visits -/

/-- The matches that are visited. -/
def Visited (src pat : List UInt8) (xs : List (ℕ × ℕ × MatchState)) : Prop :=
  if anchored pat then xs = anchoredVisits src (body pat)
  else Visits (matchesAt src (body pat)) Prod.fst src.length 0 none xs

/-- What `find` gives for the first of them. -/
def firstFound (xs : List (ℕ × ℕ × MatchState)) : Except Stop (Option Found) :=
  match xs.head? with
  | some x => (captures x.2.2 (numCaptures x.2.2 false) x.1 x.2.1).map fun caps =>
      some ⟨x.1 + 1, x.2.1, caps⟩
  | none => Except.ok none

/-- What `match` gives for the first of them. -/
def firstMatched (xs : List (ℕ × ℕ × MatchState)) : Except Stop (Option (List CapValue)) :=
  match xs.head? with
  | some x => (captures x.2.2 (numCaptures x.2.2 true) x.1 x.2.1).map some
  | none => Except.ok none

/-- `find` with the matcher, also where it would look for the bytes of the pattern. -/
def findWithMatcher (src pat : List UInt8) (initRaw : ℤ) : Except Stop (Option Found) :=
  match initPos initRaw src.length with
  | none => pure none
  | some init => do
      match ← findLoop src (body pat) (anchored pat) (src.length + 1) MatchState.new init with
      | some (s, e, st) => do
          let caps ← captures st (numCaptures st false) s e
          pure (some ⟨s + 1, e, caps⟩)
      | none => pure none

/-- A text that is the subject with the spans of matches replaced, and the number of them. -/
def ReplacesSpans (src : List UInt8) (xs : List (ℕ × ℕ × MatchState))
    (text : List UInt8) (count : ℕ) : Prop :=
  count = xs.length ∧ ∃ rs : List (ℕ × ℕ × List UInt8),
    rs.map (fun r => (r.1, r.2.1)) = xs.map (fun x => (x.1, x.2.1)) ∧ text = splice src 0 rs

/-- All functions go by these matches. -/
structure SearchersAgree (src pat : List UInt8) (xs : List (ℕ × ℕ × MatchState)) : Prop where
  /-- They are matches of the matcher, in the subject. -/
  found : ∀ x ∈ xs, matchesAt src (body pat) x.1 = some x.2 ∧ x.1 ≤ x.2.1 ∧ x.2.1 ≤ src.length
  /-- They do not overlap, and an empty one is not where the one before ends. -/
  order : xs.IsChain fun x y => x.2.1 ≤ y.1 ∧ x.2.1 ≠ y.2.1
  few : xs.length ≤ src.length + 1
  gmatch : anchored pat = false → gmatchAll src pat 1 = xs.mapM yielded
  find : luaFind src pat 1 false = firstFound xs
  matched : luaMatch src pat 1 = firstMatched xs
  template : ∀ template maxN, gsubString src pat template maxN =
    (replaceEach Prod.fst (templateAt src template) (xs.take maxN.toNat) ()).map
      fun r => spliced src [] 0 0 r.1
  calls : ∀ {σ ε : Type} (repl : Repl σ ε) (maxN : ℤ) (w : σ), gsubRun src pat repl maxN w =
    (replaceEach Prod.fst (callAt src repl) (xs.take maxN.toNat) w).map
      fun r => (spliced src [] 0 0 r.1, r.2)
  /-- A template takes the place of the first matches. -/
  templateSpans : ∀ template maxN r, gsubString src pat template maxN = Except.ok r →
    ReplacesSpans src (xs.take maxN.toNat) r.1 r.2
  /-- So do the results of calls. -/
  callSpans : ∀ {σ ε : Type} (repl : Repl σ ε) (maxN : ℤ) (w : σ) r,
    gsubRun src pat repl maxN w = Except.ok r →
      ReplacesSpans src (xs.take maxN.toNat) r.1.1 r.1.2
  plain : nospecials pat = true → ∀ initRaw plain,
    luaFind src pat initRaw plain = findWithMatcher src pat initRaw

/-! ### The functions -/

theorem body_of_not_anchored (h : anchored pat = false) : body pat = pat := by
  rw [body, h]
  rfl

theorem not_anchored_of_nospecials (h : nospecials pat = true) : anchored pat = false := by
  rw [anchored, decide_eq_false_iff_not]
  intro hhead
  exact nospecials_iff.mp h _ (List.mem_of_mem_head? hhead) (by decide)

theorem initPos_one (n : ℕ) : initPos 1 n = some 0 := by
  rw [initPos]
  exact if_pos (Nat.zero_le n)

/-- The place that `find` starts from is in the subject. -/
theorem initPos_le {pos : ℤ} {n init : ℕ} (h : initPos pos n = some init) : init ≤ n := by
  rw [initPos] at h
  generalize hk : (if 0 < pos then pos.toNat else if pos = 0 ∨ pos < -n then 1
    else (n + pos + 1).toNat) - 1 = k at h
  by_cases hle : k ≤ n
  · rw [if_pos hle] at h
    exact Option.some.inj h ▸ hle
  · rw [if_neg hle] at h
    exact nomatch h

/-- A search that finds the first visit, for any reader of the match. -/
theorem FindsFirst.run {α : Type} {found : Except Stop (Option (ℕ × ℕ × MatchState))}
    (h : FindsFirst xs found) (hasWhole : Bool) (f : ℕ → ℕ → List CapValue → α) :
    (found >>= fun
      | some (s, e, st) => do
          let caps ← captures st (numCaptures st hasWhole) s e
          pure (some (f s e caps))
      | none => pure none) =
      match xs.head? with
      | some x => (captures x.2.2 (numCaptures x.2.2 hasWhole) x.1 x.2.1).map fun caps =>
          some (f x.1 x.2.1 caps)
      | none => Except.ok none := by
  cases found with
  | error e => exact h.elim
  | ok found =>
      cases found with
      | none =>
          obtain rfl : xs = [] := h
          rfl
      | some x =>
          obtain ⟨s, e, st'⟩ := x
          obtain ⟨st, rest, rfl, hsame⟩ := h
          show (captures st' (numCaptures st' hasWhole) s e >>= _) = _
          rw [captures_same hsame, numCaptures_same hsame]
          rfl

/-- The search from the start comes to the first visit. -/
theorem Visited.findsFirst (hno : ReportsNoError src (body pat)) (h : Visited src pat xs) :
    FindsFirst xs
      (findLoop src (body pat) (anchored pat) (src.length + 1) MatchState.new 0) := by
  rw [Visited] at h
  cases ha : anchored pat with
  | true =>
      rw [ha, if_pos rfl] at h
      rw [h]
      exact findLoop_anchored hno (Nat.zero_le _) _
  | false =>
      rw [ha, if_neg Bool.false_ne_true] at h
      exact findLoop_visits hno h rfl (Nat.zero_le _) (Nat.lt_succ_of_le (Nat.sub_le _ _)) _

theorem Visited.findWithMatcher (hno : ReportsNoError src (body pat)) (h : Visited src pat xs) :
    findWithMatcher src pat 1 = firstFound xs := by
  rw [Pattern.findWithMatcher, initPos_one]
  exact (h.findsFirst hno).run false fun s e caps => Found.mk (s + 1) e caps

theorem Visited.luaMatch (hno : ReportsNoError src (body pat)) (h : Visited src pat xs) :
    luaMatch src pat 1 = firstMatched xs := by
  rw [Pattern.luaMatch, initPos_one]
  exact (h.findsFirst hno).run true fun _ _ caps => caps

/-- Without magic characters `find` needs no matcher. -/
theorem luaFind_plain (hplain : nospecials pat = true) (hno : ReportsNoError src (body pat))
    (initRaw : ℤ) (plain : Bool) :
    luaFind src pat initRaw plain = findWithMatcher src pat initRaw := by
  have ha := not_anchored_of_nospecials hplain
  have hbody := body_of_not_anchored ha
  rw [luaFind, findWithMatcher]
  cases hinit : initPos initRaw src.length with
  | none => rfl
  | some init =>
      rw [hbody] at hno ⊢
      have hle := initPos_le hinit
      obtain ⟨r, hfind, hbytes, hshape⟩ := plainFind_eq (nospecials_iff.mp hplain) hno hle
        (Nat.lt_succ_of_le (Nat.sub_le src.length init)) MatchState.new
      dsimp only
      rw [if_pos (by rw [hplain, Bool.or_true]), ha, hfind, hbytes]
      cases r with
      | none => rfl
      | some x =>
          obtain ⟨s, e, st⟩ := x
          obtain ⟨hfrom, hend, hlevel⟩ := hshape _ rfl
          have hstop : e = s + pat.length := hend
          have hlevel : st.level = 0 := hlevel
          have hnone : numCaptures st false = 0 := by
            rw [numCaptures, Bool.and_false, if_neg Bool.false_ne_true]
            exact hlevel
          have hback : init + (s - init) = s := Nat.add_sub_cancel' hfrom
          show Except.ok
              (some (Found.mk (init + (s - init) + 1) (init + (s - init) + pat.length) [])) =
            captures st (numCaptures st false) s e >>= _
          rw [hback, hnone, hstop]
          rfl

theorem luaFind_magic (hmagic : nospecials pat = false) (initRaw : ℤ) :
    luaFind src pat initRaw false = findWithMatcher src pat initRaw := by
  rw [luaFind, findWithMatcher]
  cases initPos initRaw src.length with
  | none => rfl
  | some init =>
      dsimp only
      rewrite [if_neg (by rw [hmagic]; exact Bool.false_ne_true)]
      rfl

theorem Visited.gsubString (hno : ReportsNoError src (body pat)) (h : Visited src pat xs)
    (template : List UInt8) (maxN : ℤ) :
    gsubString src pat template maxN =
      (replaceEach Prod.fst (templateAt src template) (xs.take maxN.toNat) ()).map
        fun r => spliced src [] 0 0 r.1 := by
  rw [Visited] at h
  rw [Pattern.gsubString]
  cases ha : anchored pat with
  | true =>
      rw [ha, if_pos rfl] at h
      rw [h]
      exact gsubStringLoop_anchored hno MatchState.new
  | false =>
      rw [ha, if_neg Bool.false_ne_true] at h
      have hrounds : rounds src.length 0 none < 2 * src.length + 4 := by
        rw [rounds]
        split <;> omega
      have hloop := @gsubStringLoop_visits src (body pat) template maxN 0 _ none xs hno h
        (Nat.zero_le _) hrounds MatchState.new [] 0
      rwa [Int.natCast_zero, Int.sub_zero] at hloop

theorem Visited.gsubRun (hno : ReportsNoError src (body pat)) (h : Visited src pat xs)
    (repl : Repl σ ε) (maxN : ℤ) (w : σ) :
    gsubRun src pat repl maxN w =
      (replaceEach Prod.fst (callAt src repl) (xs.take maxN.toNat) w).map
        fun r => (spliced src [] 0 0 r.1, r.2) := by
  rw [Visited] at h
  rw [Pattern.gsubRun]
  cases ha : anchored pat with
  | true =>
      rw [ha, if_pos rfl] at h
      rw [h]
      exact gsubRunLoop_anchored hno w
  | false =>
      rw [ha, if_neg Bool.false_ne_true] at h
      have hrounds : rounds src.length 0 none < 2 * src.length + 4 := by
        rw [rounds]
        split <;> omega
      have hloop := @gsubRunLoop_visits src (body pat) σ ε repl maxN 0 _ none xs hno h
        (Nat.zero_le _) hrounds [] 0 w
      rwa [Int.natCast_zero, Int.sub_zero] at hloop

/-- What is spliced in are the spans of the matches. -/
theorem replacesSpans_of_replaceEach {E : Type}
    {ρ : ℕ → ℕ × MatchState → σ → Except E (List UInt8 × σ)} {w : σ}
    {r : List (ℕ × ℕ × List UInt8) × σ} (h : replaceEach Prod.fst ρ xs w = Except.ok r) :
    ReplacesSpans src xs (spliced src [] 0 0 r.1).1 (spliced src [] 0 0 r.1).2 := by
  have hspans := replaceEach_spans h
  refine ⟨?_, r.1, hspans, List.nil_append _⟩
  have hlength := congrArg List.length hspans
  rw [List.length_map, List.length_map] at hlength
  rw [spliced, Nat.zero_add]
  exact hlength

theorem Visited.gmatchAll (hno : ReportsNoError src (body pat)) (h : Visited src pat xs)
    (ha : anchored pat = false) (hfew : xs.length ≤ src.length + 1) :
    gmatchAll src pat 1 = xs.mapM yielded := by
  rw [Visited, ha, if_neg Bool.false_ne_true, body_of_not_anchored ha] at h
  rw [body_of_not_anchored ha] at hno
  rw [Pattern.gmatchAll, initPos_one]
  exact gmatchRun_visits hno h (Nat.lt_succ_of_le hfew)

/-! ### Agreement -/

theorem exists_visited (src pat : List UInt8) : ∃ xs, Visited src pat xs := by
  cases ha : anchored pat with
  | true =>
      refine ⟨anchoredVisits src (body pat), ?_⟩
      rw [Visited, ha, if_pos rfl]
  | false =>
      obtain ⟨xs, hxs⟩ := exists_visits (matchesAt_bounded src (body pat)) 0 none
      refine ⟨xs, ?_⟩
      rw [Visited, ha, if_neg Bool.false_ne_true]
      exact hxs

/-- What is visited, in an anchored pattern too. -/
theorem Visited.shape (h : Visited src pat xs) :
    (∀ x ∈ xs, x.1 ≤ src.length ∧ matchesAt src (body pat) x.1 = some x.2) ∧
      (xs.IsChain fun x y => x.2.1 ≤ y.1 ∧ x.2.1 ≠ y.2.1) ∧ xs.length ≤ src.length + 1 := by
  have hbound := matchesAt_bounded src (body pat)
  rw [Visited] at h
  split at h
  case isTrue =>
    rw [h, anchoredVisits]
    cases hx : matchesAt src (body pat) 0 with
    | none => exact ⟨fun x hx => (by cases hx), List.isChain_nil, Nat.zero_le _⟩
    | some x =>
        refine ⟨fun y hy => ?_, List.isChain_singleton _, Nat.succ_le_succ (Nat.zero_le _)⟩
        obtain rfl := List.mem_singleton.mp hy
        exact ⟨Nat.zero_le _, hx⟩
  case isFalse => exact ⟨fun x hx => (h.mem hbound x hx).2, h.chain, h.length_le hbound⟩

/-- **The functions that search a string agree** on a pattern without an error of the matcher. -/
theorem searchers_agree (src pat : List UInt8) (hno : ReportsNoError src (body pat)) :
    ∃ xs, Visited src pat xs ∧ SearchersAgree src pat xs := by
  obtain ⟨xs, hxs⟩ := exists_visited src pat
  obtain ⟨hmem, hchain, hfew⟩ := hxs.shape
  have hmatcher := hxs.findWithMatcher hno
  refine ⟨xs, hxs, ?_⟩
  exact {
    found := fun x hx =>
      ⟨(hmem x hx).2, matchesAt_bounded src (body pat) x.1 (hmem x hx).1 x.2 (hmem x hx).2⟩
    order := hchain
    few := hfew
    gmatch := fun ha => hxs.gmatchAll hno ha hfew
    find := by
      cases hplain : nospecials pat with
      | true => exact (luaFind_plain hplain hno 1 false).trans hmatcher
      | false => exact (luaFind_magic hplain 1).trans hmatcher
    matched := hxs.luaMatch hno
    template := hxs.gsubString hno
    calls := hxs.gsubRun hno
    templateSpans := by
      intro template maxN r hr
      rw [hxs.gsubString hno] at hr
      cases hrs : replaceEach Prod.fst (templateAt src template) (xs.take maxN.toNat) () with
      | error e =>
          rw [hrs] at hr
          exact nomatch hr
      | ok rs =>
          rw [hrs] at hr
          cases hr
          exact replacesSpans_of_replaceEach hrs
    callSpans := by
      intro σ ε repl maxN w r hr
      rw [hxs.gsubRun hno] at hr
      cases hrs : replaceEach Prod.fst (callAt src repl) (xs.take maxN.toNat) w with
      | error e =>
          rw [hrs] at hr
          exact nomatch hr
      | ok rs =>
          rw [hrs] at hr
          cases hr
          exact replacesSpans_of_replaceEach hrs
    plain := fun hplain => luaFind_plain hplain hno }

/-- A balanced run: `%b()` in `a(b)`. -/
theorem searchers_agree_balanced :
    ReportsNoError (ascii <$> ['a', '(', 'b', ')']) (body (ascii <$> ['%', 'b', '(', ')'])) ∧
      ∃ xs, Visited (ascii <$> ['a', '(', 'b', ')']) (ascii <$> ['%', 'b', '(', ')']) xs ∧
        SearchersAgree (ascii <$> ['a', '(', 'b', ')']) (ascii <$> ['%', 'b', '(', ')']) xs := by
  have hno : ReportsNoError (ascii <$> ['a', '(', 'b', ')'])
      (body (ascii <$> ['%', 'b', '(', ')'])) := by
    intro s hs
    obtain rfl | rfl | rfl | rfl | rfl : s = 0 ∨ s = 1 ∨ s = 2 ∨ s = 3 ∨ s = 4 := by
      have hs : s ≤ 4 := hs
      omega
    all_goals exact ⟨_, rfl⟩
  exact ⟨hno, searchers_agree _ _ hno⟩

end Tcvm.Pattern
