/-
The search without a matcher.

A pattern without magic characters stands for itself, so the matcher finds its bytes; `find` then
looks for them without a matcher.  Both come to the first place with these bytes.

* `matchesAt_literal` — **the matcher on such a pattern**;
* `First` — the first place where something holds;
* `plainFind_spec`, `findLoop_literal` — the two searches;
* `plainFind_eq` — **they find the same**.
-/

import Tcvm.SearchVisits

namespace Tcvm.Pattern

open Logged

variable {src pat : List UInt8} {st : MatchState}

/-! ### The matcher -/

theorem nospecials_iff : nospecials pat = true ↔ ∀ b ∈ pat, b ∉ SPECIALS := by
  rw [nospecials, Bool.not_eq_true', List.any_eq_false]
  simp only [List.contains_iff_mem]

variable {m : ℕ → ℕ → MatchM (Option ℕ)}

/-- A round at a byte that stands for itself. -/
theorem matchStep_literal {s p : ℕ} {c : UInt8} (hc : pat[p]? = some c) (hplain : c ∉ SPECIALS)
    (hclose : c ≠ ascii ')') (hsuffix : ∀ d ∈ pat[p + 1]?, d ∉ SPECIALS) :
    matchStep m src pat s p st = ([], Except.ok
      (if src[s]? = some c then Step.init (s + 1) (p + 1) else Step.done none, st)) := by
  have hne : ∀ d ∈ SPECIALS, c ≠ d := fun d hd heq => hplain (heq ▸ hd)
  have hafter : ∀ d ∈ SPECIALS, pat[p + 1]? ≠ some d := fun d hd heq => hsuffix d heq hd
  have hescape : c ≠ L_ESC := hne _ (by decide)
  have hset : c ≠ ascii '[' := hne _ (by decide)
  have hdot : c ≠ ascii '.' := hne _ (by decide)
  have hindex : index pat p = Except.ok c := by rw [index, hc]
  have hend : classend pat p = Except.ok (p + 1) := by
    rw [classend, hindex]
    show (if c = L_ESC then _ else if c = ascii '[' then _ else _) = _
    rw [if_neg hescape, if_neg hset]
    rfl
  have hsingle : singleMatch src pat s p (p + 1) = Except.ok (decide (src[s]? = some c)) := by
    rw [singleMatch]
    cases src[s]? with
    | none => rfl
    | some b =>
        show (index pat p >>= _) = _
        rw [hindex]
        show (if c = ascii '.' then _ else if c = L_ESC then _
          else if c = ascii '[' then _ else _) = _
        rw [if_neg hdot, if_neg hescape, if_neg hset]
        simp only [Option.some.injEq, eq_comm]
        rfl
  have hdefault : matchStep m src pat s p = matchDefault m src pat s p := by
    rw [matchStep, hc]
    dsimp only
    rw [if_neg (hne _ (by decide)), if_neg hclose, if_neg (fun h => hne _ (by decide) h.1),
      if_neg hescape]
  rw [hdefault, matchDefault, hend]
  show (lift (singleMatch src pat s p (p + 1)) >>= _ : MatchM Step) st = _
  rw [hsingle]
  by_cases hmatch : src[s]? = some c
  · rw [if_pos hmatch, decide_eq_true hmatch]
    show (if pat[p + 1]? = some (ascii '?') then _ else if pat[p + 1]? = some (ascii '+') then _
      else if pat[p + 1]? = some (ascii '*') then _ else if pat[p + 1]? = some (ascii '-') then _
      else _ : MatchM Step) st = _
    rw [if_neg (hafter _ (by decide)), if_neg (hafter _ (by decide)),
      if_neg (hafter _ (by decide)), if_neg (hafter _ (by decide))]
    rfl
  · rw [if_neg hmatch, decide_eq_false hmatch]
    show (if pat[p + 1]? = some (ascii '*') ∨ pat[p + 1]? = some (ascii '?') ∨
      pat[p + 1]? = some (ascii '-') then _ else _ : MatchM Step) st = _
    rw [if_neg (by
      rintro (h | h | h)
      · exact hafter _ (by decide) h
      · exact hafter _ (by decide) h
      · exact hafter _ (by decide) h)]
    rfl

/-- Nothing is open that could be closed. -/
theorem matchStep_close {s p : ℕ} (hc : pat[p]? = some (ascii ')')) (hlevel : st.level = 0) :
    (matchStep m src pat s p st).2 =
      Except.error (Stop.error PatError.invalidPatternCapture) := by
  have hnone : captureToClose st = Except.error (Stop.error PatError.invalidPatternCapture) := by
    rw [captureToClose, hlevel]
    rfl
  have hend : endCapture m s (p + 1) st =
      ([], Except.error (Stop.error PatError.invalidPatternCapture)) := by
    rw [endCapture, get_bind, hnone]
    rfl
  have hstep : matchStep m src pat s p = (endCapture m s (p + 1) >>= fun r =>
      pure (Step.done r)) := by
    rw [matchStep, hc]
    rfl
  rw [hstep, bind_error hend]

/-- The loop over bytes that stand for themselves. -/
theorem matchLoop_literal (hplain : ∀ b ∈ pat, b ∉ SPECIALS) (hlevel : st.level = 0)
    (r : List UInt8) : ∀ {s p fuel : ℕ}, pat.drop p = r → r.length < fuel →
      (∃ e, (matchLoop m src pat fuel s p st).2 = Except.error e) ∨
        (matchLoop m src pat fuel s p st).2 =
          Except.ok (if r <+: src.drop s then some (s + r.length) else none, st) := by
  induction r with
  | nil =>
      intro s p fuel hr hfuel
      obtain ⟨fuel, rfl⟩ := Nat.exists_eq_succ_of_ne_zero (Nat.ne_of_gt (Nat.zero_lt_of_lt hfuel))
      have hstep : matchStep m src pat s p st = ([], Except.ok (Step.done (some s), st)) := by
        rw [matchStep, List.getElem?_eq_none_iff.mpr (List.drop_eq_nil_iff.mp hr)]
        rfl
      refine Or.inr ?_
      rw [matchLoop, bind_run, hstep, if_pos List.nil_prefix]
      rfl
  | cons c r ih =>
      intro s p fuel hr hfuel
      obtain ⟨fuel, rfl⟩ := Nat.exists_eq_succ_of_ne_zero (Nat.ne_of_gt (Nat.zero_lt_of_lt hfuel))
      have hc := getElem?_of_drop hr
      have hnext := drop_succ_of_drop hr
      have hmem : ∀ d ∈ c :: r, d ∉ SPECIALS := fun d hd =>
        hplain d (List.mem_of_mem_drop (hr.symm ▸ hd))
      by_cases hclose : c = ascii ')'
      · refine Or.inl ⟨Stop.error PatError.invalidPatternCapture, ?_⟩
        have hstep := @matchStep_close src pat st m s p (hclose ▸ hc) hlevel
        rw [matchLoop, bind_run]
        cases hx : matchStep m src pat s p st with
        | mk w x =>
            rw [hx] at hstep
            obtain rfl : x = _ := hstep
            rfl
      · have hsuffix : ∀ d ∈ pat[p + 1]?, d ∉ SPECIALS := by
          exact fun d hd => hplain d (List.mem_of_getElem? hd)
        have hstep := @matchStep_literal src pat st m s p c hc (hmem c List.mem_cons_self) hclose
          hsuffix
        by_cases hs : src[s]? = some c
        · rw [if_pos hs] at hstep
          have hdrop : src.drop s = c :: src.drop (s + 1) := by
            obtain ⟨hlt, rfl⟩ := List.getElem?_eq_some_iff.mp hs
            exact List.drop_eq_getElem_cons hlt
          have hgo := @ih (s + 1) (p + 1) fuel hnext (Nat.lt_of_succ_lt_succ hfuel)
          rw [matchLoop, bind_run, hstep]
          rcases hgo with ⟨e, he⟩ | hok
          · exact Or.inl ⟨e, he⟩
          · refine Or.inr (hok.trans ?_)
            rw [hdrop, List.length_cons, Nat.add_assoc, Nat.add_comm 1]
            simp only [List.cons_prefix_cons, true_and]
        · rw [if_neg hs] at hstep
          refine Or.inr ?_
          rw [matchLoop, bind_run, hstep, if_neg]
          · rfl
          · rintro ⟨t, ht⟩
            refine hs ?_
            have hhead := congrArg List.head? ht
            rw [List.head?_drop] at hhead
            exact hhead.symm

/-- **The matcher on a pattern without magic characters.** -/
theorem matchesAt_literal {s : ℕ} (hplain : ∀ b ∈ pat, b ∉ SPECIALS)
    (hno : ReportsNoError src pat) (hs : s ≤ src.length) :
    (pat <+: src.drop s → ∃ st', matchesAt src pat s = some (s + pat.length, st') ∧ st'.level = 0) ∧
      (¬ pat <+: src.drop s → matchesAt src pat s = none) := by
  have hloop := @matchLoop_literal src pat (entered (started MatchState.new))
    (doMatch src pat MAX_CCALLS) hplain rfl pat s 0 (pat.length + 1) rfl (Nat.lt_succ_self _)
  have hrun : matchAt src pat s MatchState.new =
      (matchLoop (doMatch src pat MAX_CCALLS) src pat (pat.length + 1) s 0 >>= fun r =>
        modify (fun st => { st with matchdepth := st.matchdepth + 1 }) >>= fun _ => pure r)
        (entered (started MatchState.new)) := rfl
  obtain ⟨x, hx⟩ := hno s hs
  rw [hrun, bind_run] at hx
  rw [matchesAt, hrun, bind_run]
  cases hresult : matchLoop (doMatch src pat MAX_CCALLS) src pat (pat.length + 1) s 0
      (entered (started MatchState.new)) with
  | mk w y =>
      rw [hresult] at hloop hx
      rcases hloop with ⟨e, he⟩ | hok
      · obtain rfl : y = _ := he
        cases hx
      · obtain rfl : y = _ := hok
        constructor
        · intro hpre
          rw [if_pos hpre]
          exact ⟨_, rfl, rfl⟩
        · intro hpre
          rw [if_neg hpre]
          rfl

/-! ### First places -/

/-- The first place from another one on where something holds. -/
def First (P : ℕ → Prop) (i : ℕ) : Option ℕ → Prop
  | none => ∀ j, i ≤ j → ¬ P j
  | some j => i ≤ j ∧ P j ∧ ∀ k, i ≤ k → k < j → ¬ P k

theorem First.unique {P : ℕ → Prop} {i : ℕ} {r r' : Option ℕ} (h : First P i r)
    (h' : First P i r') : r = r' := by
  cases r with
  | none =>
      cases r' with
      | none => rfl
      | some k => exact absurd h'.2.1 (h k h'.1)
  | some j =>
      cases r' with
      | none => exact absurd h.2.1 (h' j h.1)
      | some k =>
          rcases Nat.lt_trichotomy j k with hlt | rfl | hlt
          · exact absurd h.2.1 (h'.2.2 j h.1 hlt)
          · rfl
          · exact absurd h'.2.1 (h.2.2 k h'.1 hlt)

/-- One place further on. -/
theorem First.step {P : ℕ → Prop} {i : ℕ} {r : Option ℕ} (hi : ¬ P i) (h : First P (i + 1) r) :
    First P i r := by
  have hother : ∀ k, i ≤ k → k ≠ i → i + 1 ≤ k := fun k hk hne =>
    Nat.lt_of_le_of_ne hk (Ne.symm hne)
  cases r with
  | none =>
      intro j hj hP
      by_cases hji : j = i
      · exact hi (hji ▸ hP)
      · exact h j (hother j hj hji) hP
  | some j =>
      refine ⟨Nat.le_of_succ_le h.1, h.2.1, fun k hk hlt hP => ?_⟩
      by_cases hki : k = i
      · exact hi (hki ▸ hP)
      · exact h.2.2 k (hother k hk hki) hlt hP

/-- The first place in the rest of a list is the first place in the list. -/
theorem First.shift {pre : List UInt8} {init : ℕ} {r off : Option ℕ}
    (h : First (fun j => pre <+: src.drop j) init r)
    (h' : First (fun j => pre <+: (src.drop init).drop j) 0 off) :
    r = off.map fun j => init + j := by
  refine h.unique ?_
  cases off with
  | none =>
      intro j hj hpre
      have hhere : ¬ pre <+: (src.drop init).drop (j - init) := h' (j - init) (Nat.zero_le _)
      rw [List.drop_drop, Nat.add_sub_cancel' hj] at hhere
      exact hhere hpre
  | some j =>
      obtain ⟨-, hpre, hbefore⟩ := h'
      rw [List.drop_drop] at hpre
      refine ⟨Nat.le_add_right init j, hpre, fun k hk hlt hpre' => ?_⟩
      have hlt : k < init + j := hlt
      have hhere : ¬ pre <+: (src.drop init).drop (k - init) :=
        hbefore (k - init) (Nat.zero_le _) (by omega)
      rw [List.drop_drop, Nat.add_sub_cancel' hk] at hhere
      exact hhere hpre'

/-! ### The searches -/

theorem slice_window {hay needle : List UInt8} {i : ℕ} (h : i + needle.length ≤ hay.length) :
    slice hay i (i + needle.length) = Except.ok ((hay.drop i).take needle.length) := by
  rw [slice, if_pos ⟨Nat.le_add_right _ _, h⟩, List.drop_take, Nat.add_sub_cancel_left]

theorem plainFindLoop_spec {hay needle : List UInt8} {first : UInt8} {rest : List UInt8}
    (hneedle : needle = first :: rest) (hlen : needle.length ≤ hay.length) :
    ∀ {fuel i : ℕ}, hay.length + 1 - i < fuel →
      ∃ r, plainFindLoop hay needle first (hay.length - needle.length) fuel i = Except.ok r ∧
        First (fun j => needle <+: hay.drop j) i r := by
  intro fuel
  induction fuel with
  | zero => exact fun h => absurd h (Nat.not_lt_zero _)
  | succ fuel ih =>
      intro i hfuel
      rw [plainFindLoop]
      by_cases hi : i ≤ hay.length - needle.length
      · have hpos : 0 < needle.length := by rw [hneedle]; exact Nat.succ_pos _
        have hlt : i < hay.length := by omega
        have hb : hay[i]? = some hay[i] := List.getElem?_eq_getElem hlt
        have hindex : index hay i = Except.ok hay[i] := by rw [index, hb]
        obtain ⟨r, hr, hfirst⟩ := @ih (i + 1) (by omega)
        have hgo : ¬ needle <+: hay.drop i →
            ∃ r, plainFindLoop hay needle first (hay.length - needle.length) fuel (i + 1) =
              Except.ok r ∧ First (fun j => needle <+: hay.drop j) i r := fun hno =>
          ⟨r, hr, hfirst.step hno⟩
        rw [if_pos hi, hindex]
        show ∃ r, (if hay[i] = first then slice hay i (i + needle.length) >>= _ else _) = _ ∧ _
        by_cases hbyte : hay[i] = first
        · rw [if_pos hbyte, slice_window (by omega)]
          show ∃ r, (if (hay.drop i).take needle.length = needle then _ else _) = _ ∧ _
          by_cases hwindow : (hay.drop i).take needle.length = needle
          · rw [if_pos hwindow]
            refine ⟨some i, rfl, Nat.le_refl i, ?_, fun k hk hlt => absurd hlt (Nat.not_lt.mpr hk)⟩
            exact List.prefix_iff_eq_take.mpr hwindow.symm
          · rw [if_neg hwindow]
            exact hgo fun hpre => hwindow (List.prefix_iff_eq_take.mp hpre).symm
        · rw [if_neg hbyte]
          refine hgo fun hpre => hbyte ?_
          obtain ⟨t, ht⟩ := hpre
          have hhead := congrArg List.head? ht
          rw [hneedle, List.head?_drop, hb] at hhead
          exact (Option.some.inj hhead).symm
      · refine ⟨none, by rw [if_neg hi]; rfl, fun j hj hpre => ?_⟩
        have hle := hpre.length_le
        rw [List.length_drop] at hle
        have hpos : 0 < needle.length := by rw [hneedle]; exact Nat.succ_pos _
        omega

theorem plainFind_spec (hay needle : List UInt8) :
    ∃ r, plainFind hay needle = Except.ok r ∧ First (fun j => needle <+: hay.drop j) 0 r := by
  rw [plainFind]
  by_cases hempty : needle = []
  · subst hempty
    exact ⟨some 0, rfl, Nat.le_refl _, List.nil_prefix, fun k _ hk => absurd hk (Nat.not_lt_zero k)⟩
  · rw [if_neg hempty]
    by_cases hlong : hay.length < needle.length
    · refine ⟨none, by rw [if_pos hlong]; rfl, fun j _ hpre => ?_⟩
      have hle := hpre.length_le
      rw [List.length_drop] at hle
      omega
    · rw [if_neg hlong]
      obtain ⟨first, rest, hneedle⟩ := List.exists_cons_of_ne_nil hempty
      have hindex : index needle 0 = Except.ok first := by
        rw [hneedle]
        rfl
      rw [hindex]
      exact plainFindLoop_spec hneedle (Nat.le_of_not_lt hlong) (by omega)

/-- The search with the matcher comes to the first place with the bytes of the pattern. -/
theorem findLoop_literal (hplain : ∀ b ∈ pat, b ∉ SPECIALS) (hno : ReportsNoError src pat) :
    ∀ {fuel s : ℕ}, s ≤ src.length → src.length - s < fuel → ∀ st,
      ∃ r, findLoop src pat false fuel st s = Except.ok r ∧
        First (fun j => pat <+: src.drop j) s (r.map fun x => x.1) ∧
        ∀ x ∈ r, x.2.1 = x.1 + pat.length ∧ x.2.2.level = 0 := by
  intro fuel
  induction fuel with
  | zero => exact fun _ h => absurd h (Nat.not_lt_zero _)
  | succ fuel ih =>
      intro s hs hfuel st
      obtain ⟨st', hmatch, hsame⟩ := matchAt_eq hno hs st
      obtain ⟨hyes, hnot⟩ := matchesAt_literal hplain hno hs
      rw [findLoop, hmatch]
      by_cases hpre : pat <+: src.drop s
      · obtain ⟨st₀, hx, hlevel⟩ := hyes hpre
        rw [hx]
        refine ⟨some (s, s + pat.length, st'), rfl, ?_, ?_⟩
        · exact ⟨Nat.le_refl s, hpre, fun k hk hlt => absurd hlt (Nat.not_lt.mpr hk)⟩
        · intro x hx'
          cases hx'
          exact ⟨rfl, (hsame _ hx).level.trans hlevel⟩
      · rw [hnot hpre]
        show ∃ r, (if (false || decide (src.length ≤ s)) = true then _ else _) = _ ∧ _
        by_cases hend : src.length ≤ s
        · rw [if_pos (by simpa using hend)]
          refine ⟨none, rfl, fun j hj hpre' => hpre ?_,
            fun x hx => absurd hx (Option.not_mem_none x)⟩
          have hpre' : pat <+: src.drop j := hpre'
          rw [List.drop_eq_nil_iff.mpr (Nat.le_trans hend hj)] at hpre'
          rwa [List.drop_eq_nil_iff.mpr hend]
        · rw [if_neg (by simpa using hend)]
          obtain ⟨r, hr, hfirst, hshape⟩ := ih (Nat.lt_of_not_le hend) (by omega) st'
          exact ⟨r, hr, hfirst.step hpre, hshape⟩

/-- **The plain search finds what the matcher would.** -/
theorem plainFind_eq {init fuel : ℕ} (hplain : ∀ b ∈ pat, b ∉ SPECIALS)
    (hno : ReportsNoError src pat) (hinit : init ≤ src.length) (hfuel : src.length - init < fuel)
    (st : MatchState) :
    ∃ r, findLoop src pat false fuel st init = Except.ok r ∧
      plainFind (src.drop init) pat = Except.ok (r.map fun x => x.1 - init) ∧
      ∀ x ∈ r, init ≤ x.1 ∧ x.2.1 = x.1 + pat.length ∧ x.2.2.level = 0 := by
  obtain ⟨r, hr, hfirst, hshape⟩ := findLoop_literal hplain hno hinit hfuel st
  obtain ⟨off, hoff, hplainFirst⟩ := plainFind_spec (src.drop init) pat
  have hback := hfirst.shift hplainFirst
  refine ⟨r, hr, ?_, fun x hx => ⟨?_, hshape x hx⟩⟩
  · rw [hoff]
    cases r with
    | none =>
        obtain rfl : off = none := Option.map_eq_none_iff.mp hback.symm
        rfl
    | some x =>
        cases off with
        | none => exact nomatch hback
        | some j =>
            have heq : x.1 = init + j := Option.some.inj hback
            rw [Option.map_some, heq, Nat.add_sub_cancel_left]
  · obtain rfl : r = some x := hx
    exact hfirst.1

end Tcvm.Pattern
