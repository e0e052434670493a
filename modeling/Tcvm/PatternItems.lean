/-
# Indices into a pattern and what is behind them

The matcher walks over a pattern by indices, and reads a set anew each time it tests a byte.  Each
of its walks is here compared with the syntax of what is behind the index: the end of an item is
where the rest of the pattern begins, and a byte matches an item when the item has it.

## Main results

* `bracketLoop_eq`, `classendLoop_eq` — the walks over a set;
* `classend_single`, `singleMatch_eq` — **an item**, its end and its bytes;
* `balanceLoop_eq` — **the scan for a balanced run**, which finds the shortest one or is too deep;
* `countLoop_eq` — how often an item can be repeated.
-/

import Tcvm.PatternMeaning

namespace Tcvm.Pattern

/-! ### What is behind an index -/

theorem getElem?_of_drop {xs r : List UInt8} {p : ℕ} {c : UInt8} (h : xs.drop p = c :: r) :
    xs[p]? = some c := by
  rw [← List.head?_drop, h]
  rfl

theorem getElem?_succ_of_drop {xs r : List UInt8} {p : ℕ} {c : UInt8} (h : xs.drop p = c :: r) :
    xs[p + 1]? = r.head? := by
  rw [← List.head?_drop, ← List.drop_drop, h]
  rfl

theorem drop_succ_of_drop {xs r : List UInt8} {p : ℕ} {c : UInt8} (h : xs.drop p = c :: r) :
    xs.drop (p + 1) = r := by
  rw [← List.drop_drop, h]
  rfl

theorem lt_of_drop {xs r : List UInt8} {p : ℕ} {c : UInt8} (h : xs.drop p = c :: r) :
    p < xs.length := by
  have hlen := congrArg List.length h
  rw [List.length_drop, List.length_cons] at hlen
  omega

theorem index_of_drop {xs r : List UInt8} {p : ℕ} {c : UInt8} (h : xs.drop p = c :: r) :
    index xs p = Except.ok c := by
  rw [index, getElem?_of_drop h]

/-! ### Sets -/

variable {c : UInt8} {pat : List UInt8} {sig : Bool}

/-- A round of the walk over a set. -/
theorem bracketLoop_round {q fuel ec : ℕ} {b : UInt8} {r : List UInt8} (hlt : q + 1 < ec)
    (h : pat.drop (q + 1) = b :: r) :
    bracketLoop c pat ec sig (fuel + 1) q =
      if b = L_ESC then
        if r.head?.any (matchClass c) then Except.ok sig
        else bracketLoop c pat ec sig fuel (q + 2)
      else if r.head? = some (ascii '-') ∧ q + 3 < ec then
        (index pat (q + 3)).bind fun hi =>
          if b ≤ c ∧ c ≤ hi then Except.ok sig else bracketLoop c pat ec sig fuel (q + 3)
      else if b = c then Except.ok sig
      else bracketLoop c pat ec sig fuel (q + 1) := by
  rw [bracketLoop, if_neg (by omega), index_of_drop h, getElem?_succ_of_drop h]
  rfl

theorem bracketLoop_end {q fuel ec : ℕ} (hle : ec ≤ q + 1) :
    bracketLoop c pat ec sig (fuel + 1) q = Except.ok !sig := by
  rw [bracketLoop, if_pos hle]
  rfl

/-- **The walk over a set** tests its items one after the other. -/
theorem bracketLoop_eq {body rest : List UInt8} {q fuel ec : ℕ}
    (h : pat.drop (q + 1) = body ++ ascii ']' :: rest) (hec : ec = q + 1 + body.length)
    (hfuel : body.length < fuel) :
    bracketLoop c pat ec sig fuel q =
      Except.ok (if (setItems body).any fun i => i.has c then sig else !sig) := by
  induction body using setItems.induct generalizing q fuel with
  | case1 =>
      obtain ⟨fuel, rfl⟩ : ∃ n, fuel = n + 1 := ⟨fuel - 1, by omega⟩
      rw [bracketLoop_end (by simp at hec; omega)]
      rfl
  | case2 =>
      obtain ⟨fuel, rfl⟩ : ∃ n, fuel = n + 2 := ⟨fuel - 2, by simp at hfuel; omega⟩
      simp only [List.length_singleton] at hec
      rw [bracketLoop_round (by omega) h, if_pos rfl, bracketLoop_end (by omega), setItems,
        if_pos rfl]
      by_cases hclass : matchClass c (ascii ']') = true <;> simp [SetItem.has, hclass]
  | case3 b hb =>
      obtain ⟨fuel, rfl⟩ : ∃ n, fuel = n + 2 := ⟨fuel - 2, by simp at hfuel; omega⟩
      simp only [List.length_singleton] at hec
      rw [bracketLoop_round (by omega) h, if_neg hb, if_neg, bracketLoop_end (by omega), setItems,
        if_neg hb]
      · by_cases hbc : b = c <;> simp [SetItem.has, hbc]
      · rintro ⟨-, hlt⟩
        omega
  | case4 d =>
      obtain ⟨fuel, rfl⟩ : ∃ n, fuel = n + 2 := ⟨fuel - 2, by simp at hfuel; omega⟩
      simp only [List.length_cons, List.length_nil] at hec
      rw [bracketLoop_round (by omega) h, if_pos rfl, bracketLoop_end (by omega), setItems,
        if_pos rfl]
      by_cases hclass : matchClass c d = true <;> simp [SetItem.has, hclass]
  | case5 b d hb ih =>
      obtain ⟨fuel, rfl⟩ : ∃ n, fuel = n + 1 := ⟨fuel - 1, by omega⟩
      simp only [List.length_cons, List.length_nil] at hec hfuel
      have hnext : bracketLoop c pat ec sig fuel (q + 1) = _ :=
        ih (drop_succ_of_drop h) (by simp; omega) (by simp; omega)
      rw [bracketLoop_round (by omega) h, if_neg hb, if_neg, setItems, if_neg hb, List.any_cons]
      · by_cases hbc : b = c
        · simp [SetItem.has, hbc]
        · rw [if_neg hbc, hnext]
          simp [SetItem.has, hbc]
      · rintro ⟨-, hlt⟩
        omega
  | case6 d e r ih =>
      obtain ⟨fuel, rfl⟩ : ∃ n, fuel = n + 1 := ⟨fuel - 1, by omega⟩
      simp only [List.length_cons] at hec hfuel
      have hnext : bracketLoop c pat ec sig fuel (q + 2) = _ :=
        ih (drop_succ_of_drop (drop_succ_of_drop h)) (by simp; omega) (by simp; omega)
      rw [bracketLoop_round (by omega) h, if_pos rfl, hnext, setItems, if_pos rfl, List.any_cons]
      by_cases hclass : matchClass c d = true <;> simp [SetItem.has, hclass]
  | case7 b e r hb ih =>
      obtain ⟨fuel, rfl⟩ : ∃ n, fuel = n + 1 := ⟨fuel - 1, by omega⟩
      simp only [List.length_cons] at hec hfuel
      have hdrop := drop_succ_of_drop (drop_succ_of_drop h)
      have hnext : bracketLoop c pat ec sig fuel (q + 3) = _ :=
        ih (drop_succ_of_drop hdrop) (by omega) (by omega)
      rw [bracketLoop_round (by omega) h, if_neg hb, if_pos ⟨rfl, by omega⟩,
        show q + 3 = q + 1 + 1 + 1 from rfl, index_of_drop hdrop]
      rw [setItems, if_neg hb, if_pos rfl, List.any_cons]
      show (if b ≤ c ∧ c ≤ e then _ else _) = _
      rw [hnext]
      by_cases hrange : b ≤ c ∧ c ≤ e <;> simp [SetItem.has, hrange]
  | case8 b d e r hb hd ih =>
      obtain ⟨fuel, rfl⟩ : ∃ n, fuel = n + 1 := ⟨fuel - 1, by omega⟩
      simp only [List.length_cons] at hec hfuel
      have hnext : bracketLoop c pat ec sig fuel (q + 1) = _ :=
        ih (drop_succ_of_drop h) (by simp; omega) (by simp; omega)
      rw [bracketLoop_round (by omega) h, if_neg hb, if_neg, setItems, if_neg hb, if_neg hd,
        List.any_cons]
      · by_cases hbc : b = c
        · simp [SetItem.has, hbc]
        · rw [if_neg hbc, hnext]
          simp [SetItem.has, hbc]
      · rintro ⟨hdash, -⟩
        exact hd (Option.some.inj hdash)

/-! ### Items -/

theorem classendLoop_escape {q fuel : ℕ} {d : UInt8} {r : List UInt8}
    (h : pat.drop q = L_ESC :: d :: r) :
    classendLoop pat (fuel + 1) q =
      if r.head? = some (ascii ']') then Except.ok (q + 3) else classendLoop pat fuel (q + 2) := by
  have hlt := lt_of_drop (drop_succ_of_drop h)
  rw [classendLoop, if_neg (Nat.not_le_of_lt (lt_of_drop h)), index_of_drop h,
    ← getElem?_succ_of_drop (drop_succ_of_drop h)]
  show (if pat[if L_ESC = L_ESC ∧ q + 1 < pat.length then q + 2 else q + 1]? = _ then
    Except.ok ((if L_ESC = L_ESC ∧ q + 1 < pat.length then q + 2 else q + 1) + 1)
    else classendLoop pat fuel (if L_ESC = L_ESC ∧ q + 1 < pat.length then q + 2 else q + 1)) = _
  rw [if_pos (show L_ESC = L_ESC ∧ q + 1 < pat.length from ⟨rfl, hlt⟩)]

theorem classendLoop_byte {q fuel : ℕ} {b : UInt8} {r : List UInt8} (h : pat.drop q = b :: r)
    (hb : b ≠ L_ESC ∨ r = []) :
    classendLoop pat (fuel + 1) q =
      if r.head? = some (ascii ']') then Except.ok (q + 2) else classendLoop pat fuel (q + 1) := by
  have hno : ¬(b = L_ESC ∧ q + 1 < pat.length) := by
    rintro ⟨rfl, hlt⟩
    have hnil := hb.resolve_left (fun hne => hne rfl)
    subst hnil
    have hle := List.drop_eq_nil_iff.mp (drop_succ_of_drop h)
    omega
  rw [classendLoop, if_neg (Nat.not_le_of_lt (lt_of_drop h)), index_of_drop h,
    ← getElem?_succ_of_drop h]
  show (if pat[if b = L_ESC ∧ q + 1 < pat.length then q + 2 else q + 1]? = _ then
    Except.ok ((if b = L_ESC ∧ q + 1 < pat.length then q + 2 else q + 1) + 1)
    else classendLoop pat fuel (if b = L_ESC ∧ q + 1 < pat.length then q + 2 else q + 1)) = _
  rw [if_neg hno]

theorem classendLoop_end {q fuel : ℕ} (h : pat.drop q = []) :
    classendLoop pat (fuel + 1) q = Except.error (Stop.error PatError.missingBracket) := by
  rw [classendLoop, if_pos (List.drop_eq_nil_iff.mp h)]
  rfl

theorem length_of_drop {q : ℕ} {b : UInt8} {r : List UInt8} (h : pat.drop q = b :: r) :
    pat.length = q + 1 + r.length := by
  have hlen := congrArg List.length h
  have hlt := lt_of_drop h
  rw [List.length_drop, List.length_cons] at hlen
  omega

/-- **The end of a set** is where what is behind it begins. -/
theorem classendLoop_eq {r : List UInt8} {q fuel : ℕ} (h : pat.drop q = r)
    (hfuel : r.length < fuel) :
    classendLoop pat fuel q =
      match setBody r with
      | some (_, rest) => Except.ok (pat.length - rest.length)
      | none => Except.error (Stop.error PatError.missingBracket) := by
  induction r using setBody.induct generalizing q fuel with
  | case1 =>
      obtain ⟨fuel, rfl⟩ : ∃ n, fuel = n + 1 := ⟨fuel - 1, by omega⟩
      rw [classendLoop_end h]
      rfl
  | case2 b =>
      obtain ⟨fuel, rfl⟩ : ∃ n, fuel = n + 2 := ⟨fuel - 2, by simp at hfuel; omega⟩
      rw [classendLoop_byte h (Or.inr rfl), if_neg (by simp),
        classendLoop_end (drop_succ_of_drop h)]
      rfl
  | case3 d r hclose =>
      obtain ⟨fuel, rfl⟩ : ∃ n, fuel = n + 1 := ⟨fuel - 1, by omega⟩
      have hlen := length_of_drop h
      simp only [List.length_cons] at hlen
      rw [classendLoop_escape h, if_pos hclose, setBody, if_pos rfl, if_pos hclose]
      cases r with
      | nil => cases hclose
      | cons x r =>
          simp only [List.length_cons] at hlen
          simp only [List.tail_cons]
          congr 1
          omega
  | case4 d r hclose ih =>
      obtain ⟨fuel, rfl⟩ : ∃ n, fuel = n + 1 := ⟨fuel - 1, by omega⟩
      simp only [List.length_cons] at hfuel
      have hnext : classendLoop pat fuel (q + 2) = _ :=
        ih (drop_succ_of_drop (drop_succ_of_drop h)) (by omega)
      rw [classendLoop_escape h, if_neg hclose, setBody, if_pos rfl, if_neg hclose, hnext]
      cases setBody r <;> rfl
  | case5 b r hb =>
      obtain ⟨fuel, rfl⟩ : ∃ n, fuel = n + 1 := ⟨fuel - 1, by omega⟩
      have hlen := length_of_drop h
      simp only [List.length_cons] at hlen
      rw [classendLoop_byte h (Or.inl hb), if_pos List.head?_cons, setBody, if_neg hb, if_pos rfl]
      dsimp only
      congr 1
      omega
  | case6 b d r hb hclose ih =>
      obtain ⟨fuel, rfl⟩ : ∃ n, fuel = n + 1 := ⟨fuel - 1, by omega⟩
      simp only [List.length_cons] at hfuel
      have hnext : classendLoop pat fuel (q + 1) = _ :=
        ih (drop_succ_of_drop h) (by simp; omega)
      rw [classendLoop_byte h (Or.inl hb), List.head?_cons,
        if_neg (fun hno => hclose (Option.some.inj hno)), setBody, if_neg hb, if_neg hclose, hnext]
      cases setBody (d :: r) <;> rfl

/-- The cases of `classend`. -/
theorem classend_of_drop {p : ℕ} {c : UInt8} {r : List UInt8} (h : pat.drop p = c :: r) :
    classend pat p =
      if c = L_ESC then
        if r = [] then Except.error (Stop.error PatError.endsWithPercent) else Except.ok (p + 2)
      else if c = ascii '[' then
        if r.head? = some (ascii '^') then classendLoop pat (pat.length + 1) (p + 2)
        else classendLoop pat (pat.length + 1) (p + 1)
      else Except.ok (p + 1) := by
  have hlast : pat.length ≤ p + 1 ↔ r = [] := by
    rw [← List.drop_eq_nil_iff, drop_succ_of_drop h]
  rw [classend, index_of_drop h, ← getElem?_succ_of_drop h]
  show (if c = L_ESC then (if pat.length ≤ p + 1 then
    (throw (Stop.error PatError.endsWithPercent) : Except Stop ℕ) else pure (p + 2)) else _) = _
  simp only [hlast]
  rfl

/-- What is behind the end of an item. -/
structure ItemEnd (pat : List UInt8) (p ep : ℕ) (rest : List UInt8) : Prop where
  lt : p < ep
  le : ep ≤ pat.length
  drop : pat.drop ep = rest

theorem itemEnd_of_suffix {p : ℕ} {rest : List UInt8} (body : List UInt8)
    (h : pat.drop p = body ++ rest) (hbody : body ≠ []) :
    ItemEnd pat p (pat.length - rest.length) rest := by
  have hlen := congrArg List.length h
  rw [List.length_drop, List.length_append] at hlen
  have hpos := List.length_pos_iff.mpr hbody
  have hep : pat.length - rest.length = p + body.length := by omega
  refine ⟨by omega, Nat.sub_le _ _, ?_⟩
  rw [hep, ← List.drop_drop, h, List.drop_left]

/-- The items of a set and their walk. -/
theorem matchBracketClass_eq {r rest : List UInt8} {set : ByteSet} {p : ℕ}
    (h : pat.drop p = ascii '[' :: r) (hset : parseSet r = some (set, rest)) :
    classend pat p = Except.ok (pat.length - rest.length) ∧
      ItemEnd pat p (pat.length - rest.length) rest ∧
      ∀ c, matchBracketClass c pat p (pat.length - rest.length - 1) = Except.ok (set.has c) := by
  have hclassend := classend_of_drop h
  rw [if_neg (by decide), if_pos rfl] at hclassend
  have hlen := length_of_drop h
  rw [parseSet] at hset
  split at hset
  case isTrue hneg =>
    obtain ⟨⟨body, rest'⟩, hbody, heq⟩ := Option.map_eq_some_iff.mp hset
    simp only [Prod.mk.injEq] at heq
    obtain ⟨rfl, rfl⟩ := heq
    cases r with
    | nil => cases hneg
    | cons x r =>
        obtain rfl := Option.some.inj hneg
        have hsplit := setBody_split hbody
        simp only [List.tail_cons] at hsplit hbody
        have hdrop : pat.drop (p + 2) = r := drop_succ_of_drop (drop_succ_of_drop h)
        simp only [List.length_cons] at hlen
        have hend := itemEnd_of_suffix (ascii '[' :: ascii '^' :: (body ++ [ascii ']']))
          (show pat.drop p = _ ++ rest' by rw [h, hsplit]; simp) (by simp)
        refine ⟨?_, hend, ?_⟩
        · rw [hclassend, if_pos List.head?_cons, classendLoop_eq hdrop (by omega), hbody]
        · intro c
          have hbl : r.length = body.length + 1 + rest'.length := by
            rw [hsplit]
            simp
            omega
          rw [matchBracketClass, getElem?_succ_of_drop h, if_pos List.head?_cons,
            bracketLoop_eq (hdrop.trans hsplit) (by omega) (by omega), ByteSet.has]
          cases (setItems body).any fun i => i.has c <;> rfl
  case isFalse hneg =>
    obtain ⟨⟨body, rest'⟩, hbody, heq⟩ := Option.map_eq_some_iff.mp hset
    simp only [Prod.mk.injEq] at heq
    obtain ⟨rfl, rfl⟩ := heq
    have hsplit := setBody_split hbody
    have hdrop : pat.drop (p + 1) = r := drop_succ_of_drop h
    have hend := itemEnd_of_suffix (ascii '[' :: (body ++ [ascii ']']))
      (show pat.drop p = _ ++ rest' by rw [h, hsplit]; simp) (by simp)
    refine ⟨?_, hend, ?_⟩
    · rw [hclassend, if_neg hneg, classendLoop_eq hdrop (by omega), hbody]
    · intro c
      have hbl : r.length = body.length + 1 + rest'.length := by
        rw [hsplit]
        simp
        omega
      rw [matchBracketClass, getElem?_succ_of_drop h, if_neg hneg,
        bracketLoop_eq (hdrop.trans hsplit) (by omega) (by omega), ByteSet.has]
      cases (setItems body).any fun i => i.has c <;> rfl

/-- A set that has no end. -/
theorem classend_noSet {r : List UInt8} {p : ℕ} (h : pat.drop p = ascii '[' :: r)
    (hset : parseSet r = none) :
    classend pat p = Except.error (Stop.error PatError.missingBracket) := by
  have hclassend := classend_of_drop h
  rw [if_neg (by decide), if_pos rfl] at hclassend
  have hlen := length_of_drop h
  rw [parseSet] at hset
  split at hset
  case isTrue hneg =>
    have hbody := Option.map_eq_none_iff.mp hset
    have hdrop : pat.drop (p + 2) = r.tail := by
      rw [← List.drop_one, ← drop_succ_of_drop h, List.drop_drop]
    rw [hclassend, if_pos hneg, classendLoop_eq hdrop (by simp; omega), hbody]
  case isFalse hneg =>
    have hbody := Option.map_eq_none_iff.mp hset
    rw [hclassend, if_neg hneg, classendLoop_eq (drop_succ_of_drop h) (by omega), hbody]

/-- **The end of an item.** -/
theorem classend_single {c : UInt8} {r rest : List UInt8} {sg : Single} {p : ℕ}
    (h : pat.drop p = c :: r) (hsg : parseSingle c r = some (sg, rest)) :
    ∃ ep, classend pat p = Except.ok ep ∧ ItemEnd pat p ep rest ∧
      ∀ src s, singleMatch src pat s p ep = Except.ok ((src[s]?).any sg.has) := by
  have hone : ItemEnd pat p (p + 1) r :=
    ⟨Nat.lt_succ_self _, lt_of_drop h, drop_succ_of_drop h⟩
  rw [parseSingle.eq_def] at hsg
  split at hsg
  case isTrue hc =>
    cases r with
    | nil => cases hsg
    | cons cl r =>
        cases hsg
        have hlt := lt_of_drop (drop_succ_of_drop h)
        refine ⟨p + 2, ?_, ⟨by omega, hlt, drop_succ_of_drop (drop_succ_of_drop h)⟩, ?_⟩
        · rw [classend_of_drop h, if_pos hc, if_neg (by simp)]
        · intro src s
          rw [singleMatch]
          cases src[s]? with
          | none => rfl
          | some ch =>
              rw [index_of_drop h, index_of_drop (drop_succ_of_drop h), hc]
              rfl
  case isFalse hc =>
    split at hsg
    case isTrue hbracket =>
      obtain ⟨⟨set, rest'⟩, hset, heq⟩ := Option.map_eq_some_iff.mp hsg
      cases heq
      subst hbracket
      obtain ⟨hclassend, hend, hwalk⟩ := matchBracketClass_eq h hset
      refine ⟨_, hclassend, hend, ?_⟩
      intro src s
      rw [singleMatch]
      cases src[s]? with
      | none => rfl
      | some ch =>
          rw [index_of_drop h]
          exact hwalk ch
    case isFalse hbracket =>
      have hclassend : classend pat p = Except.ok (p + 1) := by
        rw [classend_of_drop h, if_neg hc, if_neg hbracket]
      have hmatch : ∀ src s, singleMatch src pat s p (p + 1) =
          Except.ok ((src[s]?).any fun ch => c = ascii '.' || c = ch) := by
        intro src s
        rw [singleMatch]
        cases src[s]? with
        | none => rfl
        | some ch =>
            rw [index_of_drop h]
            show (if c = ascii '.' then _ else if c = L_ESC then _ else if c = ascii '[' then _
              else _) = _
            rw [if_neg hc, if_neg hbracket]
            by_cases hdot : c = ascii '.'
            · rw [if_pos hdot]
              simp [hdot]
              rfl
            · rw [if_neg hdot]
              simp [hdot]
              rfl
      split at hsg
      case isTrue hdot =>
        cases hsg
        refine ⟨p + 1, hclassend, hone, ?_⟩
        intro src s
        rw [hmatch, hdot]
        cases src[s]? <;> rfl
      case isFalse hdot =>
        cases hsg
        refine ⟨p + 1, hclassend, hone, ?_⟩
        intro src s
        rw [hmatch]
        cases src[s]? with
        | none => rfl
        | some ch => simp [hdot, Single.has]

/-- An item that has no end is an error. -/
theorem classend_noSingle {c : UInt8} {r : List UInt8} {p : ℕ} (h : pat.drop p = c :: r)
    (hsg : parseSingle c r = none) : ∃ e, classend pat p = Except.error (Stop.error e) := by
  rw [parseSingle.eq_def] at hsg
  split at hsg
  case isTrue hc =>
    cases r with
    | cons cl r => cases hsg
    | nil =>
        refine ⟨PatError.endsWithPercent, ?_⟩
        rw [classend_of_drop h, if_pos hc, if_pos rfl]
  case isFalse hc =>
    split at hsg
    case isTrue hbracket =>
      subst hbracket
      exact ⟨_, classend_noSet h (Option.map_eq_none_iff.mp hsg)⟩
    case isFalse =>
      split at hsg
      · cases hsg
      · cases hsg

/-! ### Balanced runs -/

section

variable {b e x : UInt8} {d d' : ℕ}

theorem find_range_succ (P : ℕ → Bool) (n : ℕ) :
    (List.range (n + 1)).find? P =
      if P 0 then some 0 else ((List.range n).find? fun k => P (k + 1)).map (· + 1) := by
  rw [List.range_succ_eq_map, List.find?_cons, List.find?_map]
  cases P 0 <;> rfl

/-- What a byte in front of a run changes: `d` open delimiters become `d'`. -/
def Shifts (b e x : UInt8) (d d' : ℕ) : Prop :=
  ∀ run, closings e (x :: run) + openings b e run + d' =
    closings e run + openings b e (x :: run) + d

theorem shifts_closing (hd : 0 < d) : Shifts b e e d (d - 1) := by
  intro run
  have hclose : closings e (e :: run) = closings e run + 1 := List.count_cons_self
  have hopen : openings b e (e :: run) = openings b e run := by
    rw [openings, openings]
    split
    case isTrue => rfl
    case isFalse hbe => exact List.count_cons_of_ne (fun heq => hbe heq.symm)
  rw [hclose, hopen]
  omega

theorem shifts_opening (hbe : b ≠ e) : Shifts b e b d (d + 1) := by
  intro run
  have hclose : closings e (b :: run) = closings e run := List.count_cons_of_ne hbe
  have hopen : openings b e (b :: run) = openings b e run + 1 := by
    rw [openings, openings, if_neg hbe, if_neg hbe]
    exact List.count_cons_self
  rw [hclose, hopen]
  omega

theorem shifts_other (hxe : x ≠ e) (hxb : x ≠ b) : Shifts b e x d d := by
  intro run
  have hclose : closings e (x :: run) = closings e run := List.count_cons_of_ne hxe
  have hopen : openings b e (x :: run) = openings b e run := by
    rw [openings, openings]
    split
    · rfl
    · exact List.count_cons_of_ne hxb
  rw [hclose, hopen]

theorem balancedLength_zero (run : List UInt8) : balancedLength b e 0 run = some 0 := by
  rw [balancedLength, find_range_succ, if_pos]
  simp [closings, openings]

theorem balancedLength_nil (hd : 0 < d) : balancedLength b e d [] = none := by
  rw [balancedLength, List.length_nil, find_range_succ, if_neg]
  · rfl
  · simp [closings, openings]
    omega

theorem balancedLength_cons (hd : 0 < d) (h : Shifts b e x d d') (run : List UInt8) :
    balancedLength b e d (x :: run) = (balancedLength b e d' run).map (· + 1) := by
  rw [balancedLength, List.length_cons, find_range_succ, if_neg, balancedLength]
  · have hsame : (fun k => decide (closings e ((x :: run).take (k + 1)) =
        openings b e ((x :: run).take (k + 1)) + d)) =
        fun k => decide (closings e (run.take k) = openings b e (run.take k) + d') := by
      funext k
      have hk := h (run.take k)
      rw [List.take_succ_cons, decide_eq_decide]
      omega
    rw [hsame]
  · simp [closings, openings]
    omega

theorem not_tooDeep_zero (run : List UInt8) : ¬TooDeep b e 0 run := by
  rintro ⟨k, -, hopen, -⟩
  have h := hopen 0 (Nat.zero_le k)
  simp [closings, openings] at h

theorem not_tooDeep_nil (hd : d < 2 ^ 31) : ¬TooDeep b e d [] := by
  rintro ⟨k, -, -, hdeep⟩
  simp [closings, openings] at hdeep
  omega

theorem tooDeep_of_le (hd : 2 ^ 31 ≤ d) (run : List UInt8) : TooDeep b e d run := by
  refine ⟨0, Nat.zero_le _, ?_, ?_⟩
  · intro j hj
    obtain rfl := Nat.le_zero.mp hj
    simp [closings, openings]
    omega
  · simp [closings, openings]
    exact hd

theorem tooDeep_cons (hd : 0 < d) (hlt : d < 2 ^ 31) (h : Shifts b e x d d') (run : List UInt8) :
    TooDeep b e d (x :: run) ↔ TooDeep b e d' run := by
  constructor
  · rintro ⟨k, hk, hopen, hdeep⟩
    cases k with
    | zero =>
        simp [closings, openings] at hdeep
        omega
    | succ k =>
        refine ⟨k, by simpa using hk, ?_, ?_⟩
        · intro j hj
          have hj' := hopen (j + 1) (by omega)
          have hshift := h (run.take j)
          rw [List.take_succ_cons] at hj'
          omega
        · have hshift := h (run.take k)
          rw [List.take_succ_cons] at hdeep
          omega
  · rintro ⟨k, hk, hopen, hdeep⟩
    refine ⟨k + 1, by simpa using hk, ?_, ?_⟩
    · intro j hj
      cases j with
      | zero =>
          simp [closings, openings]
          omega
      | succ j =>
          have hj' := hopen j (by omega)
          have hshift := h (run.take j)
          rw [List.take_succ_cons]
          omega
    · have hshift := h (run.take k)
      rw [List.take_succ_cons]
      omega

/-- **The scan for a balanced run** finds the shortest one, unless it is too deep. -/
theorem balanceLoop_eq {src run : List UInt8} {s fuel : ℕ} (h : src.drop s = run) (hd : 0 < d)
    (hlt : d < 2 ^ 31) (hfuel : run.length < fuel) :
    (TooDeep b e d run → balanceLoop src b e fuel s d = Except.error Stop.overflow) ∧
      (¬TooDeep b e d run →
        balanceLoop src b e fuel s d = Except.ok ((balancedLength b e d run).map (s + ·))) := by
  induction run generalizing s d fuel with
  | nil =>
      obtain ⟨fuel, rfl⟩ : ∃ n, fuel = n + 1 := ⟨fuel - 1, by omega⟩
      have hnone : src[s]? = none := List.getElem?_eq_none (List.drop_eq_nil_iff.mp h)
      constructor
      · intro hdeep
        exact absurd hdeep (not_tooDeep_nil hlt)
      · intro _
        rw [balanceLoop, hnone, balancedLength_nil hd]
        rfl
  | cons x run ih =>
      obtain ⟨fuel, rfl⟩ : ∃ n, fuel = n + 1 := ⟨fuel - 1, by omega⟩
      simp only [List.length_cons] at hfuel
      have hnext : src.drop (s + 1) = run := drop_succ_of_drop h
      have hround : balanceLoop src b e (fuel + 1) s d =
          if x = e then
            if d - 1 = 0 then Except.ok (some (s + 1)) else balanceLoop src b e fuel (s + 1) (d - 1)
          else if x = b then
            if d = 2 ^ 31 - 1 then Except.error Stop.overflow
            else balanceLoop src b e fuel (s + 1) (d + 1)
          else balanceLoop src b e fuel (s + 1) d := by
        rw [balanceLoop, getElem?_of_drop h]
        rfl
      have hmap : ∀ o : Option ℕ, (o.map (· + 1)).map (s + ·) = o.map (s + 1 + ·) := by
        intro o
        cases o with
        | none => rfl
        | some k =>
            simp
            omega
      rw [hround]
      by_cases hxe : x = e
      · subst hxe
        have hshift : Shifts b x x d (d - 1) := shifts_closing hd
        rw [if_pos rfl, tooDeep_cons hd hlt hshift, balancedLength_cons hd hshift, hmap]
        by_cases hone : d - 1 = 0
        · rw [if_pos hone, hone, balancedLength_zero]
          exact ⟨fun hdeep => absurd hdeep (not_tooDeep_zero run), fun _ => rfl⟩
        · rw [if_neg hone]
          exact ih hnext (by omega) (by omega) (by omega)
      · rw [if_neg hxe]
        by_cases hxb : x = b
        · subst hxb
          have hshift : Shifts x e x d (d + 1) := shifts_opening hxe
          rw [if_pos rfl, tooDeep_cons hd hlt hshift, balancedLength_cons hd hshift, hmap]
          by_cases hmax : d = 2 ^ 31 - 1
          · rw [if_pos hmax]
            exact ⟨fun _ => rfl, fun hno => absurd (tooDeep_of_le (by omega) run) hno⟩
          · rw [if_neg hmax]
            exact ih hnext (by omega) (by omega) (by omega)
        · have hshift : Shifts b e x d d := shifts_other hxe hxb
          rw [if_neg hxb, tooDeep_cons hd hlt hshift, balancedLength_cons hd hshift, hmap]
          exact ih hnext hd hlt (by omega)

end

/-! ### Counting -/

/-- **How often an item can be repeated.** -/
theorem countLoop_eq {src run : List UInt8} {has : UInt8 → Bool} {s p ep i fuel : ℕ}
    (hitem : ∀ s, singleMatch src pat s p ep = Except.ok ((src[s]?).any has))
    (h : src.drop (s + i) = run) (hfuel : run.length < fuel) :
    countLoop src pat s p ep fuel i = Except.ok (i + (run.takeWhile has).length) := by
  induction run generalizing i fuel with
  | nil =>
      obtain ⟨fuel, rfl⟩ : ∃ n, fuel = n + 1 := ⟨fuel - 1, by omega⟩
      have hnone : src[s + i]? = none := List.getElem?_eq_none (List.drop_eq_nil_iff.mp h)
      rw [countLoop, hitem, hnone]
      rfl
  | cons x run ih =>
      obtain ⟨fuel, rfl⟩ : ∃ n, fuel = n + 1 := ⟨fuel - 1, by omega⟩
      simp only [List.length_cons] at hfuel
      have hnext : src.drop (s + (i + 1)) = run := drop_succ_of_drop h
      rw [countLoop, hitem, getElem?_of_drop h]
      show (if has x = true then _ else _) = _
      cases hx : has x with
      | true =>
          rw [if_pos rfl, ih hnext (by omega), List.takeWhile_cons, if_pos hx,
            List.length_cons]
          congr 1
          omega
      | false =>
          rw [if_neg (by decide), List.takeWhile_cons, if_neg (by rw [hx]; decide)]
          rfl

end Tcvm.Pattern
