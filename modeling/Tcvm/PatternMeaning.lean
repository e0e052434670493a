/-
# What a pattern means

A pattern is a list of elements: single items with a repetition, captures, references, balanced
runs, frontiers and the end of the subject.  An element leads from a point of the subject, with the
captures so far, to other points, in the order in which they are to be tried; a pattern leads to
what its elements lead to one after the other.  The first point in this order is the match.

Where a pattern is malformed, or a capture is missing, nothing is led to.

## Main definitions

* `SetItem`, `ByteSet`, `Single`, `Repeat`, `Elem` — the syntax;
* `setBody`, `setItems`, `parseSingle`, `parseElem`, `elems` — the syntax of a byte list;
* `balancedLength` — the shortest balanced run;
* `Elem.choices`, `search` — **the points that are led to, in order**;
* `Derives` — the points that are led to, in no order.

## Main results

* `mem_search_iff` — the search lists what can be derived.
-/

import Tcvm.Pattern

namespace Tcvm.Pattern

/-! ### Sets -/

inductive SetItem
  | byte (b : UInt8)
  | cls (cl : UInt8)
  | range (lo hi : UInt8)

def SetItem.has : SetItem → UInt8 → Bool
  | byte b, c => b = c
  | cls cl, c => matchClass c cl
  | range lo hi, c => lo ≤ c && c ≤ hi

/-- The items between the brackets.  An escape whose byte was taken by a range before it stands for
the closing bracket. -/
def setItems : List UInt8 → List SetItem
  | [] => []
  | [c] => if c = L_ESC then [SetItem.cls (ascii ']')] else [SetItem.byte c]
  | [c, d] => if c = L_ESC then [SetItem.cls d] else SetItem.byte c :: setItems [d]
  | c :: d :: e :: r =>
      if c = L_ESC then SetItem.cls d :: setItems (e :: r)
      else if d = ascii '-' then SetItem.range c e :: setItems r
      else SetItem.byte c :: setItems (d :: e :: r)

structure ByteSet where
  negated : Bool
  items : List SetItem

def ByteSet.has (set : ByteSet) (c : UInt8) : Bool :=
  if set.items.any fun i => i.has c then !set.negated else set.negated

/-- What is between the brackets, and what is behind them; there is at least one byte, or one that
is escaped, between them. -/
def setBody : List UInt8 → Option (List UInt8 × List UInt8)
  | [] => none
  | [_] => none
  | c :: d :: r =>
      if c = L_ESC then
        if r.head? = some (ascii ']') then some ([c, d], r.tail)
        else (setBody r).map fun x => (c :: d :: x.1, x.2)
      else if d = ascii ']' then some ([c], r)
      else (setBody (d :: r)).map fun x => (c :: x.1, x.2)

/-- A set, behind its opening bracket. -/
def parseSet (r : List UInt8) : Option (ByteSet × List UInt8) :=
  if r.head? = some (ascii '^') then
    (setBody r.tail).map fun x => ({ negated := true, items := setItems x.1 }, x.2)
  else (setBody r).map fun x => ({ negated := false, items := setItems x.1 }, x.2)

/-! ### Elements -/

inductive Single
  | any
  | byte (b : UInt8)
  | cls (cl : UInt8)
  | set (set : ByteSet)

def Single.has : Single → UInt8 → Bool
  | any, _ => true
  | byte b, c => b = c
  | cls cl, c => matchClass c cl
  | set s, c => s.has c

inductive Repeat
  | once
  | optional
  | greedy
  | greedyOne
  | reluctant

inductive Elem
  | single (s : Single) (rep : Repeat)
  | openCapture
  | position
  | close
  | backReference (n : ℕ)
  | balance (b e : UInt8)
  | frontier (set : ByteSet)
  | endAnchor
  | malformed

/-- An item and what is behind it, from its first byte on. -/
def parseSingle (c : UInt8) (r : List UInt8) : Option (Single × List UInt8) :=
  if c = L_ESC then
    match r with
    | [] => none
    | cl :: r' => some (Single.cls cl, r')
  else if c = ascii '[' then (parseSet r).map fun x => (Single.set x.1, x.2)
  else if c = ascii '.' then some (Single.any, r)
  else some (Single.byte c, r)

/-- The repetition that a suffix stands for. -/
def repeatOf (c : UInt8) : Option Repeat :=
  if c = ascii '?' then some Repeat.optional
  else if c = ascii '+' then some Repeat.greedyOne
  else if c = ascii '*' then some Repeat.greedy
  else if c = ascii '-' then some Repeat.reluctant
  else none

def parseSuffix (r : List UInt8) : Repeat × List UInt8 :=
  match r.head?.bind repeatOf with
  | some rep => (rep, r.tail)
  | none => (Repeat.once, r)

/-- An item with its suffix. -/
def parseItem (c : UInt8) (r : List UInt8) : Elem × List UInt8 :=
  match parseSingle c r with
  | some (s, r') => (Elem.single s (parseSuffix r').1, (parseSuffix r').2)
  | none => (Elem.malformed, [])

def parseFrontier (r : List UInt8) : Elem × List UInt8 :=
  if r.head? = some (ascii '[') then
    match parseSet r.tail with
    | some (set, r') => (Elem.frontier set, r')
    | none => (Elem.malformed, [])
  else (Elem.malformed, [])

def parseBalance : List UInt8 → Elem × List UInt8
  | b :: e :: r => (Elem.balance b e, r)
  | _ => (Elem.malformed, [])

/-- An element and what is behind it, from its first byte on. -/
def parseElem (c : UInt8) (r : List UInt8) : Elem × List UInt8 :=
  if c = ascii '(' then
    if r.head? = some (ascii ')') then (Elem.position, r.tail) else (Elem.openCapture, r)
  else if c = ascii ')' then (Elem.close, r)
  else if c = ascii '$' ∧ r = [] then (Elem.endAnchor, [])
  else if c = L_ESC then
    match r with
    | [] => parseItem c r
    | d :: r' =>
        if d = ascii 'b' then parseBalance r'
        else if d = ascii 'f' then parseFrontier r'
        else if isDigit d then (Elem.backReference (d.toNat - (ascii '0').toNat), r')
        else parseItem c r
  else parseItem c r

/-! ### What is left gets shorter -/

theorem setBody_split {r body rest : List UInt8} (h : setBody r = some (body, rest)) :
    r = body ++ ascii ']' :: rest := by
  induction r using setBody.induct generalizing body rest with
  | case1 => cases h
  | case2 => cases h
  | case3 d r hclose =>
      rw [setBody, if_pos rfl, if_pos hclose] at h
      cases h
      cases r with
      | nil => cases hclose
      | cons x r =>
          obtain rfl := Option.some.inj hclose
          rfl
  | case4 d r hclose ih =>
      rw [setBody, if_pos rfl, if_neg hclose] at h
      obtain ⟨⟨body', rest'⟩, hbody, heq⟩ := Option.map_eq_some_iff.mp h
      cases heq
      rw [ih hbody]
      rfl
  | case5 c r hc =>
      rw [setBody, if_neg hc, if_pos rfl] at h
      cases h
      rfl
  | case6 c d r hc hclose ih =>
      rw [setBody, if_neg hc, if_neg hclose] at h
      obtain ⟨⟨body', rest'⟩, hbody, heq⟩ := Option.map_eq_some_iff.mp h
      cases heq
      rw [ih hbody]
      rfl

theorem parseSet_length {r rest : List UInt8} {set : ByteSet} (h : parseSet r = some (set, rest)) :
    rest.length < r.length := by
  rw [parseSet] at h
  split at h
  case isTrue =>
    obtain ⟨⟨body, rest'⟩, hbody, heq⟩ := Option.map_eq_some_iff.mp h
    cases heq
    have hsplit := congrArg List.length (setBody_split hbody)
    simp at hsplit ⊢
    omega
  case isFalse =>
    obtain ⟨⟨body, rest'⟩, hbody, heq⟩ := Option.map_eq_some_iff.mp h
    cases heq
    have hsplit := congrArg List.length (setBody_split hbody)
    simp at hsplit ⊢
    omega

theorem parseSingle_length {c : UInt8} {r rest : List UInt8} {s : Single}
    (h : parseSingle c r = some (s, rest)) : rest.length ≤ r.length := by
  rw [parseSingle.eq_def] at h
  split at h
  case isTrue =>
    cases r with
    | nil => cases h
    | cons cl r =>
        cases h
        exact Nat.le_succ _
  case isFalse =>
    split at h
    case isTrue =>
      obtain ⟨⟨set, rest'⟩, hset, heq⟩ := Option.map_eq_some_iff.mp h
      cases heq
      exact Nat.le_of_lt (parseSet_length hset)
    case isFalse =>
      split at h
      case isTrue =>
        cases h
        exact Nat.le_refl _
      case isFalse =>
        cases h
        exact Nat.le_refl _

theorem parseSuffix_length (r : List UInt8) : (parseSuffix r).2.length ≤ r.length := by
  rw [parseSuffix]
  split
  · simp
  · exact Nat.le_refl _

theorem parseItem_length (c : UInt8) (r : List UInt8) : (parseItem c r).2.length ≤ r.length := by
  rw [parseItem]
  split
  case h_1 s r' h =>
    have hle := parseSingle_length h
    have hle' := parseSuffix_length r'
    exact Nat.le_trans hle' hle
  case h_2 => exact Nat.zero_le _

theorem parseElem_length (c : UInt8) (r : List UInt8) : (parseElem c r).2.length ≤ r.length := by
  rw [parseElem.eq_def]
  split_ifs
  · simp
  · exact Nat.le_refl _
  · exact Nat.le_refl _
  · exact Nat.zero_le _
  · cases r with
    | nil => exact parseItem_length c []
    | cons d r =>
        dsimp only
        split_ifs
        · cases r with
          | nil => exact Nat.zero_le _
          | cons b r =>
              cases r with
              | nil => exact Nat.zero_le _
              | cons e r =>
                  simp [parseBalance]
                  omega
        · rw [parseFrontier]
          split
          · split
            case h_1 set r' hset =>
              have hlt := parseSet_length hset
              simp at hlt ⊢
              omega
            case h_2 => exact Nat.zero_le _
          · exact Nat.zero_le _
        · exact Nat.le_succ _
        · exact parseItem_length c (d :: r)
  · exact parseItem_length c r

/-- **The elements of a pattern.** -/
def elems : List UInt8 → List Elem
  | [] => []
  | c :: r => (parseElem c r).1 :: elems (parseElem c r).2
termination_by pat => pat.length
decreasing_by exact Nat.lt_succ_of_le (parseElem_length c r)

/-! ### Balanced runs -/

/-- The closing delimiters of a run; where both are the same, all of them close. -/
def closings (e : UInt8) (run : List UInt8) : ℕ := run.count e

/-- The opening delimiters of a run. -/
def openings (b e : UInt8) (run : List UInt8) : ℕ := if b = e then 0 else run.count b

/-- The length of the shortest run at the front, behind `d` opening delimiters, that closes all of
them. -/
def balancedLength (b e : UInt8) (d : ℕ) (rest : List UInt8) : Option ℕ :=
  (List.range (rest.length + 1)).find? fun k =>
    closings e (rest.take k) = openings b e (rest.take k) + d

/-- As many delimiters are open at once as an `i32` cannot count, before all of them are closed. -/
def TooDeep (b e : UInt8) (d : ℕ) (rest : List UInt8) : Prop :=
  ∃ k ≤ rest.length,
    (∀ j ≤ k, closings e (rest.take j) < openings b e (rest.take j) + d) ∧
      closings e (rest.take k) + 2 ^ 31 ≤ openings b e (rest.take k) + d

/-! ### The search -/

/-- A place of the subject, with the captures so far. -/
structure Point where
  place : ℕ
  caps : List Capture

/-- How often an item can be repeated. -/
def repeats (src : List UInt8) (s : Single) (place : ℕ) : ℕ :=
  ((src.drop place).takeWhile s.has).length

/-- How often an item is repeated, in the order of preference. -/
def Repeat.counts (n : ℕ) : Repeat → List ℕ
  | once => if 1 ≤ n then [1] else []
  | optional => if 1 ≤ n then [1, 0] else [0]
  | greedy => (List.range (n + 1)).reverse
  | greedyOne => if 1 ≤ n then (List.range' 1 n).reverse else []
  | reluctant => List.range (n + 1)

/-- The innermost capture that is open. -/
def lastOpen (caps : List Capture) : Option ℕ :=
  (List.range caps.length).reverse.find? fun l =>
    match caps[l]? with
    | some c => c.len = CapLen.unfinished
    | none => false

/-- The text of a capture that is closed. -/
def Capture.text (src : List UInt8) (c : Capture) : Option (List UInt8) :=
  match c.len with
  | CapLen.len n => some ((src.drop c.init).take n)
  | _ => none

/-- **The points that an element leads to, in order.** -/
def Elem.choices (src : List UInt8) (x : Point) : Elem → List Point
  | single s rep =>
      (rep.counts (repeats src s x.place)).map fun n => { x with place := x.place + n }
  | openCapture =>
      if x.caps.length < MAX_CAPTURES then
        [{ x with caps := x.caps ++ [{ init := x.place, len := CapLen.unfinished }] }]
      else []
  | position =>
      if x.caps.length < MAX_CAPTURES then
        [{ x with caps := x.caps ++ [{ init := x.place, len := CapLen.position }] }]
      else []
  | close =>
      match lastOpen x.caps with
      | some l =>
          [{ x with caps := x.caps.modify l fun c =>
              { init := c.init, len := CapLen.len (x.place - c.init) } }]
      | none => []
  | backReference n =>
      match x.caps[n - 1]?.bind (Capture.text src) with
      | some text =>
          if 1 ≤ n ∧ text.isPrefixOf (src.drop x.place) then
            [{ x with place := x.place + text.length }]
          else []
      | none => []
  | balance b e =>
      if src[x.place]? = some b then
        match balancedLength b e 1 (src.drop (x.place + 1)) with
        | some k => [{ x with place := x.place + 1 + k }]
        | none => []
      else []
  | frontier set =>
      let prev := if x.place = 0 then 0 else (src[x.place - 1]?).getD 0
      if !set.has prev && set.has ((src[x.place]?).getD 0) then [x] else []
  | endAnchor => if x.place = src.length then [x] else []
  | malformed => []

/-- **The points that elements lead to one after the other, in order.** -/
def search (src : List UInt8) : List Elem → Point → List Point
  | [], x => [x]
  | e :: es, x => (e.choices src x).flatMap (search src es)

/-- A point can be derived from another through elements. -/
inductive Derives (src : List UInt8) : List Elem → Point → Point → Prop
  | nil (x : Point) : Derives src [] x x
  | cons {e : Elem} {es : List Elem} {x y z : Point} (hy : y ∈ e.choices src x)
      (h : Derives src es y z) : Derives src (e :: es) x z

/-- **The search lists what can be derived.** -/
theorem mem_search_iff {src : List UInt8} {es : List Elem} {x y : Point} :
    y ∈ search src es x ↔ Derives src es x y := by
  constructor
  · intro h
    induction es generalizing x with
    | nil =>
        obtain rfl : y = x := by simpa [search] using h
        exact Derives.nil y
    | cons e es ih =>
        obtain ⟨z, hz, hy⟩ := List.mem_flatMap.mp h
        exact Derives.cons hz (ih hy)
  · intro h
    induction h with
    | nil x => exact List.mem_cons_self
    | cons hy h ih => exact List.mem_flatMap.mpr ⟨_, hy, ih⟩

end Tcvm.Pattern
