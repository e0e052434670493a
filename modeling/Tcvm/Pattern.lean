/-
# The pattern matcher

The matcher of `string.find` and its relatives, over byte lists and indices into them.  A rule that
the source writes as a loop takes a bound on its rounds; what calls itself takes a bound on the
depth.  An index outside of a list, and a subtraction below zero, are failures of their own
(`Stop.outside`), as is an overflow of the counter of `%b` (`Stop.overflow`).

Along with the result the model gives the scans for a balanced run that are made, in order.

## Main definitions

* `CapLen`, `Capture`, `MatchState`, `PatError` — the data;
* `matchClass`, `matchBracketClass`, `classend`, `singleMatch`, `matchBalance` — single items;
* `maxExpand`, `minExpand`, `startCapture`, `endCapture`, `matchDefault`, `doMatch` — the search;
* `matchAt` — a match that begins at a place of the subject.
-/

import Tcvm.Logged

namespace Tcvm.Pattern

open Logged

/-! ### Data -/

def MAX_CAPTURES : ℕ := 32

def MAX_CCALLS : ℕ := 200

/-- The byte of an ASCII character. -/
def ascii (c : Char) : UInt8 := c.toUInt8

def L_ESC : UInt8 := ascii '%'

inductive CapLen
  | unfinished
  | position
  | len (n : ℕ)
  deriving DecidableEq

structure Capture where
  init : ℕ
  len : CapLen
  deriving DecidableEq

inductive PatError
  | endsWithPercent
  | missingBracket
  | balanceArgs
  | missingFrontierBracket
  | invalidCaptureIndex (n : ℕ)
  | invalidPatternCapture
  | unfinishedCapture
  | tooManyCaptures
  | patternTooComplex
  deriving DecidableEq

/-- Why a match stops without a result. -/
inductive Stop
  | error (e : PatError)
  | outside
  | overflow
  | fuel
  deriving DecidableEq

/-- A scan for a balanced run: the delimiters, and the place behind the first of them. -/
structure Scan where
  start : ℕ
  opening : UInt8
  closing : UInt8
  deriving DecidableEq

structure MatchState where
  level : ℕ
  matchdepth : ℕ
  capture : Vector Capture MAX_CAPTURES

abbrev MatchM : Type → Type := Logged MatchState Stop Scan

/-- One step of the loop of `do_match`. -/
inductive Step
  | init (s p : ℕ)
  | done (r : Option ℕ)

/-- `slice[i]`. -/
def index (xs : List UInt8) (i : ℕ) : Except Stop UInt8 :=
  match xs[i]? with
  | some c => Except.ok c
  | none => Except.error Stop.outside

/-! ### Classes -/

def isLower (c : UInt8) : Bool := ascii 'a' ≤ c && c ≤ ascii 'z'

def isUpper (c : UInt8) : Bool := ascii 'A' ≤ c && c ≤ ascii 'Z'

def isAlpha (c : UInt8) : Bool := isLower c || isUpper c

def isDigit (c : UInt8) : Bool := ascii '0' ≤ c && c ≤ ascii '9'

def isGraphic (c : UInt8) : Bool := 33 ≤ c && c ≤ 126

def isControl (c : UInt8) : Bool := c ≤ 31 || c = 127

def isHexdigit (c : UInt8) : Bool :=
  isDigit c || (ascii 'a' ≤ c && c ≤ ascii 'f') || (ascii 'A' ≤ c && c ≤ ascii 'F')

def isSpace (c : UInt8) : Bool := c = 32 || (9 ≤ c && c ≤ 13)

def toLower (c : UInt8) : UInt8 := if isUpper c then c + 32 else c

/-- The class of a letter, if it is one. -/
def classOf (cl : UInt8) : Option (UInt8 → Bool) :=
  if cl = ascii 'a' then some isAlpha
  else if cl = ascii 'c' then some isControl
  else if cl = ascii 'd' then some isDigit
  else if cl = ascii 'g' then some isGraphic
  else if cl = ascii 'l' then some isLower
  else if cl = ascii 'p' then some fun c => isGraphic c && !(isAlpha c || isDigit c)
  else if cl = ascii 's' then some isSpace
  else if cl = ascii 'u' then some isUpper
  else if cl = ascii 'w' then some fun c => isAlpha c || isDigit c
  else if cl = ascii 'x' then some isHexdigit
  else if cl = ascii 'z' then some fun c => c = 0
  else none

def matchClass (c cl : UInt8) : Bool :=
  match classOf (toLower cl) with
  | some cls => if isLower cl then cls c else !cls c
  | none => cl = c

/-- The walk over a set, from the byte in front of its next item. -/
def bracketLoop (c : UInt8) (pat : List UInt8) (ec : ℕ) (sig : Bool) :
    ℕ → ℕ → Except Stop Bool
  | 0, _ => Except.error Stop.fuel
  | fuel + 1, q => do
      let p := q + 1
      if ec ≤ p then pure !sig
      else
        let b ← index pat p
        if b = L_ESC then
          if (pat[p + 1]?).any (matchClass c) then pure sig
          else bracketLoop c pat ec sig fuel (p + 1)
        else if pat[p + 1]? = some (ascii '-') ∧ p + 2 < ec then
          let hi ← index pat (p + 2)
          if b ≤ c ∧ c ≤ hi then pure sig
          else bracketLoop c pat ec sig fuel (p + 2)
        else if b = c then pure sig
        else bracketLoop c pat ec sig fuel p

def matchBracketClass (c : UInt8) (pat : List UInt8) (pBrk ec : ℕ) : Except Stop Bool :=
  if pat[pBrk + 1]? = some (ascii '^') then bracketLoop c pat ec false (ec + 1) (pBrk + 1)
  else bracketLoop c pat ec true (ec + 1) pBrk

/-! ### Items -/

/-- The search for the end of a set. -/
def classendLoop (pat : List UInt8) : ℕ → ℕ → Except Stop ℕ
  | 0, _ => Except.error Stop.fuel
  | fuel + 1, q => do
      if pat.length ≤ q then throw (Stop.error PatError.missingBracket)
      let ch ← index pat q
      let p := if ch = L_ESC ∧ q + 1 < pat.length then q + 2 else q + 1
      if pat[p]? = some (ascii ']') then pure (p + 1)
      else classendLoop pat fuel p

/-- The end of the item that begins at `p`. -/
def classend (pat : List UInt8) (p : ℕ) : Except Stop ℕ := do
  let c ← index pat p
  if c = L_ESC then
    if pat.length ≤ p + 1 then throw (Stop.error PatError.endsWithPercent)
    pure (p + 2)
  else if c = ascii '[' then
    if pat[p + 1]? = some (ascii '^') then classendLoop pat (pat.length + 1) (p + 2)
    else classendLoop pat (pat.length + 1) (p + 1)
  else pure (p + 1)

def singleMatch (src pat : List UInt8) (s p ep : ℕ) : Except Stop Bool :=
  match src[s]? with
  | none => pure false
  | some c => do
      let b ← index pat p
      if b = ascii '.' then pure true
      else if b = L_ESC then
        let cl ← index pat (p + 1)
        pure (matchClass c cl)
      else if b = ascii '[' then matchBracketClass c pat p (ep - 1)
      else pure (b = c)

/-- The scan for the closing delimiter, with the number of those that are open, an `i32`. -/
def balanceLoop (src : List UInt8) (b e : UInt8) : ℕ → ℕ → ℕ → Except Stop (Option ℕ)
  | 0, _, _ => Except.error Stop.fuel
  | fuel + 1, s, cont =>
      match src[s]? with
      | none => pure none
      | some c =>
          if c = e then
            if cont - 1 = 0 then pure (some (s + 1))
            else balanceLoop src b e fuel (s + 1) (cont - 1)
          else if c = b then
            if cont = 2 ^ 31 - 1 then throw Stop.overflow
            else balanceLoop src b e fuel (s + 1) (cont + 1)
          else balanceLoop src b e fuel (s + 1) cont

def matchBalance (src pat : List UInt8) (s p : ℕ) : MatchM (Option ℕ) :=
  if pat.length ≤ p + 1 then fail (Stop.error PatError.balanceArgs)
  else do
    let b ← lift (index pat p)
    let e ← lift (index pat (p + 1))
    if src[s]? = some b then
      tell { start := s + 1, opening := b, closing := e }
      lift (balanceLoop src b e (src.length + 1) (s + 1) 1)
    else pure none

/-! ### Repetitions -/

/-- How often the item matches from `s + i` on. -/
def countLoop (src pat : List UInt8) (s p ep : ℕ) : ℕ → ℕ → Except Stop ℕ
  | 0, _ => Except.error Stop.fuel
  | fuel + 1, i => do
      if ← singleMatch src pat (s + i) p ep then countLoop src pat s p ep fuel (i + 1)
      else pure i

/-- Backing off from `i` repetitions. -/
def backOff (doMatch : ℕ → ℕ → MatchM (Option ℕ)) (s ep : ℕ) : ℕ → MatchM (Option ℕ)
  | 0 => doMatch s (ep + 1)
  | i + 1 => do
      match ← doMatch (s + (i + 1)) (ep + 1) with
      | some r => pure (some r)
      | none => backOff doMatch s ep i

def maxExpand (doMatch : ℕ → ℕ → MatchM (Option ℕ)) (src pat : List UInt8) (s p ep : ℕ) :
    MatchM (Option ℕ) := do
  let i ← lift (countLoop src pat s p ep (src.length + 1) 0)
  backOff doMatch s ep i

def minExpand (doMatch : ℕ → ℕ → MatchM (Option ℕ)) (src pat : List UInt8) (p ep : ℕ) :
    ℕ → ℕ → MatchM (Option ℕ)
  | 0, _ => fail Stop.fuel
  | fuel + 1, s => do
      match ← doMatch s (ep + 1) with
      | some r => pure (some r)
      | none =>
          if ← lift (singleMatch src pat s p ep) then
            minExpand doMatch src pat p ep fuel (s + 1)
          else pure none

/-! ### Captures -/

/-- Whether the capture of a level is open. -/
def isUnfinished (st : MatchState) (l : ℕ) : Bool :=
  match st.capture[l]? with
  | some c => c.len = CapLen.unfinished
  | none => false

/-- The innermost open capture. -/
def captureToClose (st : MatchState) : Except Stop ℕ :=
  match (List.range st.level).reverse.find? (isUnfinished st) with
  | some l => Except.ok l
  | none => Except.error (Stop.error PatError.invalidPatternCapture)

/-- `self.capture[l]`. -/
def captureAt (st : MatchState) (l : ℕ) : Except Stop Capture :=
  match st.capture[l]? with
  | some c => Except.ok c
  | none => Except.error Stop.outside

/-- `self.capture[l] = c`. -/
def setCapture (l : ℕ) (c : Capture) : MatchM Unit :=
  modify fun st => { st with capture := st.capture.setIfInBounds l c }

def startCapture (doMatch : ℕ → ℕ → MatchM (Option ℕ)) (s p : ℕ) (what : CapLen) :
    MatchM (Option ℕ) := do
  let st ← get
  if MAX_CAPTURES ≤ st.level then fail (Stop.error PatError.tooManyCaptures)
  else
    setCapture st.level { init := s, len := what }
    modify fun st => { st with level := st.level + 1 }
    match ← doMatch s p with
    | some r => pure (some r)
    | none =>
        modify fun st => { st with level := st.level - 1 }
        pure none

def endCapture (doMatch : ℕ → ℕ → MatchM (Option ℕ)) (s p : ℕ) : MatchM (Option ℕ) := do
  let st ← get
  let l ← lift (captureToClose st)
  let c ← lift (captureAt st l)
  if s < c.init then fail Stop.outside
  else
    setCapture l { init := c.init, len := CapLen.len (s - c.init) }
    match ← doMatch s p with
    | some r => pure (some r)
    | none =>
        let st ← get
        let c ← lift (captureAt st l)
        setCapture l { init := c.init, len := CapLen.unfinished }
        pure none

/-- The capture that a digit refers to. -/
def checkCapture (st : MatchState) (digit : UInt8) : Except Stop ℕ :=
  let n := digit.toNat - (ascii '0').toNat
  if n = 0 ∨ st.level ≤ n - 1 ∨ isUnfinished st (n - 1) then
    Except.error (Stop.error (PatError.invalidCaptureIndex n))
  else Except.ok (n - 1)

/-- `&src[a..b]`. -/
def slice (src : List UInt8) (a b : ℕ) : Except Stop (List UInt8) :=
  if a ≤ b ∧ b ≤ src.length then Except.ok ((src.take b).drop a) else Except.error Stop.outside

def matchCapture (src : List UInt8) (st : MatchState) (s : ℕ) (digit : UInt8) :
    Except Stop (Option ℕ) := do
  let l ← checkCapture st digit
  let c ← captureAt st l
  match c.len with
  | CapLen.len n =>
      if src.length < s then throw Stop.outside
      else if n ≤ src.length - s then
        let a ← slice src c.init (c.init + n)
        let b ← slice src s (s + n)
        pure (if a = b then some (s + n) else none)
      else pure none
  | _ => pure none

/-! ### The search -/

/-- An item with its suffix. -/
def matchDefault (doMatch : ℕ → ℕ → MatchM (Option ℕ)) (src pat : List UInt8) (s p : ℕ) :
    MatchM Step := do
  let ep ← lift (classend pat p)
  let suffix := pat[ep]?
  if ← lift (singleMatch src pat s p ep) then
    if suffix = some (ascii '?') then
      match ← doMatch (s + 1) (ep + 1) with
      | some r => pure (Step.done (some r))
      | none => pure (Step.init s (ep + 1))
    else if suffix = some (ascii '+') then
      let r ← maxExpand doMatch src pat (s + 1) p ep
      pure (Step.done r)
    else if suffix = some (ascii '*') then
      let r ← maxExpand doMatch src pat s p ep
      pure (Step.done r)
    else if suffix = some (ascii '-') then
      let r ← minExpand doMatch src pat p ep (src.length + 1) s
      pure (Step.done r)
    else pure (Step.init (s + 1) ep)
  else if suffix = some (ascii '*') ∨ suffix = some (ascii '?') ∨ suffix = some (ascii '-') then
    pure (Step.init s (ep + 1))
  else pure (Step.done none)

/-- The byte in front of a place. -/
def prevByte (src : List UInt8) (s : ℕ) : Except Stop UInt8 :=
  if s = 0 then Except.ok 0 else index src (s - 1)

/-- `%f`: the change from outside of a set to inside of it; both ends of the subject are zero. -/
def matchFrontier (src pat : List UInt8) (s fp : ℕ) : Except Stop Step := do
  if pat[fp]? ≠ some (ascii '[') then throw (Stop.error PatError.missingFrontierBracket)
  let ep ← classend pat fp
  let prev ← prevByte src s
  let cur := (src[s]?).getD 0
  if ← matchBracketClass prev pat fp (ep - 1) then pure (Step.done none)
  else if ← matchBracketClass cur pat fp (ep - 1) then pure (Step.init s ep)
  else pure (Step.done none)

/-- A round of the loop of `do_match`. -/
def matchStep (doMatch : ℕ → ℕ → MatchM (Option ℕ)) (src pat : List UInt8) (s p : ℕ) :
    MatchM Step :=
  match pat[p]? with
  | none => pure (Step.done (some s))
  | some c =>
      if c = ascii '(' then
        if pat[p + 1]? = some (ascii ')') then do
          let r ← startCapture doMatch s (p + 2) CapLen.position
          pure (Step.done r)
        else do
          let r ← startCapture doMatch s (p + 1) CapLen.unfinished
          pure (Step.done r)
      else if c = ascii ')' then do
        let r ← endCapture doMatch s (p + 1)
        pure (Step.done r)
      else if c = ascii '$' ∧ p + 1 = pat.length then
        pure (Step.done (if s = src.length then some s else none))
      else if c = L_ESC then
        match pat[p + 1]? with
        | some d =>
            if d = ascii 'b' then do
              match ← matchBalance src pat s (p + 2) with
              | some ns => pure (Step.init ns (p + 4))
              | none => pure (Step.done none)
            else if d = ascii 'f' then lift (matchFrontier src pat s (p + 2))
            else if isDigit d then do
              let st ← get
              match ← lift (matchCapture src st s d) with
              | some ns => pure (Step.init ns (p + 2))
              | none => pure (Step.done none)
            else matchDefault doMatch src pat s p
        | none => matchDefault doMatch src pat s p
      else matchDefault doMatch src pat s p

def matchLoop (doMatch : ℕ → ℕ → MatchM (Option ℕ)) (src pat : List UInt8) :
    ℕ → ℕ → ℕ → MatchM (Option ℕ)
  | 0, _, _ => fail Stop.fuel
  | fuel + 1, s, p => do
      match ← matchStep doMatch src pat s p with
      | Step.init s' p' => matchLoop doMatch src pat fuel s' p'
      | Step.done r => pure r

/-- `do_match`, with at most `fuel` calls open at a time. -/
def doMatch (src pat : List UInt8) : ℕ → ℕ → ℕ → MatchM (Option ℕ)
  | 0, _, _ => fail Stop.fuel
  | fuel + 1, s, p => do
      let st ← get
      if st.matchdepth = 0 then fail (Stop.error PatError.patternTooComplex)
      else
        modify fun st => { st with matchdepth := st.matchdepth - 1 }
        let r ← matchLoop (doMatch src pat fuel) src pat (pat.length + 1) s p
        modify fun st => { st with matchdepth := st.matchdepth + 1 }
        pure r

/-- `match_at`: the place behind the match, and the captures. -/
def matchAt (src pat : List UInt8) (s : ℕ) : MatchM (Option ℕ) := do
  modify fun st => { st with level := 0, matchdepth := MAX_CCALLS }
  doMatch src pat (MAX_CCALLS + 1) s 0

end Tcvm.Pattern
