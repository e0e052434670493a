/-
The functions that search a string for a pattern.

`find` and `match` try one place after the other, `gmatch` goes on where its last match ended, and
`gsub` is written twice: with a template it is done at once, with a function or a table it calls
back for each match.  Without magic characters `find` looks for the bytes of the pattern.

* `nospecials`, `plainFind` — the search without a matcher;
* `numCaptures`, `getOnecapture` — reading the captures of a match;
* `luaFind`, `luaMatch` — one match;
* `gmatchAux`, `gmatchAll` — an iterator, and the loop over it;
* `gsubString`, `gsubRun` — replacing by a template, and by calls.
-/

import Tcvm.PatternReuse
import Tcvm.Scanning

namespace Tcvm.Pattern

/-! ### Plain search -/

/-- The magic characters. -/
def SPECIALS : List UInt8 := "^$*+?.([%-".toList.map ascii

def nospecials (pat : List UInt8) : Bool := !pat.any fun b => SPECIALS.contains b

/-- The loop of `plain_find`. -/
def plainFindLoop (hay needle : List UInt8) (first : UInt8) (lastStart : ℕ) :
    ℕ → ℕ → Except Stop (Option ℕ)
  | 0, _ => Except.error Stop.fuel
  | fuel + 1, i =>
      if i ≤ lastStart then do
        let b ← index hay i
        if b = first then
          let window ← slice hay i (i + needle.length)
          if window = needle then pure (some i)
          else plainFindLoop hay needle first lastStart fuel (i + 1)
        else plainFindLoop hay needle first lastStart fuel (i + 1)
      else pure none

def plainFind (hay needle : List UInt8) : Except Stop (Option ℕ) :=
  if needle = [] then pure (some 0)
  else if hay.length < needle.length then pure none
  else do
    let first ← index needle 0
    plainFindLoop hay needle first (hay.length - needle.length) (hay.length + 2) 0

/-! ### Captures of a match -/

/-- A capture: a part of the subject, or a place. -/
inductive CapValue
  | str (start stop : ℕ)
  | pos (n : ℕ)
  deriving DecidableEq

def numCaptures (st : MatchState) (hasWhole : Bool) : ℕ :=
  if st.level = 0 && hasWhole then 1 else st.level

/-- A capture of the match from `ws` to `we`; the first one of none is the whole match. -/
def getOnecapture (st : MatchState) (i ws we : ℕ) : Except Stop CapValue :=
  if st.level ≤ i then
    if i ≠ 0 then Except.error (Stop.error (PatError.invalidCaptureIndex (i + 1)))
    else Except.ok (CapValue.str ws we)
  else do
    let c ← captureAt st i
    match c.len with
    | CapLen.unfinished => Except.error (Stop.error PatError.unfinishedCapture)
    | CapLen.position => pure (CapValue.pos (c.init + 1))
    | CapLen.len n => pure (CapValue.str c.init (c.init + n))

/-- The captures of a match, in order. -/
def captures (st : MatchState) (n ws we : ℕ) : Except Stop (List CapValue) :=
  (List.range n).mapM fun i => getOnecapture st i ws we

/-! ### One match -/

/-- `init_pos`. -/
def initPos (pos : ℤ) (len : ℕ) : Option ℕ :=
  let oneBased : ℕ := if 0 < pos then pos.toNat else if pos = 0 ∨ pos < -len then 1
    else (len + pos + 1).toNat
  let init := oneBased - 1
  if init ≤ len then some init else none

/-- Whether a pattern is anchored, and what is left of it then. -/
def anchored (pat : List UInt8) : Bool := pat.head? = some (ascii '^')

def body (pat : List UInt8) : List UInt8 := if anchored pat then pat.drop 1 else pat

/-- The loop of `find` and `match`: the first place with a match, its end, and the matcher. -/
def findLoop (src body : List UInt8) (anchor : Bool) :
    ℕ → MatchState → ℕ → Except Stop (Option (ℕ × ℕ × MatchState))
  | 0, _, _ => Except.error Stop.fuel
  | fuel + 1, st, s => do
      let (r, st) ← (matchAt src body s st).2
      match r with
      | some e => pure (some (s, e, st))
      | none =>
          if anchor || src.length ≤ s then pure none
          else findLoop src body anchor fuel st (s + 1)

/-- A match that is found, by the numbers of its first and its last byte. -/
structure Found where
  start : ℕ
  stop : ℕ
  caps : List CapValue
  deriving DecidableEq

def luaFind (src pat : List UInt8) (initRaw : ℤ) (plain : Bool) : Except Stop (Option Found) :=
  match initPos initRaw src.length with
  | none => pure none
  | some init =>
      if plain || nospecials pat then do
        match ← plainFind (src.drop init) pat with
        | some off => pure (some ⟨init + off + 1, init + off + pat.length, []⟩)
        | none => pure none
      else do
        match ← findLoop src (body pat) (anchored pat) (src.length + 1) MatchState.new init with
        | some (s, e, st) => do
            let caps ← captures st (numCaptures st false) s e
            pure (some ⟨s + 1, e, caps⟩)
        | none => pure none

def luaMatch (src pat : List UInt8) (initRaw : ℤ) : Except Stop (Option (List CapValue)) :=
  match initPos initRaw src.length with
  | none => pure none
  | some init => do
      match ← findLoop src (body pat) (anchored pat) (src.length + 1) MatchState.new init with
      | some (s, e, st) => do
          let caps ← captures st (numCaptures st true) s e
          pure (some caps)
      | none => pure none

/-! ### `gmatch` -/

/-- What an iterator keeps: where to go on, and where the last match ended. -/
structure GmatchState where
  pos : ℕ
  lastmatch : Option ℕ

/-- The loop of a step of the iterator, with the places of the match. -/
def gmatchLoop (src pat : List UInt8) (lastmatch : Option ℕ) :
    ℕ → MatchState → ℕ → Except Stop (Option (ℕ × ℕ × List CapValue))
  | 0, _, _ => Except.error Stop.fuel
  | fuel + 1, st, srcPos =>
      if src.length < srcPos then pure none
      else do
        let (r, st) ← (matchAt src pat srcPos st).2
        match r with
        | some e =>
            if some e ≠ lastmatch then do
              let caps ← captures st (numCaptures st true) srcPos e
              pure (some (srcPos, e, caps))
            else gmatchLoop src pat lastmatch fuel st (srcPos + 1)
        | none => gmatchLoop src pat lastmatch fuel st (srcPos + 1)

/-- One step of an iterator. -/
def gmatchAux (src pat : List UInt8) (g : GmatchState) :
    Except Stop (Option (ℕ × ℕ × List CapValue) × GmatchState) := do
  match ← gmatchLoop src pat g.lastmatch (src.length + 2) MatchState.new g.pos with
  | some (s, e, caps) => pure (some (s, e, caps), { pos := e, lastmatch := some e })
  | none => pure (none, g)

/-- The matches that a loop over an iterator sees. -/
def gmatchRun (src pat : List UInt8) : ℕ → GmatchState → Except Stop (List (ℕ × ℕ × List CapValue))
  | 0, _ => Except.error Stop.fuel
  | fuel + 1, g => do
      let (r, g) ← gmatchAux src pat g
      match r with
      | some found => do
          let rest ← gmatchRun src pat fuel g
          pure (found :: rest)
      | none => pure []

/-- `for … in string.gmatch(src, pat, init)`. -/
def gmatchAll (src pat : List UInt8) (initRaw : ℤ) : Except Stop (List (ℕ × ℕ × List CapValue)) :=
  gmatchRun src pat (src.length + 2)
    { pos := (initPos initRaw src.length).getD (src.length + 1), lastmatch := none }

/-! ### `gsub` -/

/-- Why a replacement fails. -/
inductive StringError (ε : Type)
  | pattern (e : Stop)
  | replacement
  | callee (e : ε)
  deriving DecidableEq

/-- An error of the matcher. -/
def fromPattern {ε α : Type} (x : Except Stop α) : Except (StringError ε) α :=
  x.mapError StringError.pattern

/-- The digits of a number. -/
def pushInt (n : ℕ) : List UInt8 := (Nat.toDigits 10 n).map ascii

/-- `add_s`: the template for the match from `s` to `e`. -/
def addS {ε : Type} (src : List UInt8) (st : MatchState) (s e : ℕ) :
    List UInt8 → List UInt8 → Except (StringError ε) (List UInt8)
  | [], out => Except.ok out
  | [b], out => if b ≠ ascii '%' then Except.ok (out ++ [b])
      else Except.error StringError.replacement
  | b :: c :: template, out =>
      if b ≠ ascii '%' then addS src st s e (c :: template) (out ++ [b])
      else if c = ascii '%' then addS src st s e template (out ++ [ascii '%'])
      else if c = ascii '0' then do
        let whole ← fromPattern (slice src s e)
        addS src st s e template (out ++ whole)
      else if isDigit c then do
        match ← fromPattern (getOnecapture st (c.toNat - (ascii '1').toNat) s e) with
        | CapValue.str start stop => do
            let text ← fromPattern (slice src start stop)
            addS src st s e template (out ++ text)
        | CapValue.pos n => addS src st s e template (out ++ pushInt n)
      else Except.error StringError.replacement

/-- What the loops of `gsub` keep. -/
structure GsubState where
  out : List UInt8
  pos : ℕ
  lastmatch : Option ℕ
  count : ℕ

/-- A byte of the subject is copied, unless it is at its end. -/
def copyByte {ε : Type} (src : List UInt8) (g : GsubState) :
    Except (StringError ε) (Option GsubState) :=
  if g.pos < src.length then do
    let b ← fromPattern (index src g.pos)
    pure (some { g with out := g.out ++ [b], pos := g.pos + 1 })
  else pure none

/-- What is left of the subject. -/
def finish {ε : Type} (src : List UInt8) (g : GsubState) :
    Except (StringError ε) (List UInt8 × ℕ) := do
  let rest ← fromPattern (slice src g.pos src.length)
  pure (g.out ++ rest, g.count)

/-- A round of `gsub_string`; `none` at the end of the subject. -/
def gsubStringRound (src body template : List UInt8) (st : MatchState) (g : GsubState) :
    Except (StringError Empty) (Option GsubState × MatchState) := do
  let (r, st) ← fromPattern (matchAt src body g.pos st).2
  match r with
  | some e =>
      if some e ≠ g.lastmatch then do
        let out ← addS src st g.pos e template g.out
        pure (some { out := out, pos := e, lastmatch := some e, count := g.count + 1 }, st)
      else do
        let next ← copyByte src g
        pure (next, st)
  | none => do
      let next ← copyByte src g
      pure (next, st)

def gsubStringLoop (src body template : List UInt8) (anchor : Bool) (maxN : ℤ) :
    ℕ → MatchState → GsubState → Except (StringError Empty) (List UInt8 × ℕ)
  | 0, _, _ => Except.error (StringError.pattern Stop.fuel)
  | fuel + 1, st, g =>
      if (g.count : ℤ) < maxN then do
        let (next, st) ← gsubStringRound src body template st g
        match next with
        | some g' =>
            if anchor then finish src g'
            else gsubStringLoop src body template anchor maxN fuel st g'
        | none => finish src g
      else finish src g

/-- `gsub` with a template: the new string, and the number of replacements. -/
def gsubString (src pat template : List UInt8) (maxN : ℤ) :
    Except (StringError Empty) (List UInt8 × ℕ) :=
  gsubStringLoop src (body pat) template (anchored pat) maxN (2 * src.length + 4) MatchState.new
    { out := [], pos := 0, lastmatch := none, count := 0 }

/-- A capture with its bytes. -/
inductive OwnedCap
  | bytes (b : List UInt8)
  | pos (n : ℕ)
  deriving DecidableEq

inductive ReplResult
  | keep
  | bytes (b : List UInt8)

/-- A function or a table, in a world `σ`. -/
inductive Repl (σ ε : Type)
  | func (call : List OwnedCap → σ → Except ε (ReplResult × σ))
  | table (index : OwnedCap → σ → Except ε (ReplResult × σ))

inductive GsubStep
  | replace (whole : List UInt8) (caps : List OwnedCap) (e : ℕ)
  | skipChar
  | finished

def ownCap (src : List UInt8) : CapValue → Except Stop OwnedCap
  | CapValue.str start stop => (slice src start stop).map OwnedCap.bytes
  | CapValue.pos n => Except.ok (OwnedCap.pos n)

variable {σ ε : Type}

def Repl.isFunc : Repl σ ε → Bool
  | Repl.func _ => true
  | Repl.table _ => false

/-- The matching part of a round of `gsub_run`, with a matcher of its own. -/
def gsubMatch (src body : List UInt8) (isFunc : Bool) (g : GsubState) : Except Stop GsubStep := do
  let (r, st) ← (matchAt src body g.pos MatchState.new).2
  let skip := if g.pos < src.length then GsubStep.skipChar else GsubStep.finished
  match r with
  | some e =>
      if some e ≠ g.lastmatch then do
        let n := if isFunc then numCaptures st true else 1
        let caps ← (List.range n).mapM fun i => getOnecapture st i g.pos e >>= ownCap src
        let whole ← slice src g.pos e
        pure (GsubStep.replace whole caps e)
      else pure skip
  | none => pure skip

/-- The call for a match; a table is indexed by the first capture. -/
def Repl.apply (repl : Repl σ ε) (caps : List OwnedCap) (w : σ) :
    Except (StringError ε) (ReplResult × σ) :=
  match repl with
  | Repl.func call => (call caps w).mapError StringError.callee
  | Repl.table index =>
      match caps.head? with
      | some first => (index first w).mapError StringError.callee
      | none => Except.error (StringError.pattern Stop.outside)

def gsubRunLoop (src body : List UInt8) (repl : Repl σ ε) (anchor : Bool) (maxN : ℤ) :
    ℕ → GsubState → σ → Except (StringError ε) ((List UInt8 × ℕ) × σ)
  | 0, _, _ => Except.error (StringError.pattern Stop.fuel)
  | fuel + 1, g, w =>
      if (g.count : ℤ) < maxN then do
        match ← fromPattern (gsubMatch src body repl.isFunc g) with
        | GsubStep.replace whole caps e => do
            let (res, w) ← repl.apply caps w
            let bytes := match res with
              | ReplResult.keep => whole
              | ReplResult.bytes b => b
            let g' := { out := g.out ++ bytes, pos := e, lastmatch := some e, count := g.count + 1 }
            if anchor then (finish src g').map fun r => (r, w)
            else gsubRunLoop src body repl anchor maxN fuel g' w
        | GsubStep.skipChar => do
            let b ← fromPattern (index src g.pos)
            let g' := { g with out := g.out ++ [b], pos := g.pos + 1 }
            if anchor then (finish src g').map fun r => (r, w)
            else gsubRunLoop src body repl anchor maxN fuel g' w
        | GsubStep.finished => (finish src g).map fun r => (r, w)
      else (finish src g).map fun r => (r, w)

/-- `gsub` with a function or a table. -/
def gsubRun (src pat : List UInt8) (repl : Repl σ ε) (maxN : ℤ) (w : σ) :
    Except (StringError ε) ((List UInt8 × ℕ) × σ) :=
  gsubRunLoop src (body pat) repl (anchored pat) maxN (2 * src.length + 4)
    { out := [], pos := 0, lastmatch := none, count := 0 } w

end Tcvm.Pattern
