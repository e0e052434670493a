/-
# Events and the tree they build

The events of a parse that lost no marker are described by `Nested`: tokens, tombstones of abandoned
markers, nodes around other events, and chains of nodes each of which precedes the one before it.
The description says at the same time which calls of the builder the sink makes of them.

## Main definitions

* `enters`, `exits` — how many nodes events start and finish;
* `Nested` — well-formed events, with the place of the last node of a chain;
* `depthAfter`, `Bracketed` — the nesting of builder calls, and a single root around them.

## Main results

* `Nested.balanced`, `Nested.depthAfter` — as many nodes are finished as are started, in nested
  order;
* `Nested.sink_append` — **the sink follows the chains** to the calls of the description;
* `sink_counts` — the sink starts and finishes every node of the events, whatever they are.
-/

import Tcvm.ParserState

namespace Tcvm.Parser

open SyntaxKind

/-! ### Counting -/

/-- An event that starts a node. -/
def Event.isEnter : Event → Bool
  | enter kind _ => decide (kind ≠ SyntaxKind.tombstone)
  | _ => false

def Event.isExit : Event → Bool
  | exit => true
  | _ => false

def enters (e : List Event) : ℕ := e.countP Event.isEnter

def exits (e : List Event) : ℕ := e.countP Event.isExit

@[simp] theorem enters_nil : enters [] = 0 := rfl

@[simp] theorem exits_nil : exits [] = 0 := rfl

@[simp] theorem enters_append (a b : List Event) : enters (a ++ b) = enters a + enters b :=
  List.countP_append

@[simp] theorem exits_append (a b : List Event) : exits (a ++ b) = exits a + exits b :=
  List.countP_append

@[simp] theorem enters_cons (x : Event) (a : List Event) :
    enters (x :: a) = enters a + if x.isEnter then 1 else 0 := List.countP_cons

@[simp] theorem exits_cons (x : Event) (a : List Event) :
    exits (x :: a) = exits a + if x.isExit then 1 else 0 := List.countP_cons

@[simp] theorem setPreceded_isEnter (d : ℕ) (x : Event) :
    (x.setPreceded d).isEnter = x.isEnter := by
  cases x <;> rfl

@[simp] theorem setPreceded_isExit (d : ℕ) (x : Event) : (x.setPreceded d).isExit = x.isExit := by
  cases x <;> rfl

/-- Let the event at a place point to a node that starts `d` events behind it. -/
def link (e : List Event) (pos d : ℕ) : List Event := e.modify pos (Event.setPreceded d)

@[simp] theorem link_length (e : List Event) (pos d : ℕ) : (link e pos d).length = e.length :=
  List.length_modify _ _ _

@[simp] theorem enters_link (e : List Event) (pos d : ℕ) : enters (link e pos d) = enters e := by
  induction e generalizing pos with
  | nil => simp [link]
  | cons x e ih =>
      cases pos with
      | zero => simp [link]
      | succ pos => simpa [link] using ih pos

@[simp] theorem exits_link (e : List Event) (pos d : ℕ) : exits (link e pos d) = exits e := by
  induction e generalizing pos with
  | nil => simp [link]
  | cons x e ih =>
      cases pos with
      | zero => simp [link]
      | succ pos => simpa [link] using ih pos

theorem link_append_left (a b : List Event) {pos : ℕ} (h : pos < a.length) (d : ℕ) :
    link (a ++ b) pos d = link a pos d ++ b := by
  induction a generalizing pos with
  | nil => simp at h
  | cons x a ih =>
      cases pos with
      | zero => rfl
      | succ pos =>
          have := ih (show pos < a.length by simpa using h)
          simpa [link] using this

theorem link_append_right (a b : List Event) (pos d : ℕ) :
    link (a ++ b) (a.length + pos) d = a ++ link b pos d := by
  induction a with
  | nil => simp
  | cons x a ih =>
      have hpos : (x :: a).length + pos = a.length + pos + 1 := by
        simp only [List.length_cons]
        omega
      rw [hpos]
      simpa [link] using ih

/-! ### Builder calls -/

def startNodes (kinds : List SyntaxKind) : List BuilderCall :=
  kinds.reverse.map BuilderCall.startNode

/-- The tokens that are added. -/
def callTokens : List BuilderCall → List Token
  | [] => []
  | BuilderCall.token kind span :: cs => { kind := kind, span := span } :: callTokens cs
  | _ :: cs => callTokens cs

@[simp] theorem callTokens_append (a b : List BuilderCall) :
    callTokens (a ++ b) = callTokens a ++ callTokens b := by
  induction a with
  | nil => rfl
  | cons c a ih => cases c <;> simp [callTokens, ih]

/-- The depth after calls from a depth; a node that is not open cannot be finished. -/
def depthAfter : List BuilderCall → ℕ → Option ℕ
  | [], d => some d
  | BuilderCall.startNode _ :: cs, d => depthAfter cs (d + 1)
  | BuilderCall.token _ _ :: cs, d => depthAfter cs d
  | BuilderCall.finishNode :: _, 0 => none
  | BuilderCall.finishNode :: cs, d + 1 => depthAfter cs d

/-- One root, with nested nodes inside it, and the tokens in order. -/
def Bracketed (calls : List BuilderCall) (tokens : List Token) : Prop :=
  ∃ inner, calls = BuilderCall.startNode root :: inner ++ [BuilderCall.finishNode] ∧
    depthAfter inner 0 = some 0 ∧ callTokens calls = tokens

def startCount (calls : List BuilderCall) : ℕ :=
  calls.countP fun c => match c with
    | BuilderCall.startNode _ => true
    | _ => false

def finishCount (calls : List BuilderCall) : ℕ :=
  calls.countP fun c => match c with
    | BuilderCall.finishNode => true
    | _ => false

/-- Nested calls finish what they start. -/
theorem depthAfter_counts {calls : List BuilderCall} {d d' : ℕ} (h : depthAfter calls d = some d') :
    startCount calls + d = finishCount calls + d' := by
  induction calls generalizing d with
  | nil =>
      cases h
      rfl
  | cons c calls ih =>
      cases c with
      | startNode k =>
          have := ih h
          simp [startCount, finishCount] at this ⊢
          omega
      | token k sp =>
          have := ih h
          simp [startCount, finishCount] at this ⊢
          omega
      | finishNode =>
          cases d with
          | zero => cases h
          | succ d =>
              have := ih h
              simp [startCount, finishCount] at this ⊢
              omega

/-! ### Nested events -/

/-- Events that lost no marker, with the calls they stand for.  Where a place is given, the events
are a chain of nodes, and the last of them starts at that place. -/
inductive Nested : Option ℕ → List Event → List BuilderCall → Prop
  | nil : Nested none [] []
  | token (t : Token) :
      Nested none [Event.token t.kind t.span] [BuilderCall.token t.kind t.span]
  | tombstone : Nested none [Event.tombstone] []
  | append {e e' : List Event} {c c' : List BuilderCall} (h : Nested none e c)
      (h' : Nested none e' c') : Nested none (e ++ e') (c ++ c')
  | node {e : List Event} {c : List BuilderCall} (kind : SyntaxKind)
      (hkind : kind ≠ SyntaxKind.tombstone) (h : Nested none e c) :
      Nested (some 0) (Event.enter kind 0 :: (e ++ [Event.exit]))
        (BuilderCall.startNode kind :: (c ++ [BuilderCall.finishNode]))
  | precede {pos : ℕ} {e e' : List Event} {c c' : List BuilderCall} (kind : SyntaxKind)
      (hkind : kind ≠ SyntaxKind.tombstone) (h : Nested (some pos) e c) (h' : Nested none e' c') :
      Nested (some e.length)
        (link e pos (e.length - pos) ++ Event.enter kind 0 :: (e' ++ [Event.exit]))
        (BuilderCall.startNode kind :: (c ++ (c' ++ [BuilderCall.finishNode])))
  | close {pos : ℕ} {e : List Event} {c : List BuilderCall} (h : Nested (some pos) e c) :
      Nested none e c

theorem Nested.balanced {o : Option ℕ} {e : List Event} {c : List BuilderCall}
    (h : Nested o e c) : exits e = enters e := by
  induction h with
  | nil => rfl
  | token t => rfl
  | tombstone => rfl
  | append h h' ih ih' =>
      rw [exits_append, enters_append, ih, ih']
  | node kind hkind h ih =>
      simp [Event.isEnter, Event.isExit, hkind, ih]
  | precede kind hkind h h' ih ih' =>
      simp [Event.isEnter, Event.isExit, hkind, ih, ih']
  | close h ih => exact ih

/-- Nested events build nested nodes. -/
theorem Nested.depthAfter {o : Option ℕ} {e : List Event} {c : List BuilderCall}
    (h : Nested o e c) (rest : List BuilderCall) (d : ℕ) :
    depthAfter (c ++ rest) d = Parser.depthAfter rest d := by
  induction h generalizing rest d with
  | nil => rfl
  | token t => rfl
  | tombstone => rfl
  | append h h' ih ih' => rw [List.append_assoc, ih, ih']
  | node kind hkind h ih =>
      rw [List.cons_append, List.append_assoc]
      show Parser.depthAfter (_ ++ ([BuilderCall.finishNode] ++ rest)) (d + 1) = _
      rw [ih]
      rfl
  | precede kind hkind h h' ih ih' =>
      rw [List.cons_append, List.append_assoc, List.append_assoc]
      show Parser.depthAfter (_ ++ (_ ++ ([BuilderCall.finishNode] ++ rest))) (d + 1) = _
      rw [ih, ih']
      rfl
  | close h ih => exact ih rest d

/-! ### The sink -/

/-- What the sink makes of a chain: it collects the kinds on the way to the last node, of which
only tombstones are left, and what is left is sunk as it stands. -/
structure ChainSunk (pos : ℕ) (e : List Event) (c : List BuilderCall) : Prop where
  inside : pos < e.length
  unlinked : link e pos 0 = e
  sunk : ∃ (k : SyntaxKind) (kinds : List SyntaxKind) (left : List Event)
    (calls : List BuilderCall),
    c = startNodes kinds ++ calls ∧ left.length + 1 = e.length ∧ k ≠ SyntaxKind.tombstone ∧
    kinds.length ≤ e.length ∧ 1 ≤ kinds.length ∧
    (∀ d, ∃ p body, link e pos d = Event.enter k p :: body ∧
      ∀ fuel rest, sinkChain (kinds.length - 1 + fuel) (Event.tombstone :: (body ++ rest)) 0 p [k] =
        sinkChain fuel (Event.tombstone :: (left ++ rest)) pos d kinds) ∧
    ∀ n rest, sink (left.length + n) (left ++ rest) = (sink n rest).map (calls ++ ·)

/-- What the sink makes of nested events. -/
def Sunk : Option ℕ → List Event → List BuilderCall → Prop
  | none, e, c => ∀ n rest, sink (e.length + n) (e ++ rest) = (sink n rest).map (c ++ ·)
  | some pos, e, c => ChainSunk pos e c

theorem sink_exit (n : ℕ) (rest : List Event) :
    sink (1 + n) (Event.exit :: rest) = (sink n rest).map ([BuilderCall.finishNode] ++ ·) := by
  rw [Nat.add_comm, sink]
  rfl

theorem sink_tombstone (n : ℕ) (rest : List Event) :
    sink (1 + n) (Event.tombstone :: rest) = sink n rest := by
  rw [Nat.add_comm, Event.tombstone, sink]
  simp

theorem map_append_calls (x : Option (List BuilderCall)) (a b : List BuilderCall) :
    (x.map (b ++ ·)).map (a ++ ·) = x.map (a ++ b ++ ·) := by
  cases x <;> simp

theorem sinkChain_zero (fuel : ℕ) (e : List Event) (idx : ℕ) (kinds : List SyntaxKind) :
    sinkChain fuel e idx 0 kinds = some (kinds, e) := by
  cases fuel <;> rfl

/-- The events of a node without its start. -/
theorem sunk_exit {e : List Event} {c : List BuilderCall} (h : Sunk none e c) (n : ℕ)
    (rest : List Event) :
    sink ((e ++ [Event.exit]).length + n) (e ++ [Event.exit] ++ rest) =
      (sink n rest).map (c ++ [BuilderCall.finishNode] ++ ·) := by
  have hlen : (e ++ [Event.exit]).length + n = e.length + (1 + n) := by
    simp
    omega
  rw [hlen, List.append_assoc, h]
  show (sink (1 + n) (Event.exit :: rest)).map _ = _
  rw [sink_exit, map_append_calls]

theorem chainSunk_node {e : List Event} {c : List BuilderCall} {kind : SyntaxKind}
    (hkind : kind ≠ SyntaxKind.tombstone) (h : Sunk none e c) :
    ChainSunk 0 (Event.enter kind 0 :: (e ++ [Event.exit]))
      (BuilderCall.startNode kind :: (c ++ [BuilderCall.finishNode])) where
  inside := by simp
  unlinked := rfl
  sunk := by
    refine ⟨kind, [kind], e ++ [Event.exit], c ++ [BuilderCall.finishNode], rfl, rfl,
      hkind, by simp,
      Nat.le_refl _, ?_, sunk_exit h⟩
    intro d
    refine ⟨d, e ++ [Event.exit], rfl, ?_⟩
    intro fuel rest
    simp

theorem chainSunk_precede {pos : ℕ} {e e' : List Event} {c c' : List BuilderCall}
    {kind : SyntaxKind} (hkind : kind ≠ SyntaxKind.tombstone) (h : ChainSunk pos e c)
    (h' : Sunk none e' c') :
    ChainSunk e.length (link e pos (e.length - pos) ++ Event.enter kind 0 :: (e' ++ [Event.exit]))
      (BuilderCall.startNode kind :: (c ++ (c' ++ [BuilderCall.finishNode]))) := by
  obtain ⟨k, kinds, left, calls, rfl, hleft, hk, hkinds, hpos, hwalk, hsink⟩ := h.sunk
  have hinside := h.inside
  obtain ⟨p, body, hbody, hchain⟩ := hwalk (e.length - pos)
  -- linking the new node touches only its own event
  have hlink : ∀ d, link (link e pos (e.length - pos) ++
      Event.enter kind 0 :: (e' ++ [Event.exit])) e.length d =
        link e pos (e.length - pos) ++ Event.enter kind d :: (e' ++ [Event.exit]) := by
    intro d
    have := link_append_right (link e pos (e.length - pos))
      (Event.enter kind 0 :: (e' ++ [Event.exit])) 0 d
    rw [link_length] at this
    exact this
  refine ⟨by simp, hlink 0, k, kinds ++ [kind], left ++ Event.tombstone :: (e' ++ [Event.exit]),
    calls ++ (c' ++ [BuilderCall.finishNode]), ?_, ?_, hk, ?_, by simp, ?_, ?_⟩
  · simp [startNodes]
  · simp
    omega
  · simp
    omega
  · intro d
    refine ⟨p, body ++ Event.enter kind d :: (e' ++ [Event.exit]), ?_, ?_⟩
    · rw [hlink, hbody]
      rfl
    · intro fuel rest
      have hsteps : (kinds ++ [kind]).length - 1 + fuel = kinds.length - 1 + (fuel + 1) := by
        simp
        omega
      have hgap : e.length - pos = e.length - pos - 1 + 1 := by omega
      rw [hsteps, List.append_assoc, hchain, hgap, sinkChain, ← hgap]
      have hat : pos + (e.length - pos) = (Event.tombstone :: left).length := by
        simp
        omega
      have hget : (Event.tombstone :: (left ++ (Event.enter kind d :: (e' ++ [Event.exit]) ++
          rest)))[pos + (e.length - pos)]? = some (Event.enter kind d) := by
        rw [hat, ← List.cons_append, List.getElem?_append_right (Nat.le_refl _)]
        simp
      have hset : (Event.tombstone :: (left ++ (Event.enter kind d :: (e' ++ [Event.exit]) ++
          rest))).set (pos + (e.length - pos)) Event.tombstone =
          Event.tombstone :: (left ++ Event.tombstone :: (e' ++ [Event.exit]) ++ rest) := by
        rw [hat, ← List.cons_append, List.set_append_right _ _ (Nat.le_refl _)]
        simp
      rw [hget]
      dsimp only
      rw [hset, if_neg hkind, show pos + (e.length - pos) = e.length by omega]
  · intro n rest
    have hlen : (left ++ Event.tombstone :: (e' ++ [Event.exit])).length + n =
        left.length + (1 + ((e' ++ [Event.exit]).length + n)) := by
      simp
      omega
    rw [hlen, List.append_assoc, hsink, List.cons_append, sink_tombstone, sunk_exit h',
      map_append_calls]

/-- The sink of a whole chain. -/
theorem ChainSunk.close {pos : ℕ} {e : List Event} {c : List BuilderCall}
    (h : ChainSunk pos e c) : Sunk none e c := by
  obtain ⟨k, kinds, left, calls, rfl, hleft, hk, hkinds, hpos, hwalk, hsink⟩ := h.sunk
  obtain ⟨p, body, hbody, hchain⟩ := hwalk 0
  rw [h.unlinked] at hbody
  subst hbody
  intro n rest
  have hlen : (Event.enter k p :: body).length + n = left.length + n + 1 := by
    simp at hleft ⊢
    omega
  have hfuel : (body ++ rest).length + 1 =
      kinds.length - 1 + ((body ++ rest).length + 1 - (kinds.length - 1)) := by
    simp at hkinds ⊢
    omega
  rw [hlen, List.cons_append, sink, if_neg (by simp [hk]), hfuel, hchain, sinkChain_zero]
  show (sink (left.length + n) (left ++ rest)).map _ = _
  rw [hsink, map_append_calls]
  rfl

theorem Nested.sunk {o : Option ℕ} {e : List Event} {c : List BuilderCall} (h : Nested o e c) :
    Sunk o e c := by
  induction h with
  | nil =>
      intro n rest
      simp
  | token t =>
      intro n rest
      rw [Nat.add_comm]
      rfl
  | tombstone =>
      intro n rest
      show sink (1 + n) (Event.tombstone :: rest) = _
      rw [sink_tombstone]
      simp
  | append h h' ih ih' =>
      intro n rest
      rw [List.length_append, Nat.add_assoc, List.append_assoc, ih, ih', map_append_calls]
  | node kind hkind h ih => exact chainSunk_node hkind ih
  | precede kind hkind h h' ih ih' => exact chainSunk_precede hkind ih ih'
  | close h ih => exact ih.close

/-- **The sink follows the chains** of nested events. -/
theorem Nested.sink_eq {e : List Event} {c : List BuilderCall} (h : Nested none e c) :
    sink e.length e = some c := by
  have := h.sunk 0 []
  simpa [sink] using this

/-! ### Counting the calls of the sink -/

theorem startCount_append (a b : List BuilderCall) :
    startCount (a ++ b) = startCount a + startCount b := List.countP_append

theorem finishCount_append (a b : List BuilderCall) :
    finishCount (a ++ b) = finishCount a + finishCount b := List.countP_append

theorem startCount_startNodes (kinds : List SyntaxKind) :
    startCount (startNodes kinds) = kinds.length := by
  rw [startCount, startNodes, List.countP_map, ← List.length_reverse]
  exact List.countP_eq_length.mpr (fun _ _ => rfl)

theorem finishCount_startNodes (kinds : List SyntaxKind) : finishCount (startNodes kinds) = 0 := by
  rw [finishCount, startNodes, List.countP_map]
  exact List.countP_eq_zero.mpr (fun _ _ => by simp)

theorem enters_set_tombstone {e : List Event} {i d : ℕ} {k : SyntaxKind}
    (h : e[i]? = some (Event.enter k d)) :
    enters e = enters (e.set i Event.tombstone) + if k = SyntaxKind.tombstone then 0 else 1 := by
  induction e generalizing i with
  | nil => simp at h
  | cons x e ih =>
      cases i with
      | zero =>
          obtain rfl : x = Event.enter k d := by simpa using h
          by_cases hk : k = SyntaxKind.tombstone <;> simp [Event.isEnter, Event.tombstone, hk]
      | succ i =>
          have := ih (show e[i]? = _ by simpa using h)
          simp only [List.set_cons_succ, enters_cons]
          omega

theorem exits_set_tombstone {e : List Event} {i d : ℕ} {k : SyntaxKind}
    (h : e[i]? = some (Event.enter k d)) : exits (e.set i Event.tombstone) = exits e := by
  induction e generalizing i with
  | nil => simp at h
  | cons x e ih =>
      cases i with
      | zero =>
          obtain rfl : x = Event.enter k d := by simpa using h
          rfl
      | succ i =>
          have := ih (show e[i]? = _ by simpa using h)
          simp only [List.set_cons_succ, exits_cons]
          omega

/-- A chain takes as many nodes as it collects, and none in front of its first link. -/
theorem sinkChain_counts {fuel idx d : ℕ} {e e' : List Event} {kinds kinds' : List SyntaxKind}
    (h : sinkChain fuel e idx d kinds = some (kinds', e')) :
    enters e + kinds.length = enters e' + kinds'.length ∧ exits e' = exits e ∧
      e'.head? = e.head? := by
  induction fuel generalizing idx d e kinds with
  | zero =>
      cases d with
      | zero =>
          cases h
          exact ⟨rfl, rfl, rfl⟩
      | succ d => cases h
  | succ fuel ih =>
      cases d with
      | zero =>
          cases h
          exact ⟨rfl, rfl, rfl⟩
      | succ d =>
          rw [sinkChain] at h
          split at h
          case h_1 kind d' hget =>
            obtain ⟨henters, hexits, hhead⟩ := ih h
            have hset := enters_set_tombstone hget
            rw [exits_set_tombstone hget] at hexits
            refine ⟨?_, hexits, ?_⟩
            · by_cases hk : kind = SyntaxKind.tombstone
              · rw [if_pos hk] at henters hset
                omega
              · rw [if_neg hk] at henters hset
                rw [List.length_append, List.length_singleton] at henters
                omega
            · rw [hhead]
              cases e <;> rfl
          case h_2 => cases h

/-- **The sink starts and finishes every node** of the events, whatever they are. -/
theorem sink_counts {fuel : ℕ} {e : List Event} {calls : List BuilderCall}
    (h : sink fuel e = some calls) :
    enters e ≤ startCount calls ∧ finishCount calls = exits e := by
  induction fuel generalizing e calls with
  | zero =>
      cases e with
      | nil =>
          cases h
          exact ⟨Nat.le_refl _, rfl⟩
      | cons x e => cases h
  | succ fuel ih =>
      cases e with
      | nil =>
          cases h
          exact ⟨Nat.le_refl _, rfl⟩
      | cons x e =>
          cases x with
          | exit =>
              obtain ⟨calls', hcalls, rfl⟩ := Option.map_eq_some_iff.mp h
              obtain ⟨hstart, hfinish⟩ := ih hcalls
              simp [startCount, finishCount, Event.isEnter, Event.isExit] at hstart hfinish ⊢
              exact ⟨hstart, hfinish⟩
          | token kind span =>
              obtain ⟨calls', hcalls, rfl⟩ := Option.map_eq_some_iff.mp h
              obtain ⟨hstart, hfinish⟩ := ih hcalls
              simp [startCount, finishCount, Event.isEnter, Event.isExit] at hstart hfinish ⊢
              exact ⟨hstart, hfinish⟩
          | enter kind d =>
              rw [sink] at h
              split at h
              case isTrue htomb =>
                obtain ⟨hstart, hfinish⟩ := ih h
                simp [Event.isEnter, Event.isExit, htomb.1] at hstart hfinish ⊢
                exact ⟨hstart, hfinish⟩
              case isFalse htomb =>
                obtain ⟨⟨kinds, e'⟩, hchain, hmap⟩ := Option.bind_eq_some_iff.mp h
                obtain ⟨calls', hcalls, rfl⟩ := Option.map_eq_some_iff.mp hmap
                obtain ⟨henters, hexits, hhead⟩ := sinkChain_counts hchain
                obtain ⟨hstart, hfinish⟩ := ih hcalls
                cases e' with
                | nil => cases hhead
                | cons y e' =>
                    obtain rfl : y = Event.tombstone := Option.some.inj hhead
                    have hkinds : startCount (startNodes kinds) = kinds.length :=
                      startCount_startNodes kinds
                    have hzero : finishCount (startNodes kinds) = 0 := finishCount_startNodes kinds
                    rw [← startNodes, startCount_append, finishCount_append, hkinds, hzero]
                    simp [Event.isEnter, Event.isExit, Event.tombstone] at henters hexits ⊢
                    simp only [List.tail_cons] at hstart hfinish
                    constructor
                    · split <;> omega
                    · omega

end Tcvm.Parser
