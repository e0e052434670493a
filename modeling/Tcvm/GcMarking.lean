/-
Marking.

Each operation that shades a box keeps the colours and the queues in order, and never fails on a
pointer that is safe.  The box that `mark_one` traces is black before its value is shaded; until
then it is the hole of the invariant.

* `Context.Marks.recolor` — **one box is shaded**;
* `Context.Traces` — what a `trace` does: it only shades the ends of the pointers it visits;
* `Context.tracePointer_spec`, `Context.traceValue_spec` — a `trace`;
* `Context.makeGrayAgain_spec`, `Context.resurrect_spec` — a black box turns gray, a white one does;
* `Context.MarkedOne`, `Context.markOne_spec` — **one unit of marking**.
-/

import Tcvm.GcInvariant

namespace Tcvm.Dmm

namespace Context

/-! ### One box is shaded -/

section Recolor

variable {cx : Context} {p : GcBox} {b : GcBoxInner}

/-- Only the colour of `p` has changed. -/
theorem setColor_recolors (hp : cx.heap p = some b) (c : GcColor) :
    Recolors cx (cx.setColor p b c) := by
  refine ⟨rfl, rfl, rfl, rfl, rfl, fun q => ?_⟩
  rw [setColor_heap]
  split
  · next heq =>
      rw [heq, hp]
      rfl
  · rfl

/-- Boxes stay, and what is gray or black stays at least gray. -/
def Darkens (cx cx' : Context) : Prop :=
  ∀ p b, cx.heap p = some b → ∃ b', cx'.heap p = some b' ∧ min b.color.rank 2 ≤ b'.color.rank

theorem Darkens.trans {cx cx' cx'' : Context} (h : Darkens cx cx') (h' : Darkens cx' cx'') :
    Darkens cx cx'' := by
  intro p b hb
  obtain ⟨b', hb', hle⟩ := h p b hb
  obtain ⟨b'', hb'', hle'⟩ := h' p b' hb'
  exact ⟨b'', hb'', by omega⟩

/-- What is shaded stays shaded. -/
theorem Darkens.shaded {cx cx' : Context} (h : Darkens cx cx') {q : Pointer}
    (hq : cx.Shaded q) : cx'.Shaded q := by
  cases q with
  | gc p =>
      obtain ⟨b, hb, hrank⟩ := hq
      obtain ⟨b', hb', hle⟩ := h p b hb
      exact ⟨b', hb', by omega⟩
  | weak p =>
      obtain ⟨b, hb, hrank⟩ := hq
      obtain ⟨b', hb', hle⟩ := h p b hb
      exact ⟨b', hb', by omega⟩

theorem setColor_darkens (hp : cx.heap p = some b) {c : GcColor}
    (hdarker : min b.color.rank 2 ≤ c.rank) : Darkens cx (cx.setColor p b c) := by
  intro q bq hq
  rw [setColor_heap]
  split
  · next heq =>
      subst heq
      obtain rfl := Option.some.inj (hp.symm.trans hq)
      exact ⟨_, rfl, hdarker⟩
  · exact ⟨bq, hq, min_le_left ..⟩

/-- **One box is shaded.**  Its new colour is told apart by the queues; a box that turns black is
the hole, or its value is shaded. -/
theorem Marks.recolor {root : List Pointer} {swept g k : List GcBox} {hole hole' : Option GcBox}
    {c : GcColor} (h : Marks cx root swept hole) (hphase : cx.phase = .mark)
    (hp : cx.heap p = some b) (hdarker : min b.color.rank 2 ≤ c.rank)
    (hlive : 2 ≤ c.rank → b.isLive = true)
    (hblack : c = .black → some p = hole' ∨ ∀ q ∈ b.value, cx.Shaded q)
    (hhole : ∀ r, r ≠ p → some r ≠ hole' → some r ≠ hole)
    (hqueue : ∀ r, r ∈ g ++ k ↔ if r = p then c = .gray else r ∈ cx.gray ++ cx.grayAgain)
    (hnodup : (g ++ k).Nodup) :
    Marks { cx.setColor p b c with gray := g, grayAgain := k } root swept hole' := by
  have hshaded : ∀ q, cx.Shaded q → (cx.setColor p b c).Shaded q :=
    fun q => (setColor_darkens hp hdarker).shaded
  have hheap : ∀ q, (cx.setColor p b c).heap q =
      if q = p then some { b with color := c } else cx.heap q := fun q => setColor_heap ..
  refine ⟨fun r => ?_, hnodup, fun r br hr hrank => ?_, fun hne => absurd hphase hne,
    fun hne => absurd hphase hne, fun _ r br hr hcolor hne => ?_, fun hmark hroot q hq => ?_,
    fun hsleep => absurd (hphase.symm.trans hsleep) (by decide), h.open'⟩
  · rw [hqueue]
    show _ ↔ ∃ br, (cx.setColor p b c).heap r = some br ∧ _
    rw [hheap]
    split
    · exact ⟨fun hc => ⟨_, rfl, hc⟩, fun ⟨br, hbr, hcolor⟩ => by
        obtain rfl := Option.some.inj hbr
        exact hcolor⟩
    · exact h.grays r
  · have hr' := (hheap r).symm.trans hr
    split at hr'
    · obtain rfl := Option.some.inj hr'
      exact hlive hrank
    · exact h.live r br hr' hrank
  · have hr' := (hheap r).symm.trans hr
    split at hr'
    · next heq =>
        subst heq
        obtain rfl := Option.some.inj hr'
        rcases hblack hcolor with heq | hvalue
        · exact absurd heq hne
        · exact fun q hq => hshaded q (hvalue q hq)
    · next heq =>
        exact fun q hq =>
          hshaded q (h.tricolor hphase r br hr' hcolor (hhole r heq hne) q hq)
  · exact hshaded q (h.root hmark hroot q hq)

/-- The value of the hole is shaded: the hole is closed. -/
theorem Marks.fill {root : List Pointer} {swept : List GcBox} (h : Marks cx root swept (some p))
    (hp : cx.heap p = some b) (hvalue : ∀ q ∈ b.value, cx.Shaded q) :
    Marks cx root swept none := by
  refine { h with tricolor := fun hphase r br hr hcolor _ => ?_ }
  rcases eq_or_ne r p with rfl | hne
  · obtain rfl := Option.some.inj (hp.symm.trans hr)
    exact hvalue
  · exact h.tricolor hphase r br hr hcolor (fun heq => hne (Option.some.inj heq))

/-- A box that is white is in no queue. -/
theorem Marks.notMem {root : List Pointer} {swept : List GcBox} {hole : Option GcBox}
    (h : Marks cx root swept hole) (hp : cx.heap p = some b) (hcolor : b.color ≠ .gray) :
    p ∉ cx.gray ++ cx.grayAgain := by
  intro hmem
  obtain ⟨b', hb', hgray⟩ := (h.grays p).1 hmem
  obtain rfl := Option.some.inj (hp.symm.trans hb')
  exact hcolor hgray

end Recolor

/-! ### Traces -/

/-- A `trace` shades the ends of the pointers that it visits, and nothing else.  It blackens only
what needs no trace. -/
structure Traces (targets : List Pointer) (cx cx' : Context) : Prop extends Recolors cx cx' where
  rootNeedsTrace : cx'.rootNeedsTrace = cx.rootNeedsTrace
  darker : ∀ p b, cx.heap p = some b → ∃ c, cx'.heap p = some { b with color := c } ∧
    b.color.rank ≤ c.rank ∧ (c = .black → b.color = .black ∨ b.needsTrace = false) ∧
    (c = b.color ∨ .gc p ∈ targets ∨ (.weak p ∈ targets ∧ c = .whiteWeak))

namespace Traces

variable {l l' : List Pointer} {cx cx' cx'' : Context}

theorem refl (l : List Pointer) (cx : Context) : Traces l cx cx :=
  ⟨Recolors.refl cx, rfl, fun _ b hb => ⟨b.color, hb, le_rfl, Or.inl, Or.inl rfl⟩⟩

theorem trans (h : Traces l cx cx') (h' : Traces l' cx' cx'') : Traces (l ++ l') cx cx'' := by
  refine ⟨h.toRecolors.trans h'.toRecolors, h'.rootNeedsTrace.trans h.rootNeedsTrace,
    fun p b hb => ?_⟩
  obtain ⟨c, hc, hle, hleaf, hwhy⟩ := h.darker p b hb
  obtain ⟨c', hc', hle', hleaf', hwhy'⟩ := h'.darker p _ hc
  refine ⟨c', hc', hle.trans hle', fun hblack => ?_, ?_⟩
  · rcases hleaf' hblack with hblack' | hneeds
    · exact hleaf hblack'
    · exact Or.inr hneeds
  rcases hwhy' with heq | hgc | ⟨hweak, heq⟩
  · obtain rfl : c' = c := heq
    rcases hwhy with heq | hgc | ⟨hweak, heq⟩
    · exact Or.inl heq
    · exact Or.inr (Or.inl (List.mem_append_left _ hgc))
    · exact Or.inr (Or.inr ⟨List.mem_append_left _ hweak, heq⟩)
  · exact Or.inr (Or.inl (List.mem_append_right _ hgc))
  · exact Or.inr (Or.inr ⟨List.mem_append_right _ hweak, heq⟩)

theorem darkens (h : Traces l cx cx') : Darkens cx cx' := by
  intro p b hb
  obtain ⟨c, hc, hle, -, -⟩ := h.darker p b hb
  exact ⟨_, hc, (min_le_left ..).trans hle⟩

/-- One box is shaded by a pointer to it. -/
theorem of_setColor {p : GcBox} {b : GcBoxInner} {c : GcColor} {q : Pointer} {g : List GcBox}
    (hp : cx.heap p = some b) (hle : b.color.rank ≤ c.rank)
    (hleaf : c = .black → b.needsTrace = false)
    (hwhy : q = .gc p ∨ (q = .weak p ∧ c = .whiteWeak)) :
    Traces [q] cx { cx.setColor p b c with gray := g } := by
  have hrec := setColor_recolors hp c
  refine ⟨⟨rfl, rfl, rfl, rfl, rfl, hrec.boxes⟩, rfl, fun r br hr => ?_⟩
  rcases eq_or_ne r p with rfl | hne
  · obtain rfl := Option.some.inj (hp.symm.trans hr)
    refine ⟨c, (setColor_heap ..).trans (if_pos rfl), hle, fun hc => Or.inr (hleaf hc),
      Or.inr ?_⟩
    rcases hwhy with rfl | ⟨rfl, hc⟩
    · exact Or.inl (List.mem_singleton_self _)
    · exact Or.inr ⟨List.mem_singleton_self _, hc⟩
  · exact ⟨br.color, ((setColor_heap ..).trans (if_neg hne)).trans hr, le_rfl, Or.inl,
      Or.inl rfl⟩

end Traces

section Tracing

variable {cx : Context} {root : List Pointer} {swept : List GcBox} {hole : Option GcBox}

/-- A white box turns gray, and goes to the gray queue. -/
theorem Marks.toGray (h : Marks cx root swept hole) (hphase : cx.phase = .mark) {p : GcBox}
    {b : GcBoxInner} (hp : cx.heap p = some b) (hlive : b.isLive = true)
    (hwhite : ¬ 2 ≤ b.color.rank) :
    Marks { cx.setColor p b .gray with gray := p :: cx.gray } root swept hole ∧
      Traces [.gc p] cx { cx.setColor p b .gray with gray := p :: cx.gray } := by
  have hnotMem : p ∉ cx.gray ++ cx.grayAgain :=
    h.notMem hp fun hgray => hwhite (by rw [hgray]; exact le_rfl)
  refine ⟨h.recolor hphase hp (c := .gray) (min_le_right ..) (fun _ => hlive) (by simp)
    (fun _ _ hne => hne) (fun r => ?_) (by simpa using List.nodup_cons.2 ⟨hnotMem, h.nodup⟩),
    Traces.of_setColor hp (by simp; omega) (by simp) (Or.inl rfl)⟩
  by_cases heq : r = p
  · simp [heq]
  · simp [heq]

/-- A box turns black, or weakly white, and stays out of the queues. -/
theorem Marks.toColor (h : Marks cx root swept hole) (hphase : cx.phase = .mark) {p : GcBox}
    {b : GcBoxInner} {c : GcColor} (hp : cx.heap p = some b) (hdarker : b.color.rank ≤ c.rank)
    (hgray : b.color ≠ .gray) (hgray' : c ≠ .gray) (hlive : 2 ≤ c.rank → b.isLive = true)
    (hblack : c = .black → b.value = []) : Marks (cx.setColor p b c) root swept hole := by
  have hnotMem := h.notMem hp hgray
  refine h.recolor hphase hp (c := c) (g := cx.gray) (k := cx.grayAgain)
    ((min_le_left ..).trans hdarker) hlive (fun hc => Or.inr (by simp [hblack hc]))
    (fun _ _ hne => hne) (fun r => ?_) h.nodup
  by_cases heq : r = p
  · subst heq
    simpa [hgray'] using hnotMem
  · simp [heq]

/-- **One pointer of a value is traced.** -/
theorem tracePointer_spec (h : Marks cx root swept hole) (hphase : cx.phase = .mark)
    (hclosed : Closed cx []) {q : Pointer} (hq : cx.Safe [] q) :
    ∃ cx', cx.tracePointer q = some cx' ∧ Marks cx' root swept hole ∧ Traces [q] cx cx' ∧
      cx'.Shaded q := by
  cases q with
  | gc p =>
      obtain ⟨b, hb, hlive, -⟩ := hq
      by_cases hshade : 2 ≤ b.color.rank
      · -- a box that is gray or black already stays as it is
        refine ⟨cx, ?_, h, Traces.refl _ _, b, hb, hshade⟩
        cases hcolor : b.color <;> simp_all [tracePointer, trace]
      · have hwhite := GcColor.white_of_rank hshade
        have hself : ∀ c, (cx.setColor p b c).heap p = some { b with color := c } :=
          fun c => (setColor_heap ..).trans (if_pos rfl)
        cases hneeds : b.needsTrace with
        | true =>
            obtain ⟨hmarks, htraces⟩ := h.toGray hphase hb hlive hshade
            refine ⟨_, ?_, hmarks, htraces, ⟨_, hself .gray, le_rfl⟩⟩
            rcases hwhite with hc | hc <;> simp [tracePointer, trace, hb, hc, hneeds, hlive]
        | false =>
            refine ⟨cx.setColor p b .black, ?_, h.toColor hphase hb (GcColor.rank_le _)
              (by rcases hwhite with hc | hc <;> rw [hc] <;> decide) (by decide) (fun _ => hlive)
              fun _ => hclosed.leaf p b hb hneeds, Traces.of_setColor (g := cx.gray) hb
                (GcColor.rank_le _) (fun _ => hneeds) (Or.inl rfl), ⟨_, hself .black, by simp⟩⟩
            rcases hwhite with hc | hc <;> simp [tracePointer, trace, hb, hc, hneeds]
  | weak p =>
      obtain ⟨b, hb, -⟩ := hq
      by_cases hwhite : b.color = .white
      · exact ⟨cx.setColor p b .whiteWeak, by simp [tracePointer, traceWeak, hb, hwhite],
          h.toColor hphase hb (by simp [hwhite]) (by rw [hwhite]; decide) (by decide) (by simp)
            (by simp), Traces.of_setColor (g := cx.gray) hb (by simp [hwhite]) (by simp)
            (Or.inr ⟨rfl, rfl⟩), ⟨_, (setColor_heap ..).trans (if_pos rfl), le_rfl⟩⟩
      · refine ⟨cx, by simp [tracePointer, traceWeak, hb, hwhite], h, Traces.refl _ _, b, hb, ?_⟩
        cases hcolor : b.color <;> simp_all

/-- **A value is traced**: every pointer that it holds is shaded. -/
theorem traceValue_spec (hphase : cx.phase = .mark) (hclosed : Closed cx [])
    (h : Marks cx root swept hole) {l : List Pointer} (hl : ∀ q ∈ l, cx.Safe [] q) :
    ∃ cx', cx.traceValue l = some cx' ∧ Marks cx' root swept hole ∧ Traces l cx cx' ∧
      ∀ q ∈ l, cx'.Shaded q := by
  induction l generalizing cx with
  | nil => exact ⟨cx, rfl, h, Traces.refl _ _, by simp⟩
  | cons q l ih =>
      obtain ⟨cx₁, htrace, hmarks, htraces, hshaded⟩ :=
        tracePointer_spec h hphase hclosed (hl q (List.mem_cons_self ..))
      obtain ⟨cx₂, htrace', hmarks', htraces', hshaded'⟩ :=
        ih (htraces.phase.trans hphase) (htraces.closed hclosed) hmarks
          fun r hr => htraces.safe (hl r (List.mem_cons_of_mem _ hr))
      refine ⟨cx₂, ?_, hmarks', htraces.trans htraces', fun r hr => ?_⟩
      · rw [traceValue, htrace]
        exact htrace'
      · rcases List.mem_cons.1 hr with rfl | hr
        · exact htraces'.darkens.shaded hshaded
        · exact hshaded' r hr

/-- **A black box turns gray again.** -/
theorem makeGrayAgain_spec (h : Marks cx root swept hole) (hphase : cx.phase = .mark)
    {p : GcBox} {b : GcBoxInner} (hp : cx.heap p = some b) (hcolor : b.color = .black)
    {o : Option GcBox} (hhole : ∀ r, r ≠ p → some r ≠ o → some r ≠ hole) :
    ∃ cx', cx.makeGrayAgain p = some cx' ∧ Marks cx' root swept o ∧ Recolors cx cx' ∧
      cx'.rootNeedsTrace = cx.rootNeedsTrace ∧
      ∀ r, cx'.heap r = if r = p then some { b with color := .gray } else cx.heap r := by
  have hlive := h.live p b hp (by simp [hcolor])
  have hnotMem : p ∉ cx.gray ++ cx.grayAgain := h.notMem hp (by rw [hcolor]; decide)
  refine ⟨{ cx.setColor p b .gray with grayAgain := p :: cx.grayAgain }, ?_,
    h.recolor hphase hp (c := .gray) (g := cx.gray) (k := p :: cx.grayAgain)
      (min_le_right ..) (fun _ => hlive) (by simp) hhole (fun r => ?_)
      (List.nodup_middle.2 (List.nodup_cons.2 ⟨hnotMem, h.nodup⟩)),
    ⟨rfl, rfl, rfl, rfl, rfl, (setColor_recolors hp .gray).boxes⟩, rfl,
    fun r => setColor_heap ..⟩
  · simp [makeGrayAgain, hp, hcolor]
  · by_cases heq : r = p
    · simp [heq]
    · simp [heq]

/-- **A white box is made gray** by a resurrection. -/
theorem resurrect_spec (h : Marks cx root swept hole) (hphase : cx.phase = .mark) {p : GcBox}
    {b : GcBoxInner} (hp : cx.heap p = some b) (hlive : b.isLive = true) :
    ∃ cx', cx.resurrect p = some cx' ∧ Marks cx' root swept hole ∧ Traces [.gc p] cx cx' := by
  by_cases hshade : 2 ≤ b.color.rank
  · refine ⟨cx, ?_, h, Traces.refl _ _⟩
    cases hcolor : b.color <;> simp_all [resurrect]
  · obtain ⟨hmarks, htraces⟩ := h.toGray hphase hp hlive hshade
    refine ⟨_, ?_, hmarks, htraces⟩
    rcases GcColor.white_of_rank hshade with hc | hc <;>
      simp [resurrect, hp, hc, hlive, hphase]

end Tracing

/-! ### One unit of marking -/

/-- How many boxes of a list are not black yet. -/
def unmarked (cx : Context) (l : List GcBox) : ℕ :=
  l.countP fun p => !((cx.heap p).any fun b => decide (b.color = .black))

/-- What is left to mark: boxes, and the root. -/
def pending (cx : Context) (l : List GcBox) : ℕ := cx.unmarked l + cx.rootNeedsTrace.toNat

/-- Black boxes stay black. -/
def KeepsBlack (cx cx' : Context) : Prop :=
  ∀ p b, cx.heap p = some b → b.color = .black → ∃ b', cx'.heap p = some b' ∧ b'.color = .black

section Pending

variable {cx cx' : Context} {l : List GcBox}

theorem unmarked_le (h : KeepsBlack cx cx') : cx'.unmarked l ≤ cx.unmarked l := by
  refine List.countP_mono_left fun q _ hq => ?_
  cases hb : cx.heap q with
  | none => rfl
  | some b =>
      simp only [Option.any_some, Bool.not_eq_true', decide_eq_false_iff_not]
      intro hblack
      obtain ⟨b', hb', hblack'⟩ := h q b hb hblack
      simp [hb', hblack'] at hq

/-- Where there is one more black box, fewer are unmarked. -/
theorem unmarked_lt (h : KeepsBlack cx cx') {p : GcBox} (hmem : p ∈ l) {b b' : GcBoxInner}
    (hp : cx.heap p = some b) (hcolor : b.color ≠ .black) (hp' : cx'.heap p = some b')
    (hcolor' : b'.color = .black) : cx'.unmarked l < cx.unmarked l := by
  obtain ⟨before, behind, rfl⟩ := List.append_of_mem hmem
  have hbefore : cx'.unmarked before ≤ cx.unmarked before := unmarked_le h
  have hbehind : cx'.unmarked behind ≤ cx.unmarked behind := unmarked_le h
  simp only [unmarked, List.countP_append, List.countP_cons] at hbefore hbehind ⊢
  simp [hp, hp', hcolor, hcolor']
  omega

end Pending

/-- A box is shaded, as far as a pointer to it goes, for a reason: it was, or the pointer is in the
root or in a value that is shaded. -/
def Reasoned (cx : Context) (root : List Pointer) (q : Pointer) : Prop :=
  cx.Shaded q ∨ q ∈ root ∨ ∃ r b, cx.heap r = some b ∧ 2 ≤ b.color.rank ∧ q ∈ b.value

/-- What one unit of marking does. -/
structure MarkedOne (root : List Pointer) (swept : List GcBox) (cx : Context) (flow : Flow)
    (cx' : Context) : Prop extends Recolors cx cx' where
  marks : Marks cx' root swept none
  darkens : Darkens cx cx'
  strongly : ∀ p, cx'.Shaded (.gc p) → cx.Reasoned root (.gc p)
  weakly : ∀ p, cx'.Shaded (.weak p) → cx.Reasoned root (.gc p) ∨ cx.Reasoned root (.weak p)
  done : flow = .done →
    cx' = cx ∧ cx.gray = [] ∧ cx.grayAgain = [] ∧ cx.rootNeedsTrace = false
  progress : flow = .goOn → cx'.pending swept < cx.pending swept

namespace Traces

variable {l : List Pointer} {cx cx' : Context}

theorem keepsBlack (h : Traces l cx cx') : KeepsBlack cx cx' := by
  intro p b hb hblack
  obtain ⟨c, hc, hle, -, -⟩ := h.darker p b hb
  refine ⟨_, hc, ?_⟩
  rw [hblack] at hle
  cases c <;> simp_all

/-- What is gray or black behind a trace was so, or is the end of a strong pointer. -/
theorem strongly (h : Traces l cx cx') {p : GcBox} (hp : cx'.Shaded (.gc p)) :
    cx.Shaded (.gc p) ∨ .gc p ∈ l := by
  obtain ⟨b', hb', hrank⟩ := hp
  obtain ⟨b, hb⟩ := (h.exists_box p).1 ⟨b', hb'⟩
  obtain ⟨c, hc, -, -, hwhy⟩ := h.darker p b hb
  obtain rfl := Option.some.inj (hb'.symm.trans hc)
  rcases hwhy with heq | hgc | ⟨-, rfl⟩
  · exact Or.inl ⟨_, hb, heq ▸ hrank⟩
  · exact Or.inr hgc
  · exact absurd hrank (by simp)

theorem weakly (h : Traces l cx cx') {p : GcBox} (hp : cx'.Shaded (.weak p)) :
    cx.Shaded (.weak p) ∨ .gc p ∈ l ∨ .weak p ∈ l := by
  obtain ⟨b', hb', hrank⟩ := hp
  obtain ⟨b, hb⟩ := (h.exists_box p).1 ⟨b', hb'⟩
  obtain ⟨c, hc, -, -, hwhy⟩ := h.darker p b hb
  obtain rfl := Option.some.inj (hb'.symm.trans hc)
  rcases hwhy with heq | hgc | ⟨hweak, -⟩
  · exact Or.inl ⟨_, hb, heq ▸ hrank⟩
  · exact Or.inr (Or.inl hgc)
  · exact Or.inr (Or.inr hweak)

/-- What is shaded behind a trace has a reason, where the pointers that are traced have one. -/
theorem reasoned (h : Traces l cx cx') {cx₀ : Context} {root : List Pointer}
    (hsame : ∀ q, cx.Shaded q → cx₀.Shaded q) (hl : ∀ q ∈ l, cx₀.Reasoned root q) :
    (∀ p, cx'.Shaded (.gc p) → cx₀.Reasoned root (.gc p)) ∧
      ∀ p, cx'.Shaded (.weak p) → cx₀.Reasoned root (.gc p) ∨ cx₀.Reasoned root (.weak p) := by
  refine ⟨fun p hp => ?_, fun p hp => ?_⟩
  · rcases h.strongly hp with hold | hmem
    · exact Or.inl (hsame _ hold)
    · exact hl _ hmem
  · rcases h.weakly hp with hold | hmem | hmem
    · exact Or.inr (Or.inl (hsame _ hold))
    · exact Or.inl (hl _ hmem)
    · exact Or.inr (hl _ hmem)

/-- A box that a trace finds black is black behind it. -/
theorem black (h : Traces l cx cx') {p : GcBox} {b : GcBoxInner} (hp : cx.heap p = some b)
    (hcolor : b.color = .black) : cx'.heap p = some b := by
  obtain ⟨c, hc, hle, -, -⟩ := h.darker p b hp
  have hblack : c = b.color := by
    rw [hcolor] at hle ⊢
    cases c <;> simp_all
  rw [hc, hblack]

end Traces

section MarkOne

variable {cx : Context} {root : List Pointer} {swept : List GcBox}

/-- **The next gray box** is taken out of its queue and turned black: it is the hole. -/
theorem popGray_spec (h : Marks cx root swept none) (hphase : cx.phase = .mark) :
    (cx.popGray = none ∧ cx.gray = [] ∧ cx.grayAgain = []) ∨
      ∃ p b cx₀, cx.popGray = some (p, cx₀) ∧ cx.heap p = some b ∧ b.color = .gray ∧
        cx₀.heap = cx.heap ∧ cx₀.rootNeedsTrace = cx.rootNeedsTrace ∧
        Recolors cx (cx₀.setColor p b .black) ∧
        Marks (cx₀.setColor p b .black) root swept (some p) := by
  -- the box that is taken is gray, and nowhere else in the queues
  have htake : ∀ p g g', (∀ r, r ∈ cx.gray ++ cx.grayAgain ↔ r = p ∨ r ∈ g ++ g') →
      (p :: (g ++ g')).Nodup → ∃ b, cx.heap p = some b ∧ b.color = .gray ∧
        Marks { cx.setColor p b .black with gray := g, grayAgain := g' } root swept (some p) := by
    intro p g g' hqueue hnodup
    obtain ⟨b, hb, hgray⟩ := (h.grays p).1 ((hqueue p).2 (Or.inl rfl))
    have hnotMem : p ∉ g ++ g' := (List.nodup_cons.1 hnodup).1
    refine ⟨b, hb, hgray, h.recolor hphase hb (c := .black) (by simp)
      (fun _ => h.live p b hb (by simp [hgray])) (fun _ => Or.inl rfl) (by simp) (fun r => ?_)
      (List.nodup_cons.1 hnodup).2⟩
    by_cases heq : r = p
    · subst heq
      simpa using hnotMem
    · rw [if_neg heq, hqueue]
      simp [heq]
  have hnodup := h.nodup
  cases hg : cx.gray with
  | cons p rest =>
      rw [hg] at hnodup
      obtain ⟨b, hb, hgray, hmarks⟩ := htake p rest cx.grayAgain (fun r => by simp [hg]) hnodup
      exact Or.inr ⟨p, b, { cx with gray := rest }, by simp [popGray, hg], hb, hgray, rfl, rfl,
        ⟨rfl, rfl, rfl, rfl, rfl, (setColor_recolors hb .black).boxes⟩, hmarks⟩
  | nil =>
      cases hg' : cx.grayAgain with
      | cons p rest =>
          rw [hg, hg'] at hnodup
          obtain ⟨b, hb, hgray, hmarks⟩ := htake p [] rest (fun r => by simp [hg, hg']) hnodup
          refine Or.inr ⟨p, b, { cx with grayAgain := rest }, by simp [popGray, hg, hg'], hb, hgray,
            rfl, rfl, ⟨rfl, rfl, rfl, rfl, rfl, (setColor_recolors hb .black).boxes⟩, ?_⟩
          have hsame : ({ cx with grayAgain := rest } : Context).setColor p b .black =
              { cx.setColor p b .black with gray := [], grayAgain := rest } := by
            simp [setColor, setBox, hg]
          rw [hsame]
          exact hmarks
      | nil => exact Or.inl ⟨by simp [popGray, hg, hg'], rfl, rfl⟩

/-- A box that is gray or black and changes to a box that is so too: what is shaded behind it was
shaded, -/
theorem shaded_of_shaded {cx' : Context} {p : GcBox} {b b' : GcBoxInner} (hp : cx.heap p = some b)
    (hrank : 2 ≤ b.color.rank)
    (hheap : ∀ r, cx'.heap r = if r = p then some b' else cx.heap r) {q : Pointer}
    (hq : cx'.Shaded q) : cx.Shaded q := by
  cases q with
  | gc r =>
      obtain ⟨br, hr, hrank'⟩ := hq
      rcases eq_or_ne r p with rfl | hne
      · exact ⟨b, hp, hrank⟩
      · exact ⟨br, by rwa [hheap, if_neg hne] at hr, hrank'⟩
  | weak r =>
      obtain ⟨br, hr, hrank'⟩ := hq
      rcases eq_or_ne r p with rfl | hne
      · exact ⟨b, hp, by omega⟩
      · exact ⟨br, by rwa [hheap, if_neg hne] at hr, hrank'⟩

/-- and nothing has turned white. -/
theorem darkens_of_shaded {cx' : Context} {p : GcBox} {b' : GcBoxInner}
    (hheap : ∀ r, cx'.heap r = if r = p then some b' else cx.heap r)
    (hrank : 2 ≤ b'.color.rank) : Darkens cx cx' := by
  intro r br hr
  rcases eq_or_ne r p with rfl | hne
  · exact ⟨b', by rw [hheap, if_pos rfl], (min_le_right ..).trans hrank⟩
  · exact ⟨br, by rw [hheap, if_neg hne, hr], min_le_left ..⟩

/-- With no gray box left, the root is traced if it has to be. -/
theorem markRoot_spec (h : Marks cx root swept none) (hphase : cx.phase = .mark)
    (hclosed : Closed cx []) (hroot : ∀ q ∈ root, cx.Safe [] q) (hpop : cx.popGray = none)
    (hgray : cx.gray = []) (hagain : cx.grayAgain = []) (panics : Option ℕ) :
    ∃ flow cx', cx.markOne root panics = some (flow, cx') ∧ MarkedOne root swept cx flow cx' ∧
      (panics = none → flow ≠ .panicked) := by
  cases hroots : cx.rootNeedsTrace with
  | false =>
      refine ⟨.done, cx, by simp [markOne, hpop, hroots], ⟨Recolors.refl cx, h, ?_, ?_, ?_, ?_,
        ?_⟩, by simp⟩
      · exact (Traces.refl [] cx).darkens
      · exact fun _ hp => Or.inl hp
      · exact fun _ hp => Or.inr (Or.inl hp)
      · exact fun _ => ⟨rfl, hgray, hagain, hroots⟩
      · simp
  | true =>
      cases panics with
      | none =>
          obtain ⟨cx', htrace, hmarks, htraces, hshaded⟩ :=
            traceValue_spec hphase hclosed h hroot
          have hmarks' : Marks { cx' with rootNeedsTrace := false } root swept none :=
            { hmarks with
              root := fun _ _ => hshaded
              rest := fun hsleep => absurd ((htraces.phase.trans hphase).symm.trans hsleep)
                (by decide) }
          have hreasons := htraces.reasoned (fun _ hq => hq)
            fun q hq => (Or.inr (Or.inl hq) : cx.Reasoned root q)
          refine ⟨.goOn, { cx' with rootNeedsTrace := false },
            by simp [markOne, hpop, hroots, htrace],
            ⟨⟨htraces.phase, htraces.all, htraces.sweep, htraces.sweepPrev, htraces.metrics,
              htraces.boxes⟩, hmarks', htraces.darkens, hreasons.1, hreasons.2, by simp,
              fun _ => ?_⟩, by simp⟩
          have hle : cx'.unmarked swept ≤ cx.unmarked swept := unmarked_le htraces.keepsBlack
          simp only [pending, hroots, Bool.toNat_false, Bool.toNat_true]
          exact Nat.lt_succ_of_le hle
      | some k =>
          obtain ⟨cx', htrace, hmarks, htraces, -⟩ := traceValue_spec hphase hclosed h
            (fun q hq => hroot q (List.mem_of_mem_take hq) : ∀ q ∈ root.take k, cx.Safe [] q)
          have hreasons := htraces.reasoned (fun _ hq => hq) fun q hq =>
            (Or.inr (Or.inl (List.mem_of_mem_take hq)) : cx.Reasoned root q)
          exact ⟨.panicked, cx', by simp [markOne, hpop, hroots, htrace],
            ⟨htraces.toRecolors, hmarks, htraces.darkens, hreasons.1, hreasons.2, by simp,
              by simp⟩, by simp⟩
/-- A gray box is traced, up to its end or up to a panic. -/
theorem markBox_spec (h : Marks cx root swept none) (hphase : cx.phase = .mark)
    (hlayout : Layout cx swept []) (hclosed : Closed cx []) {p : GcBox} {b : GcBoxInner}
    {cx₀ : Context} (hpop : cx.popGray = some (p, cx₀)) (hb : cx.heap p = some b)
    (hcolor : b.color = .gray) (hheap : cx₀.heap = cx.heap)
    (hneeds : cx₀.rootNeedsTrace = cx.rootNeedsTrace)
    (hrec : Recolors cx (cx₀.setColor p b .black))
    (hmarks : Marks (cx₀.setColor p b .black) root swept (some p)) (panics : Option ℕ) :
    ∃ flow cx', cx.markOne root panics = some (flow, cx') ∧ MarkedOne root swept cx flow cx' ∧
      (panics = none → flow ≠ .panicked) := by
  -- the box is alone in being black before its value is shaded
  have hheap₁ : ∀ r, (cx₀.setColor p b .black).heap r =
      if r = p then some { b with color := .black } else cx.heap r := by
    intro r
    rw [setColor_heap, hheap]
  have hblack : (cx₀.setColor p b .black).heap p = some { b with color := .black } := by
    rw [hheap₁, if_pos rfl]
  have hsame : ∀ q, (cx₀.setColor p b .black).Shaded q → cx.Shaded q :=
    fun q => shaded_of_shaded hb (by simp [hcolor]) hheap₁
  have hdark : Darkens cx (cx₀.setColor p b .black) := darkens_of_shaded hheap₁ (by simp)
  have hlive := h.live p b hb (by simp [hcolor])
  have hvalue : ∀ q ∈ b.value, cx.Safe [] q :=
    hclosed.value p b hb ⟨b, hb, hlive, by simp⟩
  have hphase₁ := hrec.phase.trans hphase
  have hreason : ∀ q ∈ b.value, cx.Reasoned root q :=
    fun q hq => Or.inr (Or.inr ⟨p, b, hb, by simp [hcolor], hq⟩)
  cases panics with
  | none =>
      obtain ⟨cx', htrace, hmarks', htraces, hshaded⟩ :=
        traceValue_spec hphase₁ (hrec.closed hclosed) hmarks fun q hq => hrec.safe (hvalue q hq)
      have hreasons := htraces.reasoned hsame hreason
      have hp' := htraces.black hblack rfl
      refine ⟨.goOn, cx', by simp [markOne, hpop, hheap, hb, hlive, htrace],
        ⟨hrec.trans htraces.toRecolors, hmarks'.fill hp' hshaded, hdark.trans htraces.darkens,
          hreasons.1, hreasons.2, by simp, fun _ => ?_⟩, by simp⟩
      have hkeep : KeepsBlack cx cx' := by
        intro r br hr hbr
        rcases eq_or_ne r p with rfl | hne
        · exact ⟨_, hp', rfl⟩
        · exact htraces.keepsBlack r br (by rw [hheap₁, if_neg hne, hr]) hbr
      have hmem : p ∈ swept := by simpa using (hlayout.mem p).2 ⟨b, hb⟩
      have hlt := unmarked_lt hkeep hmem hb (by rw [hcolor]; decide) hp' rfl
      have hroots := htraces.rootNeedsTrace.trans hneeds
      simp only [pending, hroots]
      omega
  | some k =>
      obtain ⟨cx', htrace, hmarks', htraces, -⟩ := traceValue_spec
        (l := b.value.take k) hphase₁ (hrec.closed hclosed) hmarks
        fun q hq => hrec.safe (hvalue q (List.mem_of_mem_take hq))
      have hp' := htraces.black hblack rfl
      obtain ⟨cx'', hagain, hmarks'', hrec'', -, hheap''⟩ :=
        makeGrayAgain_spec hmarks' (htraces.phase.trans hphase₁) hp' rfl (o := none)
          (fun r hne _ heq => hne (Option.some.inj heq))
      -- the box is gray again, as it was
      have hback : ∀ q, cx''.Shaded q → cx'.Shaded q :=
        fun q => shaded_of_shaded hp' (by simp) hheap''
      have hdark'' : Darkens cx' cx'' := darkens_of_shaded hheap'' (by simp)
      have hreasons := htraces.reasoned hsame fun q hq => hreason q (List.mem_of_mem_take hq)
      exact ⟨.panicked, cx'', by simp [markOne, hpop, hheap, hb, hlive, htrace, hagain],
        ⟨(hrec.trans htraces.toRecolors).trans hrec'', hmarks'',
          (hdark.trans htraces.darkens).trans hdark'', fun r hr => hreasons.1 r (hback _ hr),
          fun r hr => hreasons.2 r (hback _ hr), by simp, by simp⟩, by simp⟩

/-- **One unit of marking** does not fail, and keeps the colours in order. -/
theorem markOne_spec (h : Marks cx root swept none) (hphase : cx.phase = .mark)
    (hlayout : Layout cx swept []) (hclosed : Closed cx []) (hroot : ∀ q ∈ root, cx.Safe [] q)
    (panics : Option ℕ) :
    ∃ flow cx', cx.markOne root panics = some (flow, cx') ∧ MarkedOne root swept cx flow cx' ∧
      (panics = none → flow ≠ .panicked) := by
  rcases popGray_spec h hphase with ⟨hpop, hgray, hagain⟩ |
    ⟨p, b, cx₀, hpop, hb, hcolor, hheap, hneeds, hrec, hmarks⟩
  · exact markRoot_spec h hphase hclosed hroot hpop hgray hagain panics
  · exact markBox_spec h hphase hlayout hclosed hpop hb hcolor hheap hneeds hrec hmarks panics

end MarkOne

end Context

end Tcvm.Dmm
