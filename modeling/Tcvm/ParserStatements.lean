/-
# The rules of statements keep the contract

A statement begins with a token that says what it is, and passes it.  Where no statement begins, the
tokens up to the next one that may begin a statement become an invalid node, except at the end of
the input, where nothing is passed.

## Main definitions

* `Finishes` — what is behind the start of a node, with its end.

## Main results

* `rStmtOf_does` — **a statement passes a token**, or nothing happens;
* `errorEatUntil_does` — the recovery from errors;
* `parserContract_valid` — **every rule keeps the contract**.
-/

import Tcvm.ParserSpecs

namespace Tcvm.Parser

open OpenRecursion SyntaxKind

variable {n : Bound} {s : PState}

/-! ### Nodes that begin with a token -/

/-- What is behind the start of a node, with its end. -/
structure Finishes (marker : Marker) (s : PState) (o : Option CompletedMarker) (s' : PState)
    (tr : Trace) : Prop where
  result : o = some { position := marker.position, kind := marker.kind }
  inner : ∃ s₁, Grows s s₁ tr ∧ s' = s₁.push Event.exit

theorem Grows.finishes {marker : Marker} {s₁ s' : PState} {o : Option CompletedMarker}
    {tr tr' : Trace} (h : Grows s s₁ tr) (h' : Finishes marker s₁ o s' tr') :
    Finishes marker s o s' (tr ++ tr') := by
  obtain ⟨s₂, hgrows, rfl⟩ := h'.inner
  exact ⟨h'.result, s₂, h.trans hgrows, rfl⟩

theorem Finishes.le {marker : Marker} {s' : PState} {o : Option CompletedMarker} {tr : Trace}
    (h : Finishes marker s o s' tr) : s.cursor ≤ s'.cursor := by
  obtain ⟨s₁, hgrows, rfl⟩ := h.inner
  exact hgrows.le

/-- The end of a node, where nothing is left to do. -/
theorem finish_does {marker : Marker} (hs : InRange s) :
    Does n (completed marker) s fun o s' tr => Finishes marker s o s' tr :=
  completed_does ⟨rfl, s, Grows.refl hs, rfl⟩

/-- A node that begins with the token `k`. -/
theorem keyword_does {kind k : SyntaxKind} {f : Marker → RuleM} (hk : k ≠ eof) (hs : InRange s)
    (hready : Ready n k s)
    (hf : ∀ marker s₁, InRange s₁ → Room 4 n s₁ →
      Does n (f marker) s₁ fun o s' tr => Finishes marker s₁ o s' tr) :
    Does n (start kind >>= fun marker => expect k >>= fun _ => f marker) s fun o s' tr =>
      NodeOf kind s o s' tr ∧ (s.atKind = k → s.cursor < s'.cursor) := by
  refine start_does (expect_does (inRange_push hs _) hk ?_)
  intro b s₁ h₁ hlt
  have hroom := Ready.room (show Ready n k (s.push _) from hready) (inRange_push hs _) h₁ hlt
  refine Does.mono (hf _ s₁ h₁.range hroom) ?_
  intro o s' tr h
  obtain ⟨hresult, hinner⟩ := h₁.finishes h
  refine ⟨⟨hresult, hinner⟩, ?_⟩
  intro hat
  exact (hlt hat).trans_le h.le

/-- A token, and the end of the node. -/
theorem expectFinish_does {marker : Marker} {k : SyntaxKind} (hk : k ≠ eof) (hs : InRange s) :
    Does n (expect k >>= fun _ => completed marker) s
      fun o s' tr => Finishes marker s o s' tr := by
  refine expect_does hs hk ?_
  intro b s₁ h₁ _
  exact completed_does ⟨rfl, s₁, h₁, rfl⟩

/-! ### Blocks and loops -/

theorem rLabel_does (hs : InRange s) (hready : Ready n dColon s) :
    Does n rLabel s fun o s' tr =>
      NodeOf label s o s' tr ∧ (s.atKind = dColon → s.cursor < s'.cursor) := by
  refine keyword_does (by decide) hs hready ?_
  intro marker s₁ hs₁ _
  refine Does.seq (rIdent_grows hs₁) ?_
  intro _ s₂ tr₂ h₂
  refine Does.mono (expectFinish_does (by decide) (Grows.range h₂)) ?_
  intro o s' tr h
  exact Grows.finishes h₂ h

theorem rGoto_does (hs : InRange s) (hready : Ready n gotoKw s) :
    Does n rGoto s fun o s' tr =>
      NodeOf gotoKw s o s' tr ∧ (s.atKind = gotoKw → s.cursor < s'.cursor) := by
  refine keyword_does (by decide) hs hready ?_
  intro marker s₁ hs₁ _
  refine Does.seq (rIdent_grows hs₁) ?_
  intro _ s₂ tr₂ h₂
  refine Does.mono (finish_does (Grows.range h₂)) ?_
  intro o s' tr h
  exact Grows.finishes h₂ h

theorem rDo_does (hs : InRange s) (hready : Ready n doKw s) :
    Does n rDo s fun o s' tr =>
      NodeOf doStmt s o s' tr ∧ (s.atKind = doKw → s.cursor < s'.cursor) := by
  refine keyword_does (by decide) hs hready ?_
  intro marker s₁ hs₁ hroom
  refine Does.seq (rBlock_does hs₁ hroom) ?_
  rintro _ s₂ tr₂ ⟨hblock, -⟩
  have h₂ := hblock.grows (by decide)
  refine Does.mono (expectFinish_does (by decide) h₂.range) ?_
  intro o s' tr h
  exact h₂.finishes h

/-- `rDo`, when only its events matter. -/
theorem rDo_grows (hs : InRange s) (hroom : Room 4 n s) : Does n rDo s (GrowsBy s) := by
  refine Does.mono (rDo_does hs (Or.inl hroom)) ?_
  intro o s' tr h
  exact h.1.grows (by decide)

theorem rExpr_grows (hs : InRange s) (hroom : Room 4 n s) : Does n rExpr s (GrowsBy s) := by
  refine Does.mono (rExpr_does hs (hroom.mono (by decide))) ?_
  intro o s' tr h
  exact h.grows

theorem rExprList_grows (hs : InRange s) (hroom : Room 4 n s) :
    Does n rExprList s (GrowsBy s) := by
  refine Does.mono (rExprList_does hs hroom) ?_
  intro o s' tr h
  exact h.grows (by decide)

theorem rWhile_does (hs : InRange s) (hready : Ready n whileKw s) :
    Does n rWhile s fun o s' tr =>
      NodeOf whileStmt s o s' tr ∧ (s.atKind = whileKw → s.cursor < s'.cursor) := by
  refine keyword_does (by decide) hs hready ?_
  intro marker s₁ hs₁ hroom
  refine Does.seq (rExpr_grows hs₁ hroom) ?_
  intro _ s₂ tr₂ h₂
  refine Does.seq (rDo_grows (Grows.range h₂) (hroom.grows h₂)) ?_
  intro _ s₃ tr₃ h₃
  refine Does.mono (finish_does (Grows.range h₃)) ?_
  intro o s' tr h
  exact Grows.finishes h₂ (Grows.finishes h₃ h)

theorem rRepeat_does (hs : InRange s) (hready : Ready n repeatKw s) :
    Does n rRepeat s fun o s' tr =>
      NodeOf repeatStmt s o s' tr ∧ (s.atKind = repeatKw → s.cursor < s'.cursor) := by
  refine keyword_does (by decide) hs hready ?_
  intro marker s₁ hs₁ hroom
  refine Does.seq (rBlock_does hs₁ hroom) ?_
  rintro _ s₂ tr₂ ⟨hblock, -⟩
  have h₂ := hblock.grows (by decide)
  refine expect_does h₂.range (by decide) ?_
  intro b s₃ h₃ _
  refine Does.seq (rExpr_grows h₃.range ((hroom.grows h₂).grows h₃)) ?_
  intro _ s₄ tr₄ h₄
  refine Does.mono (finish_does (Grows.range h₄)) ?_
  intro o s' tr h
  exact h₂.finishes (h₃.finishes (Grows.finishes h₄ h))

/-- Behind the block of a branch there is an `else`, an `elseif`, or the end. -/
theorem rElse_does (hs : InRange s) (hroom : Room 4 n s)
    (hat : s.atKind = elseIfKw ∨ s.atKind = elseKw) : Does n rElse s (GrowsBy s) := by
  refine start_does (atKind_does (ite_does ?_ ?_))
  · intro _
    refine expect_does (inRange_push hs _) (by decide) ?_
    intro b s₁ h₁ _
    have hroom₁ := (hroom.push _).grows h₁
    refine Does.seq (rBlock_does h₁.range hroom₁) ?_
    rintro _ s₂ tr₂ ⟨hblock, -⟩
    have h₂ := hblock.grows (by decide)
    refine expect_does h₂.range (by decide) ?_
    intro b s₃ h₃ _
    exact completed_does (Grows.node (by decide) (h₁.trans (h₂.trans h₃)))
  · intro helse
    have helseif : s.atKind = elseIfKw := hat.resolve_right helse
    refine ite_does ?_ ?_
    · intro _
      refine call_does (below_of_room ⟨inRange_push hs _, helseif, by decide⟩
        (hroom.push _) (show 1 < 4 by decide)) ?_
      rintro _ s₁ tr₁ ⟨hnode, -⟩
      have h₁ := hnode.grows (by decide)
      exact completed_does (Grows.node (by decide) (h₁.trans (Grows.refl h₁.range)))
    · intro hno
      exact absurd helseif hno

theorem rIf_does {kind : SyntaxKind} (hs : InRange s) (hkind : kind ≠ eof) (hat : s.atKind = kind)
    (hroom : Room 0 n s) :
    Does n (rIf kind) s fun o s' tr => NodeOf ifStmt s o s' tr ∧ s.cursor < s'.cursor := by
  refine Does.mono (keyword_does hkind hs (Or.inr ⟨hroom, hat⟩) ?_) ?_
  · intro marker s₁ hs₁ hroom₁
    refine Does.seq (rExpr_grows hs₁ hroom₁) ?_
    intro _ s₂ tr₂ h₂
    refine expect_does (Grows.range h₂) (by decide) ?_
    intro b s₃ h₃ _
    have hroom₃ := (hroom₁.grows h₂).grows h₃
    refine Does.seq (rBlock_does h₃.range hroom₃) ?_
    rintro _ s₄ tr₄ ⟨hblock, hstop⟩
    have h₄ := hblock.grows (by decide)
    refine atKind_does (ite_does ?_ ?_)
    · intro _
      refine Does.mono (expectFinish_does (by decide) h₄.range) ?_
      intro o s' tr h
      exact Grows.finishes h₂ (h₃.finishes (h₄.finishes h))
    · intro hend
      refine ite_does ?_ ?_
      · intro helse
        refine Does.seq (rElse_does h₄.range (hroom₃.grows h₄) (by simpa using helse)) ?_
        intro _ s₅ tr₅ h₅
        refine Does.mono (finish_does (Grows.range h₅)) ?_
        intro o s' tr h
        exact Grows.finishes h₂ (h₃.finishes (h₄.finishes (Grows.finishes h₅ h)))
      · -- the block does not end at another token
        intro helse
        simp [BlockEnd.stops, hend] at hstop helse
        rcases hstop with hif | hel
        · exact absurd hif helse.1
        · exact absurd hel helse.2
  · rintro o s' tr ⟨hnode, hlt⟩
    exact ⟨hnode, hlt hat⟩

/-! ### Loops with a variable -/

/-- `keyword_does`, for a node whose kind is not known yet. -/
theorem keywordPlain_does {k : SyntaxKind} {f : Marker → RuleM}
    {Q : Option CompletedMarker → PState → Trace → Prop} {kind : SyntaxKind} (hk : k ≠ eof)
    (hs : InRange s) (hat : s.atKind = k) (hroom : Room 0 n s)
    (hf : ∀ s₁, Grows (s.push (Event.enter kind 0)) s₁ [] → s.cursor < s₁.cursor → Room 4 n s₁ →
      Does n (f { position := s.events.length, kind := kind }) s₁ Q) :
    Does n (start kind >>= fun marker => expect k >>= fun _ => f marker) s Q := by
  refine start_does (expect_does (inRange_push hs _) hk ?_)
  intro b s₁ h₁ hlt
  exact hf s₁ h₁ (hlt hat) ((hroom.push _).advance h₁
    (inRange_push hs _) (hlt hat))

theorem rForStep_does (hs : InRange s) (hroom : Room 4 n s) :
    Does n rForStep s (GrowsBy s) := by
  refine atKind_does (ite_does ?_ ?_)
  · intro _
    refine expect_does hs (by decide) ?_
    intro b s₁ h₁ _
    refine Does.seq (rExpr_grows h₁.range (hroom.grows h₁)) ?_
    intro _ s₂ tr₂ h₂
    exact pure_does (h₁.trans (Grows.trans h₂ (Grows.refl (Grows.range h₂))))
  · intro _
    exact pure_does (Grows.refl hs)

/-- A node gets its kind at its end. -/
theorem retyped_does {s₁ : PState} {kind kind' : SyntaxKind} {tr : Trace}
    (hkind' : kind' ≠ SyntaxKind.tombstone) (h : Grows (s.push (Event.enter kind 0)) s₁ tr) :
    Does n (retype { position := s.events.length, kind := kind } kind' >>= fun m => completed m) s₁
      fun _ s' tr' => tr' = [] ∧ Grows s s' tr ∧ s'.cursor = s₁.cursor :=
  ⟨rfl, h.retyped hkind', rfl⟩

/-- The end of a loop with a variable: its body, and the kind of its node. -/
theorem forEnd_does {s₁ : PState} {kind kind' : SyntaxKind} {tr : Trace}
    (hkind' : kind' ≠ SyntaxKind.tombstone) (h : Grows (s.push (Event.enter kind 0)) s₁ tr)
    (hroom : Room 4 n s₁) :
    Does n (rDo >>= fun _ => retype { position := s.events.length, kind := kind } kind' >>=
      fun m => completed m) s₁
      fun _ s' tr' => Grows s s' (tr ++ tr') ∧ s₁.cursor ≤ s'.cursor := by
  refine Does.seq (rDo_grows h.range hroom) ?_
  intro _ s₂ tr₂ h₂
  refine Does.mono (retyped_does hkind' (h.trans h₂)) ?_
  rintro o s' tr' ⟨rfl, hgrows, hcursor⟩
  rw [List.append_nil]
  exact ⟨hgrows, (Grows.le h₂).trans (Nat.le_of_eq hcursor.symm)⟩

theorem rNumFor_does {s₁ : PState} {kind : SyntaxKind} {tr : Trace}
    (h : Grows (s.push (Event.enter kind 0)) s₁ tr) (hroom : Room 4 n s₁) :
    Does n (rNumFor { position := s.events.length, kind := kind }) s₁
      fun _ s' tr' => Grows s s' (tr ++ tr') ∧ s₁.cursor ≤ s'.cursor := by
  refine expect_does h.range (by decide) ?_
  intro b s₂ h₂ _
  have hroom₂ := hroom.grows h₂
  refine Does.seq (rExpr_grows h₂.range hroom₂) ?_
  intro _ s₃ tr₃ h₃
  have hroom₃ := hroom₂.grows h₃
  refine expect_does (Grows.range h₃) (by decide) ?_
  intro b' s₄ h₄ _
  have hroom₄ := hroom₃.grows h₄
  refine Does.seq (rExpr_grows h₄.range hroom₄) ?_
  intro _ s₅ tr₅ h₅
  have hroom₅ := hroom₄.grows h₅
  refine Does.seq (rForStep_does (Grows.range h₅) hroom₅) ?_
  intro _ s₆ tr₆ h₆
  have hparts := h₂.trans (Grows.trans h₃ (h₄.trans (Grows.trans h₅ h₆)))
  refine Does.mono (forEnd_does (show forNumStmt ≠ SyntaxKind.tombstone by decide)
    (h.trans hparts) (hroom₅.grows h₆)) ?_
  rintro o s' tr' ⟨hgrows, hle⟩
  refine ⟨?_, hparts.le.trans hle⟩
  simpa only [List.append_assoc, List.nil_append] using hgrows

/-- The names behind the first one, with the end of their list, and the loop. -/
theorem rGenFor_does {s₀ s₁ : PState} {kind : SyntaxKind} {tr : Trace}
    (h : Grows (s.push (Event.enter kind 0)) s₀ tr)
    (h₁ : Grows (s₀.push (Event.enter assignList 0)) s₁ []) (hroom : Room 4 n s₁) :
    Does n (rGenFor { position := s.events.length, kind := kind }
      { position := s₀.events.length, kind := assignList }) s₁
      fun _ s' tr' => Grows s s' (tr ++ tr') ∧ s₁.cursor ≤ s'.cursor := by
  refine call_does (below_of_room ⟨h₁.range, trivial⟩ hroom (show 1 < 4 by decide)) ?_
  intro _ s₂ tr₂ h₂
  have hlist : Grows s₁ s₂ tr₂ := h₂
  refine complete_does ?_
  have hnode : Grows s₀ (s₂.push Event.exit) tr₂ :=
    Grows.node (show assignList ≠ SyntaxKind.tombstone by decide) (h₁.trans hlist)
  refine expect_does hnode.range (by decide) ?_
  intro b s₃ h₃ _
  have hroom₃ := Room.grows (Room.push (hroom.grows hlist) _) h₃
  refine Does.seq (rExprList_grows h₃.range hroom₃) ?_
  intro _ s₄ tr₄ h₄
  have hparts := hnode.trans (h₃.trans h₄)
  refine Does.mono (forEnd_does (show forGenStmt ≠ SyntaxKind.tombstone by decide)
    (h.trans hparts) (hroom₃.grows h₄)) ?_
  rintro o s' tr' ⟨hgrows, hle⟩
  refine ⟨?_, ?_⟩
  · simpa only [List.append_assoc, List.nil_append] using hgrows
  · exact ((hlist.le.trans h₃.le).trans (Grows.le h₄)).trans hle

/-- **A loop with a variable.**  The marker of the names is dropped where there is only one. -/
theorem rFor_does (hs : InRange s) (hroom : Room 0 n s) (hat : s.atKind = forKw) :
    Does n rFor s fun _ s' tr => Grows s s' tr ∧ s.cursor < s'.cursor := by
  refine keywordPlain_does (by decide) hs hat hroom ?_
  intro s₁ h₁ hlt hroom₁
  refine start_does (Does.seq (rIdent_does (inRange_push h₁.range _)) ?_)
  rintro _ s₂ tr₂ ⟨hnode, rfl, -⟩
  have h₂ := hnode.grows (show ident ≠ SyntaxKind.tombstone by decide)
  have hroom₂ := (hroom₁.push _).grows h₂
  have hle : s₁.cursor ≤ s₂.cursor := h₂.le
  refine atKind_does (ite_does ?_ ?_)
  · intro _
    obtain ⟨seg, hseg, -⟩ := h₂.events
    have hevents : s₂.events = s₁.events ++ Event.enter assignList 0 :: seg := by
      rw [hseg]
      simp [PState.push]
    refine abandon_does hevents ?_
    intro tombs htombs
    have hparts := h₁.trans (h₂.tombs htombs hevents)
    refine Does.mono (rNumFor_does hparts hroom₂) ?_
    rintro o s' tr' ⟨hgrows, hle'⟩
    exact ⟨hgrows, (hlt.trans_le hle).trans_le hle'⟩
  · intro _
    refine Does.mono (rGenFor_does h₁ h₂ hroom₂) ?_
    rintro o s' tr' ⟨hgrows, hle'⟩
    exact ⟨hgrows, (hlt.trans_le hle).trans_le hle'⟩

/-! ### Small statements -/

theorem rReturn_does (hs : InRange s) (hready : Ready n returnKw s) :
    Does n rReturn s fun o s' tr =>
      NodeOf returnStmt s o s' tr ∧ (s.atKind = returnKw → s.cursor < s'.cursor) := by
  refine keyword_does (by decide) hs hready ?_
  intro marker s₁ hs₁ hroom
  refine Does.seq (rExprList_grows hs₁ hroom) ?_
  intro _ s₂ tr₂ h₂
  refine Does.mono (finish_does (Grows.range h₂)) ?_
  intro o s' tr h
  exact Grows.finishes h₂ h

/-! ### Assignments -/

theorem rAttrib_does (hs : InRange s) : Does n rAttrib s (GrowsBy s) := by
  refine atKind_does (ite_does ?_ ?_)
  · intro hat
    refine expect_does hs ?_ ?_
    · rcases hat with hat | hat <;> rw [hat] <;> decide
    · intro b s₁ h₁ _
      exact pure_does (h₁.trans (Grows.refl h₁.range))
  · intro _
    exact pure_does (Grows.refl hs)

theorem rGlobalAttrib_does (hs : InRange s) : Does n rGlobalAttrib s (GrowsBy s) := by
  refine atKind_does (ite_does ?_ ?_)
  · intro hat
    refine expect_does hs ?_ ?_
    · rw [hat]
      decide
    · intro b s₁ h₁ _
      exact pure_does (h₁.trans (Grows.refl h₁.range))
  · intro _
    refine ite_does ?_ ?_
    · intro hat
      have hreport := report_grows hs "global variables cannot be to-be-closed"
        "'<close>' is not allowed on global declarations"
      refine report_does (expect_does hreport.range ?_ ?_)
      · rw [hat]
        decide
      · intro b s₁ h₁ _
        exact pure_does (hreport.trans (h₁.trans (Grows.refl h₁.range)))
    · intro _
      exact pure_does (Grows.refl hs)

/-- A name with an attribute, if it has one. -/
theorem target_does {kind : SyntaxKind} {attrib : ParseM Unit}
    (hkind : kind ≠ SyntaxKind.tombstone)
    (hattrib : ∀ s, InRange s → Does n attrib s (GrowsBy s)) (hs : InRange s) :
    Does n (start kind >>= fun marker => rIdent >>= fun _ => attrib >>= fun _ => completed marker) s
      (GrowsBy s) := by
  refine start_does (Does.seq (rIdent_grows (inRange_push hs _)) ?_)
  intro _ s₁ tr₁ h₁
  refine Does.seq (hattrib s₁ (Grows.range h₁)) ?_
  intro _ s₂ tr₂ h₂
  exact completed_does (Grows.node hkind
    (Grows.trans h₁ (Grows.trans h₂ (Grows.refl (Grows.range h₂)))))

theorem rItem_does {item : ListItem} (hs : InRange s) (hroom : Room 1 n s) :
    Does n (rItem item) s (GrowsBy s) := by
  cases item with
  | name => exact rIdent_grows hs
  | simpleExpr =>
      refine Does.mono (rSimpleExpr_does hs hroom) ?_
      intro o s' tr h
      exact h.1
  | declTarget => exact target_does (by decide) (fun _ hs => rAttrib_does hs) hs
  | globalTarget => exact target_does (by decide) (fun _ hs => rGlobalAttrib_does hs) hs

theorem rCommaLoop_does {item : ListItem} (hs : InRange s) (hroom : Room 1 n s) :
    Does n (rCommaLoop item) s (GrowsBy s) := by
  refine atKind_does (ite_does ?_ ?_)
  · intro hat
    refine expect_does hs (by decide) ?_
    intro b s₁ h₁ hlt
    have hroom₁ := hroom.advance h₁ hs (hlt hat)
    refine Does.seq (rItem_does h₁.range (hroom₁.mono (by decide))) ?_
    intro _ s₂ tr₂ h₂
    refine call_last (below_of_room ⟨Grows.range h₂, trivial⟩ (hroom₁.grows h₂)
      (show 1 < 4 by decide)) ?_
    intro o s₃ tr₃ h₃
    exact h₁.trans (Grows.trans h₂ h₃)
  · intro _
    exact pure_does (Grows.refl hs)

theorem commaLoop_grows {item : ListItem} (hs : InRange s) (hroom : Room 4 n s) :
    Does n (Proc.call (Rule.commaLoop item)) s (GrowsBy s) := by
  refine call_last (below_of_room ⟨hs, trivial⟩ hroom (show 1 < 4 by decide)) ?_
  intro o s₁ tr h
  exact h

theorem reportNoCall_does (o : Option CompletedMarker) (hs : InRange s) :
    Does n (reportNoCall o) s fun _ s' tr => Grows s s' tr := by
  cases o with
  | none => exact pure_does (Grows.refl hs)
  | some m =>
      refine ite_does ?_ ?_
      · intro _
        exact pure_does (Grows.refl hs)
      · intro _
        exact report_grows hs _ _

/-- **An assignment or a call.**  Both markers are dropped where there is no assignment. -/
theorem rMaybeAssign_does (hs : InRange s) (hroom : Room 1 n s)
    (hat : s.atKind = ident ∨ s.atKind = lParen) :
    Does n rMaybeAssign s fun _ s' tr => Grows s s' tr ∧ s.cursor < s'.cursor := by
  refine start_does (start_does (Does.seq
    (rSimpleExpr_does (inRange_push (inRange_push hs _) _)
      ((hroom.push _).push _)) ?_))
  rintro m s₁ tr₁ ⟨h₁, hlt⟩
  have hprogress : s.cursor < s₁.cursor := hlt hat
  have hroom₁ := Room.advance ((hroom.push _).push _) h₁
    (inRange_push (inRange_push hs _) _) hprogress
  refine atKind_does (ite_does ?_ ?_)
  · intro _
    refine Does.seq (commaLoop_grows h₁.range hroom₁) ?_
    intro _ s₂ tr₂ h₂
    refine complete_does ?_
    have hlist : Grows (s.push (Event.enter assignStmt 0)) (s₂.push Event.exit) (tr₁ ++ tr₂) :=
      Grows.node (show assignList ≠ SyntaxKind.tombstone by decide) (h₁.trans h₂)
    refine expect_does hlist.range (by decide) ?_
    intro b s₃ h₃ _
    have hroom₃ := Room.grows (Room.push (hroom₁.grows h₂) _) h₃
    refine Does.seq (rExprList_grows h₃.range hroom₃) ?_
    intro _ s₄ tr₄ h₄
    refine completed_does ⟨Grows.node (show assignStmt ≠ SyntaxKind.tombstone by decide) ?_, ?_⟩
    · have hall := hlist.trans (h₃.trans h₄)
      simpa only [List.append_assoc, List.append_nil, List.nil_append] using hall
    · have hle := ((Grows.le h₂).trans h₃.le).trans (Grows.le h₄)
      exact hprogress.trans_le hle
  · intro _
    obtain ⟨seg, hseg, -⟩ := h₁.events
    have hevents : s₁.events =
        (s.push (Event.enter assignStmt 0)).events ++ Event.enter assignList 0 :: seg := by
      rw [hseg]
      simp [PState.push]
    refine abandon_does hevents ?_
    intro tombs htombs
    have hinner := h₁.tombs htombs hevents
    have houter : (s.push (Event.enter assignStmt 0)).events ++ (tombs ++ seg) =
        s.events ++ Event.enter assignStmt 0 :: (tombs ++ seg) := by
      simp [PState.push]
    refine abandon_does houter ?_
    intro tombs' htombs'
    have hgrows := hinner.tombs htombs' houter
    refine Does.seq (reportNoCall_does m hgrows.range) ?_
    intro _ s₂ tr₂ h₂
    refine pure_does ⟨?_, hprogress.trans_le h₂.le⟩
    rw [List.append_nil]
    exact hgrows.trans h₂

/-! ### Declarations -/

theorem rInitialiser_does (hs : InRange s) (hroom : Room 4 n s) :
    Does n rInitialiser s (GrowsBy s) := by
  refine atKind_does (ite_does ?_ ?_)
  · intro _
    refine expect_does hs (by decide) ?_
    intro b s₁ h₁ _
    refine Does.seq (rExprList_grows h₁.range (hroom.grows h₁)) ?_
    intro _ s₂ tr₂ h₂
    exact pure_does (h₁.trans (Grows.trans h₂ (Grows.refl (Grows.range h₂))))
  · intro _
    exact pure_does (Grows.refl hs)

theorem rDeclNames_does {item : ListItem} (hs : InRange s) (hroom : Room 4 n s) :
    Does n (rDeclNames item) s (GrowsBy s) := by
  refine start_does (Does.seq (rItem_does (inRange_push hs _)
    ((hroom.push _).mono (by decide))) ?_)
  intro _ s₁ tr₁ h₁
  have hroom₁ := (hroom.push _).grows h₁
  refine Does.seq (commaLoop_grows (Grows.range h₁) hroom₁) ?_
  intro _ s₂ tr₂ h₂
  refine complete_does ?_
  have hlist : Grows s (s₂.push Event.exit) (tr₁ ++ tr₂) :=
    Grows.node (show assignList ≠ SyntaxKind.tombstone by decide) (Grows.trans h₁ h₂)
  refine Does.mono (rInitialiser_does hlist.range
    (Room.push (hroom₁.grows h₂) _)) ?_
  intro _ s₃ tr₃ h₃
  have hall := hlist.trans h₃
  rwa [List.append_assoc] at hall

/-- A local function, or names. -/
theorem functionOr_does {rest : ParseM Unit} (hs : InRange s) (hroom : Room 4 n s)
    (hrest : Does n rest s (GrowsBy s)) :
    Does n (atKind >>= fun t => if t = functionKw then (rFunc false >>= fun _ => pure ()) else rest)
      s (GrowsBy s) := by
  refine atKind_does (ite_does ?_ ?_)
  · intro _
    refine Does.seq (rFunc_does hs (Or.inl hroom)) ?_
    rintro _ s₁ tr₁ ⟨hnode, -⟩
    have h₁ := hnode.grows (show funcStmt ≠ SyntaxKind.tombstone by decide)
    exact pure_does (h₁.trans (Grows.refl h₁.range))
  · intro _
    exact hrest

theorem rGlobalNames_does (hs : InRange s) (hroom : Room 4 n s) :
    Does n rGlobalNames s (GrowsBy s) := by
  refine atKind_does (ite_does ?_ ?_)
  · intro _
    refine expect_does hs (by decide) ?_
    intro b s₁ h₁ _
    exact pure_does (h₁.trans (Grows.refl h₁.range))
  · intro _
    exact rDeclNames_does hs hroom

theorem rDecl_does (hs : InRange s) (hready : Ready n localKw s) :
    Does n rDecl s fun o s' tr =>
      NodeOf declStmt s o s' tr ∧ (s.atKind = localKw → s.cursor < s'.cursor) := by
  refine keyword_does (by decide) hs hready ?_
  intro marker s₁ hs₁ hroom
  refine Does.seq (functionOr_does hs₁ hroom (rDeclNames_does hs₁ hroom)) ?_
  intro _ s₂ tr₂ h₂
  refine Does.mono (finish_does (Grows.range h₂)) ?_
  intro o s' tr h
  exact Grows.finishes h₂ h

theorem rGlobal_does (hs : InRange s) (hready : Ready n globalKw s) :
    Does n rGlobal s fun o s' tr =>
      NodeOf globalStmt s o s' tr ∧ (s.atKind = globalKw → s.cursor < s'.cursor) := by
  refine keyword_does (by decide) hs hready ?_
  intro marker s₁ hs₁ hroom
  have hnames : Does n (rGlobalAttrib >>= fun _ => rGlobalNames) s₁ (GrowsBy s₁) := by
    refine Does.seq (rGlobalAttrib_does hs₁) ?_
    intro _ s₂ tr₂ h₂
    refine Does.mono (rGlobalNames_does (Grows.range h₂) (hroom.grows h₂)) ?_
    intro _ s₃ tr₃ h₃
    exact Grows.trans h₂ h₃
  refine Does.seq (functionOr_does hs₁ hroom hnames) ?_
  intro _ s₂ tr₂ h₂
  refine Does.mono (finish_does (Grows.range h₂)) ?_
  intro o s' tr h
  exact Grows.finishes h₂ h

/-! ### Statements -/

/-- A statement passes a token; otherwise nothing happens, and no statement may begin here. -/
def StmtPost (s : PState) (o : Option CompletedMarker) (s' : PState) (tr : Trace) : Prop :=
  (Grows s s' tr ∧ s.cursor < s'.cursor) ∨
    (o = none ∧ s' = s ∧ tr = [] ∧ s.atKind ∉ STATEMENT_RECOVERY)

/-- A node that begins with the current token. -/
theorem stmt_of_node {m : RuleM} {kind k : SyntaxKind} (hkind : kind ≠ SyntaxKind.tombstone)
    (hat : s.atKind = k)
    (h : Does n m s fun o s' tr => NodeOf kind s o s' tr ∧ (s.atKind = k → s.cursor < s'.cursor)) :
    Does n m s fun o s' tr => StmtPost s o s' tr := by
  refine Does.mono h ?_
  rintro o s' tr ⟨hnode, hlt⟩
  exact Or.inl ⟨hnode.grows hkind, hlt hat⟩

/-- A node of one token. -/
theorem stmt_of_token {kind t : SyntaxKind} (hkind : kind ≠ SyntaxKind.tombstone) (ht : t ≠ eof)
    (hs : InRange s) (hat : s.atKind = t) :
    Does n (start kind >>= fun marker => expect t >>= fun _ => completed marker) s
      fun o s' tr => StmtPost s o s' tr := by
  refine Does.mono (tokenNode_does hs ht) ?_
  rintro o s' tr ⟨hnode, -, hlt⟩
  exact Or.inl ⟨hnode.grows hkind, hlt hat⟩

/-- **A statement**, by its first token. -/
theorem rStmtOf_does (hs : InRange s) (hroom : Room 2 n s) :
    Does n (rStmtOf s.atKind) s fun o s' tr => StmtPost s o s' tr := by
  have hroom₀ : Room 0 n s := hroom.mono (by decide)
  refine ite_does (fun hat => stmt_of_node (by decide) hat
    (rDo_does hs (Or.inr ⟨hroom₀, hat⟩))) fun hdo => ?_
  refine ite_does (fun hat => stmt_of_node (by decide) hat
    (rWhile_does hs (Or.inr ⟨hroom₀, hat⟩))) fun hwhile => ?_
  refine ite_does (fun hat => stmt_of_node (by decide) hat
    (rRepeat_does hs (Or.inr ⟨hroom₀, hat⟩))) fun hrepeat => ?_
  refine ite_does (fun hat => ?_) fun hif => ?_
  · refine call_last (below_of_room ⟨hs, hat, by decide⟩ hroom (show 1 < 2 by decide)) ?_
    rintro o s' tr ⟨hnode, hlt⟩
    exact Or.inl ⟨hnode.grows (by decide), hlt⟩
  refine ite_does (fun hat => ?_) fun hfor => ?_
  · refine Does.mono (rFor_does hs hroom₀ hat) ?_
    intro o s' tr h
    exact Or.inl h
  refine ite_does (fun hat => stmt_of_node (by decide) hat
    (rReturn_does hs (Or.inr ⟨hroom₀, hat⟩))) fun hreturn => ?_
  refine ite_does (fun hat => stmt_of_token (by decide) (by decide) hs hat) fun hbreak => ?_
  refine ite_does (fun hat => stmt_of_node (show funcStmt ≠ SyntaxKind.tombstone by decide) hat
    (rFunc_does hs (Or.inr ⟨hroom₀, hat⟩))) fun hfunction => ?_
  refine ite_does (fun hat => stmt_of_node (by decide) hat
    (rDecl_does hs (Or.inr ⟨hroom₀, hat⟩))) fun hlocal => ?_
  refine ite_does (fun hat => stmt_of_node (by decide) hat
    (rGlobal_does hs (Or.inr ⟨hroom₀, hat⟩))) fun hglobal => ?_
  refine ite_does (fun hat => stmt_of_node (by decide) hat
    (rLabel_does hs (Or.inr ⟨hroom₀, hat⟩))) fun _ => ?_
  refine ite_does (fun hat => stmt_of_node (by decide) hat
    (rGoto_does hs (Or.inr ⟨hroom₀, hat⟩))) fun _ => ?_
  refine ite_does (fun hat => ?_) fun _ => ?_
  · refine Does.mono (rMaybeAssign_does hs (hroom.mono (by decide)) hat) ?_
    intro o s' tr h
    exact Or.inl h
  refine ite_does (fun hat => stmt_of_token (by decide) (by decide) hs hat) fun _ => ?_
  refine pure_does (Or.inr ⟨rfl, rfl, rfl, ?_⟩)
  simp [STATEMENT_RECOVERY, hdo, hwhile, hrepeat, hif, hfor, hreturn, hbreak, hfunction, hlocal,
    hglobal]

/-! ### Recovery -/

/-- Tokens one after the other. -/
theorem nested_tokens (ts : List Token) :
    ∃ c, Nested none (ts.map fun t => Event.token t.kind t.span) c ∧ callTokens c = ts := by
  induction ts with
  | nil => exact ⟨[], Nested.nil, rfl⟩
  | cons t ts ih =>
      obtain ⟨c, hc, htoks⟩ := ih
      exact ⟨_, (Nested.token t).append hc, by rw [callTokens_append, htoks]; rfl⟩

/-- The tokens that are skipped. -/
def eaten (oneOf : List SyntaxKind) (s : PState) : List Token :=
  (s.tokens.drop s.cursor).takeWhile fun t => decide (t.kind ≠ eof) && !oneOf.contains t.kind

/-- The state behind the tokens that are skipped. -/
def ateUntil (oneOf : List SyntaxKind) (s : PState) : PState :=
  { s with
    events := s.events ++ (eaten oneOf s).map fun t => Event.token t.kind t.span
    cursor := s.cursor + (eaten oneOf s).length }

/-- The last token is not skipped. -/
theorem eaten_lt {oneOf : List SyntaxKind} (hs : InRange s) :
    s.cursor + (eaten oneOf s).length < s.tokens.length := by
  obtain ⟨front, htokens⟩ := hs.last
  have hlt := hs.lt
  have hle : s.cursor ≤ front.length := by
    rw [htokens] at hlt
    simp at hlt
    omega
  have hdrop : s.tokens.drop s.cursor = front.drop s.cursor ++ [eofToken] := by
    rw [htokens, List.drop_append_of_le_length hle]
  have hshort : (eaten oneOf s).length ≤ (front.drop s.cursor).length := by
    rw [eaten, hdrop]
    by_contra hlong
    have hprefix : (eaten oneOf s) <+: front.drop s.cursor ++ [eofToken] := by
      rw [eaten, hdrop]
      exact List.takeWhile_prefix _
    have hall : eaten oneOf s = front.drop s.cursor ++ [eofToken] := by
      refine hprefix.eq_of_length_le ?_
      rw [eaten, hdrop, List.length_append, List.length_singleton]
      omega
    have hmem : eofToken ∈ eaten oneOf s := by
      rw [hall]
      exact List.mem_append_right _ List.mem_cons_self
    have hpass := List.mem_takeWhile_imp hmem
    simp [eofToken] at hpass
  rw [htokens, List.length_append, List.length_singleton]
  rw [List.length_drop] at hshort
  omega

theorem ateUntil_grows (oneOf : List SyntaxKind) (hs : InRange s) :
    Grows s (ateUntil oneOf s) [] where
  tokens := rfl
  le := Nat.le_add_right _ _
  range := ⟨eaten_lt hs, hs.last⟩
  events := by
    refine ⟨_, rfl, ?_, ?_⟩
    · intro _
      obtain ⟨c, hc, htoks⟩ := nested_tokens (eaten oneOf s)
      refine ⟨c, hc, ?_⟩
      show s.tokens.take (s.cursor + (eaten oneOf s).length) = _
      have hprefix : eaten oneOf s <+: s.tokens.drop s.cursor := List.takeWhile_prefix _
      rw [List.take_add, htoks, ← List.prefix_iff_eq_take.mp hprefix]
    · intro hno
      exact absurd allExpected_nil hno

/-- A token at which the recovery does not stop is skipped. -/
theorem eaten_pos (oneOf : List SyntaxKind) (hs : InRange s) (heof : s.atKind ≠ eof)
    (hone : s.atKind ∉ oneOf) : 0 < (eaten oneOf s).length := by
  have hdrop : s.tokens.drop s.cursor = s.token :: s.tokens.drop (s.cursor + 1) := by
    rw [List.drop_eq_getElem_cons hs.lt, PState.token, List.getD_eq_getElem?_getD,
      List.getElem?_eq_getElem hs.lt]
    rfl
  have hpass : (decide (s.token.kind ≠ eof) && !oneOf.contains s.token.kind) = true := by
    simp only [Bool.and_eq_true, decide_eq_true_eq, Bool.not_eq_true', List.contains_eq_mem,
      decide_eq_false_iff_not]
    exact ⟨heof, hone⟩
  rw [eaten, hdrop, List.takeWhile_cons, if_pos hpass]
  exact Nat.succ_pos _

/-- **The recovery from errors.** -/
theorem errorEatUntil_does {β : Type} {Q : β → PState → Trace → Prop} {oneOf : List SyntaxKind}
    {f : Span → ParseM β} (hs : InRange s)
    (h : ∀ span s₁, Grows s s₁ [] →
      (s.atKind ≠ eof → s.atKind ∉ oneOf → s.cursor < s₁.cursor) → Does n (f span) s₁ Q) :
    Does n (errorEatUntil oneOf >>= f) s Q := by
  have hpush := inRange_push hs (Event.enter invalid 0)
  have hate := ateUntil_grows oneOf hpush
  refine h _ _ (Grows.node (show invalid ≠ SyntaxKind.tombstone by decide) hate) ?_
  intro heof hone
  have hpos := eaten_pos oneOf hpush heof hone
  exact Nat.lt_add_of_pos_right hpos

theorem stmt_grows {k : ℕ} (hs : InRange s) (hroom : Room k n s) (hk : 2 < k) :
    Does n (Proc.call Rule.stmt) s fun _ s' tr =>
      Grows s s' tr ∧ (s.atKind ≠ eof → s.cursor < s'.cursor) := by
  refine call_last (below_of_room ⟨hs, trivial⟩ hroom hk) ?_
  intro o s' tr h
  exact h

/-- What is skipped, with its error, and the next statement. -/
theorem recover_does (hs : InRange s) (hroom : Room 2 n s) (heof : s.atKind ≠ eof)
    (hpass : Room 4 n s ∨ s.atKind ∉ STATEMENT_RECOVERY) :
    Does n (errorEatUntil STATEMENT_RECOVERY >>= fun span => reportStatement span >>= fun _ =>
      Proc.call Rule.stmt) s fun _ s' tr =>
        Grows s s' tr ∧ (s.atKind ∉ STATEMENT_RECOVERY → s.cursor < s'.cursor) := by
  refine errorEatUntil_does hs ?_
  intro span s₁ h₁ hlt
  have hreport := report_grows h₁.range "expected a statement"
    ("expected a statement but got \"" ++ s₁.source span ++ "\"")
  have hroom₁ : Room 4 n s₁ := by
    rcases hpass with hroom' | hpass
    · exact hroom'.grows h₁
    · exact hroom.advance h₁ hs (hlt heof hpass)
  refine report_does ?_
  refine Does.mono (stmt_grows hreport.range (hroom₁.grows hreport) (by decide)) ?_
  rintro o s' tr ⟨h₂, -⟩
  refine ⟨h₁.trans (hreport.trans h₂), ?_⟩
  intro hno
  exact (hlt heof hno).trans_le h₂.le

/-- **A statement, or the next one behind an error.** -/
theorem rStmt_does (hs : InRange s) (hroom : Room 2 n s) :
    Does n rStmt s fun _ s' tr =>
      Grows s s' tr ∧ (s.atKind ≠ eof → s.cursor < s'.cursor) := by
  refine atKind_does (Does.seq (rStmtOf_does hs hroom) ?_)
  rintro (_ | marker) s₁ tr₁ hpost
  · rcases hpost with ⟨h₁, hlt⟩ | ⟨-, rfl, rfl, hno⟩
    · -- the statement gave up behind a token
      have hroom₁ := hroom.advance h₁ hs hlt
      refine atKind_does (ite_does ?_ ?_)
      · intro _
        refine pure_does ⟨?_, fun _ => hlt⟩
        rw [List.append_nil]
        exact h₁
      · intro heof
        refine Does.mono (recover_does h₁.range (hroom₁.mono (by decide)) heof (Or.inl hroom₁)) ?_
        rintro o s' tr ⟨h₂, -⟩
        exact ⟨h₁.trans h₂, fun _ => hlt.trans_le h₂.le⟩
    · -- no statement begins here
      refine atKind_does (ite_does ?_ ?_)
      · intro heof
        exact pure_does ⟨Grows.refl hs, fun hne => absurd heof hne⟩
      · intro heof
        refine Does.mono (recover_does hs hroom heof (Or.inr hno)) ?_
        rintro o s' tr ⟨h₂, hlt⟩
        exact ⟨h₂, fun _ => hlt hno⟩
  · rcases hpost with ⟨h₁, hlt⟩ | ⟨hnone, -⟩
    · exact pure_does ⟨h₁.trans (Grows.refl h₁.range), fun _ => hlt⟩
    · cases hnone

/-! ### Lists of statements -/

theorem rItems_does (hs : InRange s) (hroom : Room 3 n s) : Does n rItems s (GrowsBy s) := by
  refine atKind_does (ite_does ?_ ?_)
  · intro _
    exact pure_does (Grows.refl hs)
  · intro heof
    refine Does.seq (stmt_grows hs hroom (by decide)) ?_
    rintro (_ | marker) s₁ tr₁ ⟨h₁, hlt⟩
    · exact pure_does (h₁.trans (Grows.refl h₁.range))
    · refine call_last (below_of_room ⟨h₁.range, trivial⟩ (hroom.advance h₁ hs (hlt heof))
        (show 3 < 4 by decide)) ?_
      intro o s₂ tr₂ h₂
      exact h₁.trans h₂

/-- A block goes on for as long as it is not stopped; at the end of the input nothing bounds it. -/
theorem rBlockLoop_does {stop : BlockEnd} (hs : InRange s)
    (hroom : Room 4 n s ∨ (Room 3 n s ∧ s.atKind ≠ eof)) :
    Does n (rBlockLoop stop) s fun _ s' tr => Grows s s' tr ∧ stop.stops s'.atKind = true := by
  refine atKind_does (ite_does ?_ ?_)
  · intro hstop
    exact pure_does ⟨Grows.refl hs, hstop⟩
  · intro _
    have hroom₃ : Room 3 n s := by
      rcases hroom with hroom | ⟨hroom, -⟩
      · exact hroom.mono (by decide)
      · exact hroom
    refine Does.seq (stmt_grows hs hroom₃ (by decide)) ?_
    rintro o s₁ tr₁ ⟨h₁, hlt⟩
    have hroom₁ : Room 4 n s₁ := by
      rcases hroom with hroom | ⟨hroom, heof⟩
      · exact hroom.grows h₁
      · exact hroom.advance h₁ hs (hlt heof)
    refine call_last (below_of_room ⟨h₁.range, trivial⟩ hroom₁ (show 3 < 4 by decide)) ?_
    rintro o' s₂ tr₂ ⟨h₂, hstop⟩
    exact ⟨h₁.trans h₂, hstop⟩

theorem rRoot_does (hs : InRange s) (hroom : Room 4 n s) :
    Does n rRoot s fun o s' tr => NodeOf root s o s' tr := by
  refine start_does (call_does (below_of_room ⟨inRange_push hs _, trivial⟩ (hroom.push _)
    (show 3 < 4 by decide)) ?_)
  intro o s₁ tr₁ h₁
  have hgrows : Grows (s.push (Event.enter root 0)) s₁ tr₁ := h₁
  exact completed_does ⟨rfl, s₁, hgrows.trans (Grows.refl hgrows.range), rfl⟩

/-! ### The contract -/

/-- The bound of what a call may call. -/
def callBound (r : Rule) (s : PState) : Bound := { tokens := s.tokens, size := ruleSize r s }

theorem room_callBound (r : Rule) (s : PState) : Room r.rank (callBound r s) s :=
  ⟨rfl, Nat.le_refl _⟩

/-- Calls that are bounded by a call's size are allowed to it. -/
theorem spec_of_does {r : Rule} {m : RuleM} {Q : Option CompletedMarker → PState → Trace → Prop}
    (h : Does (callBound r s) m s Q) (hq : ∀ o t tr, Q o t tr → RulePost r s o t ((r, s) :: tr)) :
    Spec ((parserContract s.tokens).Allowed r s) RulePost (m s)
      fun o t tr => RulePost r s o t ((r, s) :: tr) :=
  Spec.mono h (fun _ _ hbelow => ⟨hbelow.1, Or.inr hbelow.2⟩) hq

/-- A call that is exempted may make any. -/
theorem spec_of_exempt {r : Rule} {m : RuleM} {Q : Option CompletedMarker → PState → Trace → Prop}
    (hexempt : (parserContract s.tokens).Exempt r s) {size : ℕ}
    (h : Does { tokens := s.tokens, size := size } m s Q)
    (hq : ∀ o t tr, Q o t tr → RulePost r s o t ((r, s) :: tr)) :
    Spec ((parserContract s.tokens).Allowed r s) RulePost (m s)
      fun o t tr => RulePost r s o t ((r, s) :: tr) :=
  Spec.mono h (fun _ _ hbelow => ⟨hbelow.1, Or.inl hexempt⟩) hq

/-- An expression with any binding power. -/
theorem exprAt_does {bp : ℕ} (hs : InRange s) (hroom : Room 1 n s) :
    Does n (Proc.call (Rule.expr bp)) s fun o s' tr => ExprPost s o s' tr := by
  refine call_last (below_of_room ⟨hs, trivial⟩ hroom (show 0 < 1 by decide)) ?_
  intro o s₁ tr hpost
  exact hpost

/-- **Every rule keeps the contract.** -/
theorem parserContract_valid (tokens : List Token) : (parserContract tokens).Valid ruleBody := by
  rintro r s ⟨hpre, rfl⟩
  have hs : InRange s := hpre.1
  have hroom := room_callBound r s
  have hplain : ∀ tr, Expected (r, s) = true → (AllExpected ((r, s) :: tr) ↔ AllExpected tr) :=
    fun _ hexpected => allExpected_plain hexpected
  cases r with
  | root => exact spec_of_does (rRoot_does hs hroom) fun o t tr h => h.congr (hplain tr rfl)
  | items => exact spec_of_does (rItems_does hs hroom) fun o t tr h => Grows.congr h (hplain tr rfl)
  | stmt =>
      exact spec_of_does (rStmt_does hs hroom) fun o t tr h => ⟨h.1.congr (hplain tr rfl), h.2⟩
  | blockLoop stop =>
      by_cases heof : s.atKind = eof
      · refine spec_of_exempt
          (show (parserContract s.tokens).Exempt (Rule.blockLoop stop) s from heof)
          (rBlockLoop_does hs (Or.inl ⟨rfl, Nat.le_refl _⟩)) ?_
        intro o t tr h
        exact ⟨h.1.congr (hplain tr rfl), h.2⟩
      · refine spec_of_does (rBlockLoop_does hs (Or.inr ⟨hroom, heof⟩)) ?_
        intro o t tr h
        exact ⟨h.1.congr (hplain tr rfl), h.2⟩
  | ifRule kind =>
      refine spec_of_does (rIf_does hs hpre.2.2 hpre.2.1 (hroom.mono (Nat.zero_le _))) ?_
      intro o t tr h
      exact ⟨h.1.congr (hplain tr rfl), h.2⟩
  | expr bp =>
      exact spec_of_does (rExprInner_does hs hroom) fun o t tr h => h.congr (hplain tr rfl)
  | operand bp =>
      refine spec_of_does (exprAt_does hs hroom) ?_
      intro o t tr h
      exact h.operand
  | exprLoop bp lhs =>
      exact spec_of_does (rExprLoop_does hs hpre.2 hroom) fun o t tr h => h.congr (hplain tr rfl)
  | exprListLoop =>
      exact spec_of_does (rExprListLoop_does hs hroom) fun o t tr h =>
        Grows.congr h (hplain tr rfl)
  | callArgsLoop =>
      exact spec_of_does (rCallArgsLoop_does hs hroom) fun o t tr h =>
        Grows.congr h (hplain tr rfl)
  | defArgsLoop marker => exact spec_of_does (rDefArgsLoop_does hs hroom) fun o t tr h => h
  | tableLoop =>
      exact spec_of_does (rTableLoop_does hs hroom) fun o t tr h => Grows.congr h (hplain tr rfl)
  | simpleExprLoop allowCall lhs =>
      exact spec_of_does (rSimpleExprLoop_does hs hpre.2 hroom) fun o t tr h =>
        h.congr (hplain tr rfl)
  | commaLoop item =>
      exact spec_of_does (rCommaLoop_does hs hroom) fun o t tr h => Grows.congr h (hplain tr rfl)

end Tcvm.Parser
