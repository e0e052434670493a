/-
Comments and long brackets.

The callbacks of the lexer scan the text behind a token and return how far it reaches.  They look
for a closing bracket by slicing the text at every character, and panic where a slice ends inside of
one, where the text ends first, and at a line break that is the first thing in a comment.

* `Bump`, `longString`, `skipComment` — what moves the end of a token, and the callbacks;
* `CommentRight`, `LongRight` — where a comment and a long string end;
* `scanClosing_eq`, `lineLoop_eq` — what the loops find;
* `lexing_exact_iff` — **the texts for which the callbacks are right**.
-/

import Tcvm.Utf8Text

namespace Tcvm

open Utf8Text

/-! ### The callbacks -/

/-- How a callback ends: the token reaches this many bytes behind its first part, it is an error
token, or the host panics. -/
inductive Scan
  | ends (bytes : ℕ)
  | invalid
  | panic
  deriving DecidableEq

/-- `is_long_delimiter`. -/
def isLongDelimiter (slice : List Char) (delim : Char) : Bool :=
  if byteLen slice < 2 || slice.head? != some delim || slice.getLast? != some delim then false
  else slice.count '=' + 2 == byteLen slice

/-- `bump` of the library that runs the callbacks: the token goes on for some bytes of the text
behind it, and the host panics if they end inside of a character. -/
structure Bump where
  run : List Char → ℕ → Scan
  ends {rem : List Char} {n : ℕ} (h : slice? rem n ≠ none) : run rem n = Scan.ends n
  inside {rem : List Char} {n : ℕ} (h : slice? rem n = none) : run rem n = Scan.panic

instance : CoeFun Bump fun _ => List Char → ℕ → Scan := ⟨Bump.run⟩

/-- A `bump` that does nothing else. -/
def Bump.exact : Bump where
  run rem n := if slice? rem n = none then Scan.panic else Scan.ends n
  ends h := if_neg h
  inside h := if_pos h

variable (bump : Bump)

/-- The loop of `long_string` and `skip_long_comment`, from the byte `i` on. -/
def scanClosing (rem : List Char) (delimLen : ℕ) : ℕ → List Char → Scan
  | _, [] => Scan.panic
  | i, c :: cs =>
      match slice? (c :: cs) delimLen with
      | none => Scan.panic
      | some s =>
          if isLongDelimiter s ']' then bump rem (i + delimLen)
          else scanClosing rem delimLen (i + c.utf8Size) cs

/-- `long_string`, of the text behind the opening bracket. -/
def longString (delimLen : ℕ) (rem : List Char) : Scan := scanClosing bump rem delimLen 0 rem

/-- `skip_long_comment`. -/
def skipLongComment (delimLen : ℕ) (rem : List Char) : Scan := scanClosing bump rem delimLen 0 rem

/-- The loop of `starts_with_long_delimiter`, behind the first `i` bytes. -/
def openingLoop (delim : Char) : List Char → ℕ → List Char → Option ℕ
  | _, _, [] => none
  | slice, i, c :: cs =>
      if isLongDelimiter slice delim then some i
      else openingLoop delim (slice ++ [c]) (i + c.utf8Size) cs

/-- `starts_with_long_delimiter`. -/
def startsWithLongDelimiter (slice : List Char) (delim : Char) : Option ℕ :=
  if !"[[".toList.isPrefixOf slice && !"[=]".toList.isPrefixOf slice then none
  else openingLoop delim [] 0 slice

/-- The loop of `skip_comment`, from the byte `i` on. -/
def lineLoop (rem : List Char) : ℕ → List Char → Scan
  | _, [] => Scan.panic
  | i, c :: cs =>
      if "\r\n".toList.isPrefixOf (c :: cs) then
        -- `i - 1` underflows at the front of the comment
        if i = 0 then Scan.panic else bump rem (i - 1)
      else if c = '\n' then bump rem i
      else lineLoop rem (i + c.utf8Size) cs

/-- `skip_comment`, of the text behind `--`. -/
def skipComment (rem : List Char) : Scan :=
  match startsWithLongDelimiter rem '[' with
  | some delimLen =>
      match bump rem delimLen with
      | Scan.ends n =>
          match skipLongComment bump delimLen (rem.drop ((slice? rem n).getD []).length) with
          | Scan.ends m => Scan.ends (n + m)
          | other => other
      | other => other
  | none => lineLoop bump rem 0 rem

/-! ### Where tokens end -/

/-- A long bracket of a level. -/
def longBracket (delim : Char) (level : ℕ) : List Char :=
  delim :: (List.replicate level '=' ++ [delim])

/-- A line break. -/
def StartsBreak (text : List Char) : Prop := "\n".toList <+: text ∨ "\r\n".toList <+: text

/-- The text in front of the first line break, or the whole text. -/
def LineEnd (text line : List Char) : Prop :=
  ∃ rest, text = line ++ rest ∧ (rest = [] ∨ StartsBreak rest) ∧
    ∀ a b, text = a ++ b → a.length < line.length → ¬ StartsBreak b

/-- A long string ends behind the first closing bracket of its level. -/
def LongRight (level : ℕ) (rem : List Char) (r : Scan) : Prop :=
  (∃ before, FirstAt (longBracket ']' level) rem before ∧
      r = Scan.ends (byteLen (before ++ longBracket ']' level))) ∨
    (∀ before, ¬ FirstAt (longBracket ']' level) rem before) ∧ r = Scan.invalid

/-- A comment that begins with a long bracket ends like a long string, another one in front of the
next line break or at the end of the text. -/
def CommentRight (rem : List Char) (r : Scan) : Prop :=
  (∀ level, longBracket '[' level <+: rem →
    (∃ before, FirstAt (longBracket ']' level) (rem.drop (level + 2)) before ∧
      r = Scan.ends (byteLen (longBracket '[' level ++ before ++ longBracket ']' level))) ∨
    (∀ before, ¬ FirstAt (longBracket ']' level) (rem.drop (level + 2)) before) ∧
      r = Scan.invalid) ∧
  ((∀ level, ¬ longBracket '[' level <+: rem) → ∃ line, LineEnd rem line ∧
    r = Scan.ends (byteLen line))

/-! ### The closing bracket -/

variable {bump}

/-- At every character in front of the bracket, the slice that is tested ends between characters. -/
def Aligned (delimLen : ℕ) (text before : List Char) : Prop :=
  ∀ a b, text = a ++ b → a.length < before.length → (slice? b delimLen).isSome

theorem longBracket_ne_nil (delim : Char) (level : ℕ) : longBracket delim level ≠ [] := by
  simp [longBracket]

theorem byteLen_replicate_eq (n : ℕ) : byteLen (List.replicate n '=') = n := by
  induction n with
  | zero => rfl
  | succ n ih =>
      rw [List.replicate_succ, byteLen_cons, ih, show Char.utf8Size '=' = 1 from rfl, Nat.add_comm]

theorem byteLen_longBracket {delim : Char} (hdelim : delim.utf8Size = 1) (level : ℕ) :
    byteLen (longBracket delim level) = level + 2 := by
  rw [longBracket, byteLen_cons, byteLen_append, byteLen_replicate_eq, byteLen_cons, byteLen_nil,
    hdelim]
  omega

/-- As many `=` as bytes, and nothing else. -/
theorem eq_replicate_of_count {s : List Char} (h : s.count '=' = byteLen s) :
    s = List.replicate (byteLen s) '=' := by
  have hlen := length_le_byteLen s
  have hcount := List.count_le_length (a := '=') (l := s)
  have heq : s.count '=' = s.length := by omega
  have hlen' : byteLen s = s.length := by omega
  rw [hlen', List.eq_replicate_iff]
  exact ⟨rfl, fun c hc => ((List.count_eq_length.1 heq) c hc).symm⟩

/-- A slice of `level + 2` bytes is a delimiter iff it is the long bracket of the level. -/
theorem isLongDelimiter_iff {s : List Char} {delim : Char} {level : ℕ}
    (hdelim : delim.utf8Size = 1) (hne : delim ≠ '=') (hlen : byteLen s = level + 2) :
    isLongDelimiter s delim = true ↔ s = longBracket delim level := by
  constructor
  · intro htest
    unfold isLongDelimiter at htest
    split at htest
    · exact nomatch htest
    · rename_i hends
      simp only [Bool.or_eq_true, decide_eq_true_eq, bne_iff_ne, ne_eq, not_or, not_not,
        Nat.not_lt] at hends
      obtain ⟨⟨htwo, hhead⟩, hlast⟩ := hends
      obtain ⟨rest, rfl⟩ := List.head?_eq_some_iff.1 hhead
      have hrest : rest ≠ [] := by
        rintro rfl
        rw [byteLen_cons, byteLen_nil, hdelim] at htwo
        omega
      rw [List.getLast?_cons_of_ne_nil hrest] at hlast
      obtain ⟨middle, rfl⟩ := List.getLast?_eq_some_iff.1 hlast
      -- the two brackets are no `=`, so the bytes between them are the ones that were counted
      have hcount : middle.count '=' = byteLen middle := by
        rw [beq_iff_eq, List.count_cons_of_ne hne, List.count_append,
          List.count_cons_of_ne hne] at htest
        simp only [List.count_nil, byteLen_cons, byteLen_append, byteLen_nil, hdelim] at htest
        omega
      have hmiddle : byteLen middle = level := by
        simp only [byteLen_cons, byteLen_append, byteLen_nil, hdelim] at hlen
        omega
      rw [longBracket, ← hmiddle, ← eq_replicate_of_count hcount]
  · rintro rfl
    have hcount : (longBracket delim level).count '=' = level := by
      rw [longBracket, List.count_cons_of_ne hne, List.count_append, List.count_replicate_self,
        List.count_cons_of_ne hne, List.count_nil, Nat.add_zero]
    have hlast : (longBracket delim level).getLast? = some delim := by
      rw [longBracket, ← List.cons_append, List.getLast?_concat]
    have hhead : (longBracket delim level).head? = some delim := rfl
    rw [isLongDelimiter, if_neg, hcount, hlen]
    · simp
    · rw [hlen, hhead, hlast]
      simp

theorem aligned_cons {delimLen : ℕ} {c : Char} {text before : List Char} :
    Aligned delimLen (c :: text) (c :: before) ↔
      (slice? (c :: text) delimLen).isSome ∧ Aligned delimLen text before := by
  constructor
  · intro h
    refine ⟨h [] (c :: text) rfl (Nat.zero_lt_succ _), fun a b hsplit hlt => ?_⟩
    exact h (c :: a) b (by rw [hsplit]; rfl) (Nat.succ_lt_succ hlt)
  · rintro ⟨hfirst, hrest⟩ a b hsplit hlt
    cases a with
    | nil =>
        obtain rfl : c :: text = b := hsplit
        exact hfirst
    | cons c' a =>
        obtain ⟨rfl, htail⟩ := List.cons.inj hsplit
        exact hrest a b htail (Nat.lt_of_succ_lt_succ hlt)

/-- A bracket at the front is the slice that is tested. -/
theorem slice?_longBracket {level : ℕ} {text s : List Char}
    (hslice : slice? text (level + 2) = some s) :
    isLongDelimiter s ']' = true ↔ longBracket ']' level <+: text := by
  obtain ⟨hpre, hlen⟩ := slice?_eq_some_iff.1 hslice
  rw [isLongDelimiter_iff (show Char.utf8Size ']' = 1 from rfl) (by decide) hlen]
  constructor
  · rintro rfl
    exact hpre
  · intro hbracket
    exact prefix_inj hpre hbracket (hlen.trans (byteLen_longBracket rfl level).symm)

theorem bump_prefix {rem s : List Char} (h : s <+: rem) :
    bump rem (byteLen s) = Scan.ends (byteLen s) :=
  bump.ends (by rw [slice?_eq_some_iff.2 ⟨h, rfl⟩]; exact Option.some_ne_none s)

theorem Bump.ne_invalid {rem : List Char} {n : ℕ} : bump rem n ≠ Scan.invalid := by
  by_cases h : slice? rem n = none
  · rw [bump.inside h]
    exact nofun
  · rw [bump.ends h]
    exact nofun

/-- **The loop finds the first closing bracket of the level**, if no slice on the way there ends
inside of a character. -/
theorem scanClosing_eq {level e : ℕ} (text : List Char) :
    ∀ front, scanClosing bump (front ++ text) (level + 2) (byteLen front) text = Scan.ends e ↔
      ∃ before, FirstAt (longBracket ']' level) text before ∧ Aligned (level + 2) text before ∧
        e = byteLen front + byteLen before + (level + 2) := by
  induction text with
  | nil =>
      intro front
      refine iff_of_false (by simp [scanClosing]) ?_
      rintro ⟨before, hfirst, -⟩
      exact not_firstAt_nil (longBracket_ne_nil _ _) hfirst
  | cons c text ih =>
      intro front
      rw [scanClosing]
      by_cases hbracket : longBracket ']' level <+: c :: text
      · have hslice := slice?_eq_some_iff.2 ⟨hbracket, byteLen_longBracket rfl level⟩
        have hbump : bump (front ++ c :: text) _ = _ :=
          bump_prefix ((List.prefix_append_right_inj front).2 hbracket)
        rw [byteLen_append, byteLen_longBracket rfl] at hbump
        rw [hslice]
        simp only [(slice?_longBracket hslice).2 hbracket, if_true, hbump, Scan.ends.injEq,
          firstAt_of_prefix hbracket, exists_eq_left, byteLen_nil, Nat.add_zero]
        constructor
        · rintro rfl
          exact ⟨fun a b _ hlt => absurd hlt (Nat.not_lt_zero _), rfl⟩
        · rintro ⟨-, rfl⟩
          rfl
      · cases hslice : slice? (c :: text) (level + 2) with
        | none =>
            refine iff_of_false (by simp) ?_
            rintro ⟨before, hfirst, haligned, -⟩
            obtain ⟨before, rfl, -⟩ := (firstAt_cons hbracket).1 hfirst
            have hsome := (aligned_cons.1 haligned).1
            rw [hslice] at hsome
            exact nomatch hsome
        | some s =>
            have htest : isLongDelimiter s ']' = false := by
              rw [Bool.eq_false_iff]
              exact fun h => hbracket ((slice?_longBracket hslice).1 h)
            have hlen : byteLen (front ++ [c]) = byteLen front + c.utf8Size := by simp
            have hnext := ih (front ++ [c])
            rw [List.append_assoc, List.singleton_append, hlen] at hnext
            simp only [htest, Bool.false_eq_true, if_false]
            rw [hnext]
            constructor
            · rintro ⟨before, hfirst, haligned, rfl⟩
              refine ⟨c :: before, (firstAt_cons hbracket).2 ⟨before, rfl, hfirst⟩,
                aligned_cons.2 ⟨by rw [hslice]; rfl, haligned⟩, ?_⟩
              rw [byteLen_cons]
              omega
            · rintro ⟨before, hfirst, haligned, rfl⟩
              obtain ⟨before, rfl, hrest⟩ := (firstAt_cons hbracket).1 hfirst
              refine ⟨before, hrest, (aligned_cons.1 haligned).2, ?_⟩
              rw [byteLen_cons]
              omega

theorem longString_eq {level e : ℕ} (rem : List Char) :
    longString bump (level + 2) rem = Scan.ends e ↔
      ∃ before, FirstAt (longBracket ']' level) rem before ∧ Aligned (level + 2) rem before ∧
        e = byteLen before + (level + 2) := by
  have hscan := @scanClosing_eq bump level e rem []
  rw [List.nil_append, byteLen_nil] at hscan
  simpa only [longString, Nat.zero_add] using hscan

theorem scanClosing_ne_invalid (rem : List Char) (delimLen : ℕ) (text : List Char) :
    ∀ i, scanClosing bump rem delimLen i text ≠ Scan.invalid := by
  induction text with
  | nil =>
      intro i h
      exact nomatch h
  | cons c text ih =>
      intro i h
      rw [scanClosing] at h
      split at h
      · exact nomatch h
      · split at h
        · exact bump.ne_invalid h
        · exact ih _ h

/-! ### The opening bracket -/

/-- A text that goes on behind `[=]` has no opening bracket in front. -/
theorem openingLoop_mistaken (text : List Char) :
    ∀ (slice : List Char) (i : ℕ), "[=]".toList <+: slice →
      openingLoop '[' slice i text = none := by
  induction text with
  | nil =>
      intro slice i _
      rfl
  | cons c text ih =>
      intro slice i hslice
      have htest : isLongDelimiter slice '[' = false := by
        rw [Bool.eq_false_iff]
        intro htest
        have htwo : 3 ≤ byteLen slice := by
          obtain ⟨rest, rfl⟩ := hslice
          have hthree : byteLen "[=]".toList = 3 := by decide
          rw [byteLen_append, hthree]
          omega
        obtain ⟨level, hlevel⟩ := Nat.exists_eq_add_of_le (show 2 ≤ byteLen slice by omega)
        rw [Nat.add_comm] at hlevel
        have hbracket := (isLongDelimiter_iff (show Char.utf8Size '[' = 1 from rfl) (by decide)
          hlevel).1 htest
        obtain ⟨rest, hrest⟩ := hslice
        have hmem : ']' ∈ slice := by
          rw [← hrest]
          exact List.mem_append_left _ (by decide)
        rw [hbracket] at hmem
        simp [longBracket, List.mem_replicate] at hmem
      rw [openingLoop, if_neg (by simp [htest])]
      refine ih _ _ (hslice.trans (List.prefix_append _ _))

/-- `starts_with_long_delimiter` only knows the brackets of level 0. -/
theorem startsWithLongDelimiter_eq (text : List Char) :
    startsWithLongDelimiter text '[' =
      if "[[".toList <+: text ∧ 2 < text.length then some 2 else none := by
  unfold startsWithLongDelimiter
  by_cases hopen : "[[".toList <+: text
  · obtain ⟨rest, rfl⟩ := hopen
    have htest : "[[".toList.isPrefixOf ("[[".toList ++ rest) = true :=
      List.isPrefixOf_iff_prefix.2 (List.prefix_append _ _)
    rw [htest]
    simp only [Bool.not_true, Bool.false_and, Bool.false_eq_true, if_false]
    cases rest with
    | nil => rfl
    | cons c rest =>
        rw [if_pos ⟨List.prefix_append _ _, by simp⟩]
        rfl
  · have htest : "[[".toList.isPrefixOf text = false := by
      rw [Bool.eq_false_iff]
      exact fun h => hopen (List.isPrefixOf_iff_prefix.1 h)
    have hlevel : ¬ ("[[".toList <+: text ∧ 2 < text.length) := fun h => hopen h.1
    rw [htest, if_neg hlevel]
    by_cases hmistake : "[=]".toList <+: text
    · obtain ⟨rest, rfl⟩ := hmistake
      rw [List.isPrefixOf_iff_prefix.2 (List.prefix_append _ _)]
      exact openingLoop_mistaken rest "[=]".toList 3 List.prefix_rfl
    · have hnone : "[=]".toList.isPrefixOf text = false := by
        rw [Bool.eq_false_iff]
        exact fun h => hmistake (List.isPrefixOf_iff_prefix.1 h)
      rw [hnone]
      rfl

/-! ### The end of a line -/

theorem exists_lineEnd (text : List Char) : ∃ line, LineEnd text line := by
  induction text with
  | nil => exact ⟨[], [], rfl, Or.inl rfl, fun a b _ hlt => absurd hlt (Nat.not_lt_zero _)⟩
  | cons c text ih =>
      by_cases hbreak : StartsBreak (c :: text)
      · exact ⟨[], c :: text, rfl, Or.inr hbreak, fun a b _ hlt => absurd hlt (Nat.not_lt_zero _)⟩
      · obtain ⟨line, rest, hsplit, hrest, hnone⟩ := ih
        refine ⟨c :: line, rest, by rw [hsplit]; rfl, hrest, fun a b hab hlt => ?_⟩
        cases a with
        | nil =>
            obtain rfl : c :: text = b := hab
            exact hbreak
        | cons c' a =>
            obtain ⟨rfl, htail⟩ := List.cons.inj hab
            exact hnone a b htail (Nat.lt_of_succ_lt_succ hlt)

/-- What `skip_comment` does at the end of a line, whose text goes up to the byte `i`. -/
def lineStop (bump : Bump) (rem : List Char) (i : ℕ) (rest : List Char) : Scan :=
  match rest with
  | [] => Scan.panic
  | c :: _ => if c = '\n' then bump rem i else if i = 0 then Scan.panic else bump rem (i - 1)

/-- The loop goes on to the end of the line. -/
theorem lineLoop_eq (line : List Char) :
    ∀ (before rest : List Char), (rest = [] ∨ StartsBreak rest) →
      (∀ a b, line ++ rest = a ++ b → a.length < line.length → ¬ StartsBreak b) →
        ∀ rem, lineLoop bump rem (byteLen before) (line ++ rest) =
          lineStop bump rem (byteLen (before ++ line)) rest := by
  induction line with
  | nil =>
      intro before rest hrest _ rem
      rw [List.append_nil, List.nil_append]
      rcases hrest with rfl | ⟨tail, rfl⟩ | ⟨tail, rfl⟩ <;> rfl
  | cons c line ih =>
      intro before rest hrest hnone rem
      have hfirst := hnone [] _ rfl (Nat.zero_lt_succ _)
      have hcrlf : "\r\n".toList.isPrefixOf (c :: (line ++ rest)) = false := by
        rw [Bool.eq_false_iff]
        exact fun h => hfirst (Or.inr (List.isPrefixOf_iff_prefix.1 h))
      have hlf : c ≠ '\n' := by
        rintro rfl
        exact hfirst (Or.inl (List.prefix_append _ _))
      rw [List.cons_append, lineLoop, hcrlf, if_neg Bool.false_ne_true, if_neg hlf]
      have hgo := ih (before ++ [c]) rest hrest (fun a b hab hlt =>
        hnone (c :: a) b (by rw [List.cons_append, hab]; rfl) (Nat.succ_lt_succ hlt)) rem
      rw [byteLen_append, byteLen_cons, byteLen_nil, Nat.add_zero] at hgo
      rw [hgo, List.append_assoc]
      rfl

/-- One byte in front of the end of a line there is a boundary iff its last character has one. -/
theorem bump_pred_iff {rem line : List Char} {e : ℕ} (h : line <+: rem) (hne : byteLen line ≠ 0) :
    bump rem (byteLen line - 1) = Scan.ends e ↔
      ∃ front c, c.utf8Size = 1 ∧ line = front ++ [c] ∧ e = byteLen front := by
  rcases List.eq_nil_or_concat' line with rfl | ⟨front, c, rfl⟩
  · exact absurd rfl hne
  have hc := c.utf8Size_pos
  have hlen : byteLen (front ++ [c]) = byteLen front + c.utf8Size := by simp
  constructor
  · intro hbump
    cases hslice : slice? rem (byteLen (front ++ [c]) - 1) with
    | some s =>
      obtain ⟨hs, hslen⟩ := slice?_eq_some_iff.1 hslice
      have hin : s <+: front := by
        rcases List.prefix_or_prefix_of_prefix hs h with hle | hge
        · rcases List.prefix_concat_iff.1 hle with rfl | hle
          · omega
          · exact hle
        · obtain ⟨t, rfl⟩ := hge
          rw [byteLen_append] at hslen
          omega
      obtain ⟨t, rfl⟩ := hin
      have hst : byteLen (s ++ t) = byteLen s + byteLen t := byteLen_append s t
      have hone : c.utf8Size = 1 ∧ byteLen t = 0 := by omega
      refine ⟨s ++ t, c, hone.1, rfl, ?_⟩
      rw [bump.ends (by rw [hslice]; exact Option.some_ne_none s)] at hbump
      obtain rfl := Scan.ends.inj hbump
      omega
    | none =>
      rw [bump.inside hslice] at hbump
      exact nomatch hbump
  · rintro ⟨front', c', hone, heq, rfl⟩
    obtain ⟨rfl, hcc⟩ := List.append_inj' heq rfl
    obtain rfl := List.singleton_inj.1 hcc
    rw [hlen, hone, Nat.add_sub_cancel]
    exact bump_prefix ((List.prefix_append _ _).trans h)

theorem lineLoop_of_lineEnd {line rest : List Char} (hrest : rest = [] ∨ StartsBreak rest)
    (hnone : ∀ a b, line ++ rest = a ++ b → a.length < line.length → ¬ StartsBreak b) :
    lineLoop bump (line ++ rest) 0 (line ++ rest) =
      lineStop bump (line ++ rest) (byteLen line) rest :=
  lineLoop_eq line [] rest hrest hnone (line ++ rest)

/-- **A line comment ends where its line does, if a line feed ends it**; in front of a carriage
return it loses its last byte. -/
theorem lineLoop_iff (rem : List Char) (e : ℕ) :
    lineLoop bump rem 0 rem = Scan.ends e ↔
      (∃ line, LineEnd rem line ∧ line ++ "\n".toList <+: rem ∧ e = byteLen line) ∨
        ∃ line c, c.utf8Size = 1 ∧ LineEnd rem (line ++ [c]) ∧
          line ++ [c] ++ "\r\n".toList <+: rem ∧ e = byteLen line := by
  have hlf : ∀ tail, "\n".toList ++ tail = '\n' :: tail := fun _ => rfl
  have hcrlf : ∀ tail, "\r\n".toList ++ tail = '\r' :: '\n' :: tail := fun _ => rfl
  have hcr : ('\r' : Char) ≠ '\n' := by decide
  constructor
  · intro hloop
    obtain ⟨line, rest, rfl, hrest, hnone⟩ := exists_lineEnd rem
    have hend : LineEnd (line ++ rest) line := ⟨rest, rfl, hrest, hnone⟩
    rw [lineLoop_of_lineEnd hrest hnone] at hloop
    rcases hrest with rfl | ⟨tail, rfl⟩ | ⟨tail, rfl⟩
    · exact nomatch hloop
    · rw [hlf, lineStop, if_pos rfl, bump_prefix (List.prefix_append _ _)] at hloop
      refine Or.inl ⟨line, hend, ?_, (Scan.ends.inj hloop).symm⟩
      rw [← List.append_assoc]
      exact List.prefix_append _ _
    · rw [hcrlf, lineStop, if_neg hcr] at hloop
      split at hloop
      · exact nomatch hloop
      · rename_i hne
        obtain ⟨front, c, hone, rfl, rfl⟩ :=
          (bump_pred_iff (List.prefix_append _ _) hne).1 hloop
        refine Or.inr ⟨front, c, hone, hend, ?_, rfl⟩
        rw [← List.append_assoc]
        exact List.prefix_append _ _
  · rintro (⟨line, hend, hbreak, rfl⟩ | ⟨front, c, hone, hend, hbreak, rfl⟩)
    · obtain ⟨rest, rfl, hrest, hnone⟩ := hend
      obtain ⟨tail, rfl⟩ := (List.prefix_append_right_inj line).1 hbreak
      rw [lineLoop_of_lineEnd hrest hnone, hlf, lineStop, if_pos rfl]
      exact bump_prefix (List.prefix_append _ _)
    · obtain ⟨rest, rfl, hrest, hnone⟩ := hend
      obtain ⟨tail, rfl⟩ := (List.prefix_append_right_inj _).1 hbreak
      have hne : byteLen (front ++ [c]) ≠ 0 := by
        rw [byteLen_append, byteLen_cons, hone]
        omega
      rw [lineLoop_of_lineEnd hrest hnone, hcrlf, lineStop, if_neg hcr, if_neg hne]
      exact (bump_pred_iff (List.prefix_append _ _) hne).2 ⟨front, c, hone, rfl, rfl⟩

theorem lineLoop_ne_invalid (rem text : List Char) :
    ∀ i, lineLoop bump rem i text ≠ Scan.invalid := by
  induction text with
  | nil =>
      intro i h
      exact nomatch h
  | cons c text ih =>
      intro i h
      rw [lineLoop] at h
      split at h
      · split at h
        · exact nomatch h
        · exact bump.ne_invalid h
      · split at h
        · exact bump.ne_invalid h
        · exact ih _ h

/-! ### The texts for which the callbacks are right -/

/-- The text closes the long bracket of its level, and every slice on the way there ends between
characters. -/
def LongFits (level : ℕ) (rem : List Char) : Prop :=
  ∃ before, FirstAt (longBracket ']' level) rem before ∧ Aligned (level + 2) rem before

/-- A comment of level 0 closes its bracket.  One of a higher level closes it on its line, which
goes on for nothing, up to a line feed, or for one byte, up to a carriage return.  Any other comment
has a line that a line feed ends. -/
def CommentFits (rem : List Char) : Prop :=
  ("[[".toList <+: rem ∧ LongFits 0 (rem.drop 2)) ∨
  (∃ level before, 0 < level ∧ longBracket '[' level <+: rem ∧
    FirstAt (longBracket ']' level) (rem.drop (level + 2)) before ∧
    let comment := longBracket '[' level ++ before ++ longBracket ']' level
    (LineEnd rem comment ∧ comment ++ "\n".toList <+: rem ∨
      ∃ c, c.utf8Size = 1 ∧ LineEnd rem (comment ++ [c]) ∧
        comment ++ [c] ++ "\r\n".toList <+: rem)) ∨
  (∀ level, ¬ longBracket '[' level <+: rem) ∧
    ∃ line, LineEnd rem line ∧ line ++ "\n".toList <+: rem

theorem longString_right_iff (level : ℕ) (rem : List Char) :
    LongRight level rem (longString bump (level + 2) rem) ↔ LongFits level rem := by
  constructor
  · rintro (⟨before, hfirst, hend⟩ | ⟨-, hinvalid⟩)
    · obtain ⟨before, hfirst, haligned, -⟩ := (longString_eq rem).1 hend
      exact ⟨before, hfirst, haligned⟩
    · exact absurd hinvalid (scanClosing_ne_invalid _ _ _ _)
  · rintro ⟨before, hfirst, haligned⟩
    refine Or.inl ⟨before, hfirst, (longString_eq rem).2 ⟨before, hfirst, haligned, ?_⟩⟩
    rw [byteLen_append, byteLen_longBracket rfl]

/-- A text begins with a long bracket of one level. -/
theorem longBracket_level_inj {text : List Char} {level level' : ℕ}
    (h : longBracket '[' level <+: text) (h' : longBracket '[' level' <+: text) :
    level = level' := by
  have hend : ∀ k, (longBracket '[' k)[k + 1]? = some '[' := by
    intro k
    rw [longBracket, List.getElem?_cons_succ, List.getElem?_append_right (by simp)]
    simp
  have hin : ∀ k j, j < k → (longBracket '[' k)[j + 1]? = some '=' := by
    intro k j hj
    rw [longBracket, List.getElem?_cons_succ, List.getElem?_append_left (by simpa using hj),
      List.getElem?_replicate, if_pos hj]
  have hkeep : ∀ {k i : ℕ} {c : Char},
    longBracket '[' k <+: text → (longBracket '[' k)[i]? = some c →
      text[i]? = some c := by
    rintro k i c ⟨rest, rfl⟩ hget
    rw [List.getElem?_append_left (List.getElem?_eq_some_iff.1 hget).1]
    exact hget
  -- the second bracket of the one is an equals sign of the other
  have hnot : ∀ {k k'}, longBracket '[' k <+: text → longBracket '[' k' <+: text → ¬ k < k' := by
    intro k k' hk hk' hlt
    have hsecond := hkeep hk' (hin k' k hlt)
    rw [hkeep hk (hend k)] at hsecond
    exact absurd (Option.some.inj hsecond) (by decide)
  have := hnot h h'
  have := hnot h' h
  omega

/-- A line ends in one place. -/
theorem lineEnd_unique {text line : List Char} {c : Char} (h : LineEnd text line) :
    ¬ LineEnd text (line ++ [c]) := by
  rintro ⟨rest', hsplit', -, hnone⟩
  obtain ⟨rest, hsplit, hrest, -⟩ := h
  have heq : rest = c :: rest' := by
    rw [hsplit, List.append_assoc] at hsplit'
    exact List.append_cancel_left hsplit'
  subst heq
  refine hnone line _ hsplit (by simp) ?_
  exact hrest.resolve_left (by simp)

/-- A comment that is closed is a part of the text. -/
theorem comment_prefix {rem before : List Char} {level : ℕ} (hopen : longBracket '[' level <+: rem)
    (hfirst : FirstAt (longBracket ']' level) (rem.drop (level + 2)) before) :
    longBracket '[' level ++ before ++ longBracket ']' level <+: rem := by
  obtain ⟨rest, rfl⟩ := hopen
  have hlen : (longBracket '[' level).length = level + 2 := by simp [longBracket]
  rw [← hlen, List.drop_left] at hfirst
  rw [List.append_assoc]
  exact (List.prefix_append_right_inj _).2 hfirst.1

/-- Without a bracket of level 0 and something behind it, the end of the line is looked for. -/
theorem skipComment_line {rem : List Char} (h : ¬ ("[[".toList <+: rem ∧ 2 < rem.length)) :
    skipComment bump rem = lineLoop bump rem 0 rem := by
  rw [skipComment, startsWithLongDelimiter_eq, if_neg h]

theorem skipComment_long {rem : List Char} {m : ℕ} (h : "[[".toList <+: rem ∧ 2 < rem.length) :
    skipComment bump rem = Scan.ends (2 + m) ↔ longString bump 2 (rem.drop 2) = Scan.ends m := by
  have hslice : slice? rem 2 = some "[[".toList :=
    slice?_eq_some_iff.2 ⟨h.1, by decide⟩
  rw [skipComment, startsWithLongDelimiter_eq, if_pos h]
  have hbump : bump rem 2 = Scan.ends 2 :=
    bump.ends (by rw [hslice]; exact Option.some_ne_none _)
  simp only [hbump, hslice]
  change (match longString bump 2 (rem.drop 2) with
    | Scan.ends m => Scan.ends (2 + m)
    | other => other) = _ ↔ _
  cases longString bump 2 (rem.drop 2) with
  | ends k => simp
  | invalid => simp
  | panic => simp

theorem skipComment_ne_invalid (rem : List Char) : skipComment bump rem ≠ Scan.invalid := by
  intro h
  unfold skipComment at h
  split at h
  · split at h
    · split at h
      · exact nomatch h
      · rename_i hscan
        exact scanClosing_ne_invalid _ _ _ _ h
    · exact bump.ne_invalid h
  · exact lineLoop_ne_invalid _ _ _ h

/-- A comment of a higher level ends right only if its line does. -/
theorem comment_level_iff {rem before : List Char} {level : ℕ}
    (hopen : longBracket '[' level <+: rem)
    (hfirst : FirstAt (longBracket ']' level) (rem.drop (level + 2)) before) :
    lineLoop bump rem 0 rem =
        Scan.ends (byteLen (longBracket '[' level ++ before ++ longBracket ']' level)) ↔
      let comment := longBracket '[' level ++ before ++ longBracket ']' level
      LineEnd rem comment ∧ comment ++ "\n".toList <+: rem ∨
        ∃ c, c.utf8Size = 1 ∧ LineEnd rem (comment ++ [c]) ∧
          comment ++ [c] ++ "\r\n".toList <+: rem := by
  have hcomment := comment_prefix hopen hfirst
  rw [lineLoop_iff]
  constructor
  · rintro (⟨line, hend, hbreak, hlen⟩ | ⟨line, c, hone, hend, hbreak, hlen⟩)
    · obtain rfl := prefix_inj hcomment ((List.prefix_append _ _).trans hbreak) hlen
      exact Or.inl ⟨hend, hbreak⟩
    · have hline : line <+: rem := by
        rw [List.append_assoc] at hbreak
        exact (List.prefix_append _ _).trans hbreak
      obtain rfl := prefix_inj hcomment hline hlen
      exact Or.inr ⟨c, hone, hend, hbreak⟩
  · rintro (⟨hend, hbreak⟩ | ⟨c, hone, hend, hbreak⟩)
    · exact Or.inl ⟨_, hend, hbreak, rfl⟩
    · exact Or.inr ⟨_, c, hone, hend, hbreak, rfl⟩

theorem comment_right_iff (rem : List Char) :
    CommentRight rem (skipComment bump rem) ↔ CommentFits rem := by
  by_cases hlong : ∃ level, longBracket '[' level <+: rem
  · obtain ⟨level, hopen⟩ := hlong
    have hlevel : ∀ {k}, longBracket '[' k <+: rem → k = level :=
      fun hk => longBracket_level_inj hk hopen
    have hright : CommentRight rem (skipComment bump rem) ↔
        ∃ before, FirstAt (longBracket ']' level) (rem.drop (level + 2)) before ∧
          skipComment bump rem =
            Scan.ends (byteLen (longBracket '[' level ++ before ++ longBracket ']' level)) := by
      constructor
      · rintro ⟨hbracket, -⟩
        exact (hbracket level hopen).resolve_right fun h => skipComment_ne_invalid rem h.2
      · intro h
        refine ⟨fun k hk => ?_, fun hnone => absurd hopen (hnone level)⟩
        obtain rfl := hlevel hk
        exact Or.inl h
    rw [hright]
    rcases Nat.eq_zero_or_pos level with rfl | hpos
    · by_cases hmore : 2 < rem.length
      · constructor
        · rintro ⟨before, -, hend⟩
          rw [byteLen_append, byteLen_append, byteLen_longBracket rfl, Nat.add_assoc,
            skipComment_long ⟨hopen, hmore⟩, longString_eq] at hend
          obtain ⟨before', hfirst, haligned, -⟩ := hend
          exact Or.inl ⟨hopen, before', hfirst, haligned⟩
        · rintro (⟨-, before, hfirst, haligned⟩ | ⟨k, -, hpos, hk, -⟩ | ⟨hnone, -⟩)
          · refine ⟨before, hfirst, ?_⟩
            rw [byteLen_append, byteLen_append, byteLen_longBracket rfl, Nat.add_assoc,
              skipComment_long ⟨hopen, hmore⟩, longString_eq]
            exact ⟨before, hfirst, haligned, by rw [byteLen_longBracket rfl]⟩
          · exact absurd (hlevel hk) (by omega)
          · exact absurd hopen (hnone 0)
      · -- nothing stands behind the bracket, so nothing closes it
        have hnil : rem.drop 2 = [] := List.drop_eq_nil_of_le (by omega)
        refine iff_of_false ?_ ?_
        · rintro ⟨before, hfirst, -⟩
          rw [hnil] at hfirst
          exact not_firstAt_nil (longBracket_ne_nil _ _) hfirst
        · rintro (⟨-, before, hfirst, -⟩ | ⟨k, -, hpos, hk, -⟩ | ⟨hnone, -⟩)
          · rw [hnil] at hfirst
            exact not_firstAt_nil (longBracket_ne_nil _ _) hfirst
          · exact absurd (hlevel hk) (by omega)
          · exact absurd hopen (hnone 0)
    · have hline : ¬ ("[[".toList <+: rem ∧ 2 < rem.length) := fun h =>
        absurd (@hlevel 0 h.1) (by omega)
      rw [skipComment_line hline]
      constructor
      · rintro ⟨before, hfirst, hend⟩
        exact Or.inr (Or.inl ⟨level, before, hpos, hopen, hfirst,
          (comment_level_iff hopen hfirst).1 hend⟩)
      · rintro (⟨hzero, -⟩ | ⟨k, before, -, hk, hfirst, hend⟩ | ⟨hnone, -⟩)
        · exact absurd (@hlevel 0 hzero) (by omega)
        · obtain rfl := hlevel hk
          exact ⟨before, hfirst, (comment_level_iff hopen hfirst).2 hend⟩
        · exact absurd hopen (hnone level)
  · have hnone : ∀ level, ¬ longBracket '[' level <+: rem := fun level h => hlong ⟨level, h⟩
    rw [skipComment_line fun h => hnone 0 h.1]
    constructor
    · rintro ⟨-, hright⟩
      obtain ⟨line, hend, hloop⟩ := hright hnone
      rcases (lineLoop_iff rem _).1 hloop with ⟨line', hend', hbreak, -⟩ |
        ⟨line', c, -, hend', hbreak, hlen⟩
      · exact Or.inr (Or.inr ⟨hnone, line', hend', hbreak⟩)
      · -- the comment would end one byte further on
        rw [List.append_assoc] at hbreak
        have hline : line <+: rem := by
          obtain ⟨rest, hsplit, -⟩ := hend
          exact ⟨rest, hsplit.symm⟩
        obtain rfl := prefix_inj hline ((List.prefix_append _ _).trans hbreak) hlen
        exact absurd hend' (lineEnd_unique hend)
    · rintro (⟨hzero, -⟩ | ⟨k, -, -, hk, -⟩ | ⟨-, line, hend, hbreak⟩)
      · exact absurd hzero (hnone 0)
      · exact absurd hk (hnone k)
      · refine ⟨fun level h => absurd h (hnone level), fun _ => ⟨line, hend, ?_⟩⟩
        exact (lineLoop_iff rem _).2 (Or.inl ⟨line, hend, hbreak, rfl⟩)

/-- **The callbacks are right exactly on the texts that close their long brackets, slice by slice
between characters, and whose lines end with a line feed.** -/
theorem lexing_exact_iff (bump : Bump) (level : ℕ) (rem : List Char) :
    (CommentRight rem (skipComment bump rem) ↔ CommentFits rem) ∧
      (LongRight level rem (longString bump (level + 2) rem) ↔ LongFits level rem) :=
  ⟨comment_right_iff rem, longString_right_iff level rem⟩

/-- Two dashes at the end of a text end the lexer, instead of a comment. -/
theorem comment_at_end : ¬ CommentRight [] (skipComment Bump.exact []) := by
  rintro ⟨-, hright⟩
  obtain ⟨line, -, hend⟩ := hright fun level h =>
    longBracket_ne_nil _ _ (List.prefix_nil.1 h)
  exact nomatch hend

end Tcvm
