/-
Integer conversions of `string.format`.

The digits are padded to the precision, the prefix comes from the `#` flag, and the field is padded
to the width.  What C's `printf` asks for is stated apart: a magnitude has as many digits as the
precision says at least, zero has none of its own, and the `#` flag of `o` only adds a zero where
the first digit is none.  The code adds that zero whatever the precision has put in front, and
never for zero itself.

* `fmtIntSigned`, `fmtIntUnsigned`, `applyWidth`, `formatInteger` — the source's functions;
* `printfText` — what `printf` asks for;
* `precisionPad_eq`, `applyWidth_eq` — the helpers;
* `format_integer_iff` — **where the text is the one of `printf`**;
* `not_format_integer_octal` — a zero too many.
-/

import Tcvm.FormatSpec

namespace Tcvm

/-! ### The functions -/

/-- A number in a radix, as `format!` writes it. -/
def radixDigits (radix : ℕ) (upper : Bool) (n : ℕ) : List UInt8 :=
  (Nat.toDigits radix n).map fun c => (if upper then c.toUpper else c).toNat.toUInt8

/-- The precision of an integer: zeros in front, and nothing at all for zero with precision zero. -/
def precisionPad (precision : Option ℕ) (n : ℕ) (digits : List UInt8) : List UInt8 :=
  match precision with
  | none => digits
  | some p =>
      let padded :=
        if digits.length < p then List.replicate (p - digits.length) 48 ++ digits else digits
      if p = 0 ∧ n = 0 then [] else padded

/-- `apply_width`. -/
def applyWidth (spec : FmtSpec) (sign base body : List UInt8) : List UInt8 :=
  let contentLen := sign.length + base.length + body.length
  let pad := spec.width - contentLen
  if pad = 0 then sign ++ base ++ body
  else
    let zeroPad := spec.flagZero && !(isIntConv spec.conv && spec.precision.isSome)
    if spec.flagMinus then sign ++ base ++ body ++ List.replicate pad 32
    else if zeroPad then sign ++ base ++ List.replicate pad 48 ++ body
    else List.replicate pad 32 ++ sign ++ base ++ body

/-- `fmt_int_signed`. -/
def fmtIntSigned (spec : FmtSpec) (n : Int64) : List UInt8 :=
  let abs := n.toInt.natAbs
  let digits := precisionPad spec.precision abs (radixDigits 10 false abs)
  let sign : List UInt8 :=
    if n < 0 then [45] else if spec.flagPlus then [43] else if spec.flagSpace then [32] else []
  applyWidth spec sign [] digits

/-- `fmt_int_unsigned`. -/
def fmtIntUnsigned (spec : FmtSpec) (n : UInt64) (radix : ℕ) (upper : Bool) : List UInt8 :=
  let digits := precisionPad spec.precision n.toNat (radixDigits radix upper n.toNat)
  let base : List UInt8 :=
    if spec.flagHash && n != 0 then
      if radix = 16 then (if upper then [48, 88] else [48, 120])
      else if radix = 8 then [48]
      else []
    else []
  applyWidth spec [] base digits

/-- The integer conversions of `format_one`. -/
def formatOneInteger (spec : FmtSpec) (n : Int64) : Option (List UInt8) :=
  if spec.conv = 100 ∨ spec.conv = 105 then some (fmtIntSigned spec n)
  else if spec.conv = 117 then some (fmtIntUnsigned spec n.toUInt64 10 false)
  else if spec.conv = 111 then some (fmtIntUnsigned spec n.toUInt64 8 false)
  else if spec.conv = 120 then some (fmtIntUnsigned spec n.toUInt64 16 false)
  else if spec.conv = 88 then some (fmtIntUnsigned spec n.toUInt64 16 true)
  else none

/-- An integer behind a percent sign: its text, and the rest of the format. -/
def formatInteger (fmt : List UInt8) (n : Int64) :
    Except FormatFault (List UInt8 × List UInt8) := do
  let (spec, rest) ← parseSpec fmt
  match formatOneInteger spec n with
  | some text => Except.ok (text, rest)
  | none => Except.error (FormatFault.invalidConversion spec.conv)

/-! ### What `printf` asks for -/

/-- The digits of a magnitude, at least as many as the precision says; without a precision at
least one.  Zero has no digits of its own. -/
def printfDigits (radix : ℕ) (upper : Bool) (precision : Option ℕ) (m : ℕ) : List UInt8 :=
  let digits := if m = 0 then [] else radixDigits radix upper m
  List.replicate (precision.getD 1 - digits.length) 48 ++ digits

/-- The `#` flag of `o`: the first digit is a zero. -/
def printfOctal (digits : List UInt8) : List UInt8 :=
  if digits.head? = some 48 then digits else 48 :: digits

/-- The field: spaces in front, spaces behind with `-`, zeros in front of the digits with `0`, which
`-` and a precision suppress. -/
def printfField (spec : FmtSpec) (sign base digits : List UInt8) : List UInt8 :=
  let content := sign ++ base ++ digits
  let pad := spec.width - content.length
  if spec.flagMinus then content ++ List.replicate pad 32
  else if spec.flagZero ∧ spec.precision = none then
    sign ++ base ++ List.replicate pad 48 ++ digits
  else List.replicate pad 32 ++ content

/-- The sign of a signed conversion. -/
def printfSign (spec : FmtSpec) (n : ℤ) : List UInt8 :=
  if n < 0 then [45] else if spec.flagPlus then [43] else if spec.flagSpace then [32] else []

/-- The text of an integer conversion. -/
def printfText (spec : FmtSpec) (n : Int64) : List UInt8 :=
  let unsigned := n.toUInt64.toNat
  match Char.ofNat spec.conv.toNat with
  | 'u' => printfField spec [] [] (printfDigits 10 false spec.precision unsigned)
  | 'o' =>
      let digits := printfDigits 8 false spec.precision unsigned
      printfField spec [] [] (if spec.flagHash then printfOctal digits else digits)
  | 'x' =>
      printfField spec [] (if spec.flagHash ∧ unsigned ≠ 0 then [48, 120] else [])
        (printfDigits 16 false spec.precision unsigned)
  | 'X' =>
      printfField spec [] (if spec.flagHash ∧ unsigned ≠ 0 then [48, 88] else [])
        (printfDigits 16 true spec.precision unsigned)
  | _ =>
      printfField spec (printfSign spec n.toInt) []
        (printfDigits 10 false spec.precision n.toInt.natAbs)

/-- The `#` flag of `o` with a precision that puts zeros in front of the digits, or with precision
zero for zero. -/
def OctalSlip (spec : FmtSpec) (n : Int64) : Prop :=
  spec.conv = 111 ∧ spec.flagHash = true ∧ ∃ p, spec.precision = some p ∧
    if n = 0 then p = 0 else (Nat.toDigits 8 n.toUInt64.toNat).length < p

/-! ### Digits -/

theorem radixDigits_zero (radix : ℕ) (upper : Bool) : radixDigits radix upper 0 = [48] := by
  rw [radixDigits, Nat.toDigits_zero]
  cases upper <;> rfl

theorem length_radixDigits (radix : ℕ) (upper : Bool) (n : ℕ) :
    (radixDigits radix upper n).length = (Nat.toDigits radix n).length := List.length_map _

theorem length_radixDigits_pos (radix : ℕ) (upper : Bool) (n : ℕ) :
    0 < (radixDigits radix upper n).length := by
  rw [length_radixDigits]
  exact Nat.length_toDigits_pos

/-- **The digits are those of `printf`.** -/
theorem precisionPad_eq (radix : ℕ) (upper : Bool) (precision : Option ℕ) (n : ℕ) :
    precisionPad precision n (radixDigits radix upper n) =
      printfDigits radix upper precision n := by
  have hpos := length_radixDigits_pos radix upper n
  unfold precisionPad printfDigits
  by_cases hn : n = 0
  · subst hn
    rw [radixDigits_zero, if_pos rfl]
    cases precision with
    | none => rfl
    | some p =>
        dsimp only
        rw [Option.getD_some, List.length_nil, Nat.sub_zero, List.append_nil, List.length_singleton]
        by_cases hp : p = 0
        · rw [if_pos ⟨hp, rfl⟩, hp]
          rfl
        · rw [if_neg fun h => hp h.1]
          split
          · rw [← List.replicate_succ']
            exact congrArg (fun k => List.replicate k (48 : UInt8)) (by omega)
          · obtain rfl : p = 1 := by omega
            rfl
  · rw [if_neg hn]
    cases precision with
    | none =>
        dsimp only
        rw [Option.getD_none, Nat.sub_eq_zero_of_le hpos]
        rfl
    | some p =>
        dsimp only
        rw [if_neg fun h => hn h.2, Option.getD_some]
        split
        · rfl
        · rw [Nat.sub_eq_zero_of_le (by omega)]
          rfl

/-- **The field is that of `printf`.** -/
theorem applyWidth_eq {spec : FmtSpec} (hconv : isIntConv spec.conv = true)
    (sign base body : List UInt8) :
    applyWidth spec sign base body = printfField spec sign base body := by
  unfold applyWidth printfField
  have hlen : (sign ++ base ++ body).length = sign.length + base.length + body.length := by
    rw [List.length_append, List.length_append]
  dsimp only
  rw [hlen]
  generalize spec.width - (sign.length + base.length + body.length) = pad
  by_cases hpad : pad = 0
  · subst hpad
    simp
  · rw [if_neg hpad, hconv, Bool.true_and]
    by_cases hminus : spec.flagMinus = true
    · rw [if_pos hminus, if_pos hminus]
    · rw [if_neg hminus, if_neg hminus]
      by_cases hzero : spec.flagZero = true ∧ spec.precision = none
      · rw [if_pos hzero, hzero.1, hzero.2]
        rfl
      · have hno : ¬ (spec.flagZero && !spec.precision.isSome) = true := by
          rw [Bool.and_eq_true_iff, Bool.not_eq_true', Option.isSome_eq_false_iff,
            Option.isNone_iff_eq_none]
          exact hzero
        rw [if_neg hno, if_neg hzero]
        simp

/-! ### The `#` flag of `o` -/

/-- The first octal digit of a number is no zero. -/
theorem head_radixDigits {n : ℕ} (hn : n ≠ 0) : (radixDigits 8 false n).head? ≠ some 48 := by
  induction n using Nat.strongRecOn with
  | _ n ih =>
      rw [radixDigits, Nat.toDigits_eq_if (by decide)]
      by_cases hsmall : n < 8
      · rw [if_pos hsmall]
        have hall : ∀ n < 8, n ≠ 0 → (Nat.digitChar n).toNat.toUInt8 ≠ 48 := by decide
        intro h
        exact hall n hsmall hn (Option.some.inj h)
      · have hdiv := ih (n / 8) (by omega) (by omega)
        have hne : radixDigits 8 false (n / 8) ≠ [] :=
          List.ne_nil_of_length_pos (length_radixDigits_pos 8 false (n / 8))
        rw [if_neg hsmall, List.map_append]
        change (radixDigits 8 false (n / 8) ++ _).head? ≠ _
        rw [List.head?_append_of_ne_nil _ hne]
        exact hdiv

/-- No digit is a space. -/
theorem ne_space_of_mem_radixDigits {n : ℕ} {c : UInt8} (hc : c ∈ radixDigits 8 false n) :
    c ≠ 32 := by
  obtain ⟨d, hd, rfl⟩ := List.mem_map.1 hc
  have hdigit := Nat.isDigit_of_mem_toDigits (by decide) (by decide) hd
  have hbounds : 48 ≤ d.toNat ∧ d.toNat ≤ 57 := by
    simpa [Char.isDigit, Char.le_def, UInt32.le_iff_toNat_le] using hdigit
  intro hspace
  have hnat := congrArg UInt8.toNat hspace
  rw [if_neg Bool.false_ne_true, Nat.toUInt8_eq, UInt8.toNat_ofNat'] at hnat
  rw [show (32 : UInt8).toNat = 32 from rfl] at hnat
  omega

theorem ne_space_of_mem_printfDigits {p : Option ℕ} {n : ℕ} {c : UInt8}
    (hc : c ∈ printfDigits 8 false p n) : c ≠ 32 := by
  unfold printfDigits at hc
  dsimp only at hc
  rcases List.mem_append.1 hc with hc | hc
  · rw [List.eq_of_mem_replicate hc]
    decide
  · split at hc
    · cases hc
    · exact ne_space_of_mem_radixDigits hc

/-- What a field shows between its spaces, where no zeros are put in. -/
theorem filter_printfField {spec : FmtSpec} {sign base digits : List UInt8}
    (hprecision : spec.precision ≠ none) (hcontent : ∀ c ∈ sign ++ base ++ digits, c ≠ 32) :
    (printfField spec sign base digits).filter (fun c => c != 32) = sign ++ base ++ digits := by
  have hkeep : (sign ++ base ++ digits).filter (fun c => c != 32) = sign ++ base ++ digits :=
    List.filter_eq_self.2 fun c hc => bne_iff_ne.2 (hcontent c hc)
  have hspaces : ∀ k, (List.replicate k (32 : UInt8)).filter (fun c => c != 32) = [] := by
    intro k
    refine List.filter_eq_nil_iff.2 fun c hc h => ?_
    exact bne_iff_ne.1 h (List.eq_of_mem_replicate hc)
  unfold printfField
  dsimp only
  split
  · rw [List.filter_append, hkeep, hspaces, List.append_nil]
  · rw [if_neg fun h => hprecision h.2, List.filter_append, hkeep, hspaces, List.nil_append]

/-- Two fields with contents of different lengths differ. -/
theorem printfField_ne {spec : FmtSpec} {base digits digits' : List UInt8}
    (hprecision : spec.precision ≠ none) (hcontent : ∀ c ∈ base ++ digits, c ≠ 32)
    (hcontent' : ∀ c ∈ digits', c ≠ 32) (hlen : (base ++ digits).length ≠ digits'.length) :
    printfField spec [] base digits ≠ printfField spec [] [] digits' := by
  intro heq
  have hfilter := congrArg (List.filter fun c => c != 32) heq
  rw [filter_printfField hprecision hcontent, filter_printfField hprecision hcontent'] at hfilter
  exact hlen (congrArg List.length hfilter)

/-- A zero in front of the digits is as good as one at their front. -/
theorem printfField_zero (spec : FmtSpec) (digits : List UInt8) :
    printfField spec [] [48] digits = printfField spec [] [] (48 :: digits) := by
  unfold printfField
  dsimp only
  rw [List.nil_append, List.nil_append, List.nil_append, List.singleton_append]
  generalize spec.width - (48 :: digits).length = pad
  split
  · rfl
  · split
    · rw [List.nil_append, List.singleton_append, ← List.replicate_succ, List.replicate_succ',
        List.append_assoc, List.singleton_append]
    · rfl

/-- Where the digits start with a zero. -/
theorem head_printfDigits (precision : Option ℕ) (m : ℕ) :
    (printfDigits 8 false precision m).head? = some 48 ↔
      if m = 0 then precision ≠ some 0
      else ∃ p, precision = some p ∧ (Nat.toDigits 8 m).length < p := by
  have hpos := length_radixDigits_pos 8 false m
  unfold printfDigits
  dsimp only
  by_cases hm : m = 0
  · rw [if_pos hm, if_pos hm, List.length_nil, List.append_nil, Nat.sub_zero]
    cases precision with
    | none => exact ⟨fun _ => Ne.symm (Option.some_ne_none 0), fun _ => rfl⟩
    | some p =>
        cases p with
        | zero =>
            refine ⟨fun h => ?_, fun h => absurd rfl h⟩
            cases h
        | succ p => exact ⟨fun _ h => absurd (Option.some.inj h) p.succ_ne_zero, fun _ => rfl⟩
  · rw [if_neg hm, if_neg hm]
    cases precision with
    | none =>
        rw [Option.getD_none, Nat.sub_eq_zero_of_le hpos, List.replicate_zero, List.nil_append]
        refine ⟨fun h => absurd h (head_radixDigits hm), fun h => ?_⟩
        obtain ⟨p, hp, -⟩ := h
        cases hp
    | some p =>
        rw [Option.getD_some, length_radixDigits]
        by_cases hp : (Nat.toDigits 8 m).length < p
        · obtain ⟨k, hk⟩ := Nat.exists_eq_add_of_lt hp
          rw [show p - (Nat.toDigits 8 m).length = k + 1 by omega]
          exact ⟨fun _ => ⟨p, rfl, hp⟩, fun _ => rfl⟩
        · rw [Nat.sub_eq_zero_of_le (Nat.le_of_not_lt hp), List.replicate_zero, List.nil_append]
          refine ⟨fun h => absurd h (head_radixDigits hm), fun h => ?_⟩
          obtain ⟨q, hq, hlt⟩ := h
          obtain rfl := Option.some.inj hq
          exact absurd hlt hp

/-- **The octal conversion with `#`** is the one of `printf`, but where the precision has put zeros
in front or has taken the zero away. -/
theorem octal_iff {spec : FmtSpec} {n : Int64} (hconv : spec.conv = 111)
    (hhash : spec.flagHash = true) :
    fmtIntUnsigned spec n.toUInt64 8 false =
        printfField spec [] [] (printfOctal (printfDigits 8 false spec.precision
          n.toUInt64.toNat)) ↔ ¬ OctalSlip spec n := by
  have hint : isIntConv spec.conv = true := by rw [hconv]; decide
  have hnat : n.toUInt64.toNat = 0 ↔ n = 0 :=
    ⟨fun h => Int64.toBitVec_inj.1 (BitVec.eq_of_toNat_eq h), fun h => by rw [h]; rfl⟩
  have hhead := head_printfDigits spec.precision n.toUInt64.toNat
  have hspace := fun c => @ne_space_of_mem_printfDigits spec.precision n.toUInt64.toNat c
  unfold fmtIntUnsigned printfOctal
  dsimp only
  rw [precisionPad_eq, applyWidth_eq hint, hhash, Bool.true_and]
  by_cases hn : n = 0
  · -- zero gets no prefix, and needs one where the precision has taken its digit away
    subst hn
    rw [if_pos (hnat.2 rfl)] at hhead
    rw [if_neg (by decide)]
    by_cases hp : spec.precision = some 0
    · have hdigits : printfDigits 8 false spec.precision (0 : Int64).toUInt64.toNat = [] := by
        rw [hp]
        rfl
      rw [if_neg fun h => hhead.1 h hp, hdigits]
      refine ⟨fun h => absurd h.symm ?_, fun h => absurd ⟨hconv, hhash, 0, hp, rfl⟩ h⟩
      refine printfField_ne (by rw [hp]; exact Option.some_ne_none 0) ?_ ?_ (by decide)
      · intro c hc
        rw [List.mem_singleton.1 hc]
        decide
      · exact fun c hc => absurd hc List.not_mem_nil
    · rw [if_pos (hhead.2 hp)]
      refine ⟨fun _ h => ?_, fun _ => rfl⟩
      obtain ⟨-, -, p, hp', hzero⟩ := h
      rw [if_pos rfl] at hzero
      exact hp (by rw [hp', hzero])
  · have hbne : (n.toUInt64 != 0) = true := by
      refine bne_iff_ne.2 fun h => hn (hnat.1 ?_)
      rw [h]
      rfl
    rw [if_neg fun h => hn (hnat.1 h)] at hhead
    rw [if_pos hbne, if_neg (by decide), if_pos rfl]
    by_cases hp : ∃ p, spec.precision = some p ∧ (Nat.toDigits 8 n.toUInt64.toNat).length < p
    · -- the precision has put a zero in front already
      rw [if_pos (hhead.2 hp)]
      obtain ⟨p, hp, hlt⟩ := hp
      refine ⟨fun h => absurd h ?_, fun h => absurd ⟨hconv, hhash, p, hp, ?_⟩ h⟩
      · refine printfField_ne (by rw [hp]; exact Option.some_ne_none p) ?_ hspace ?_
        · intro c hc
          rcases List.mem_append.1 hc with hc | hc
          · rw [List.mem_singleton.1 hc]
            decide
          · exact hspace c hc
        · rw [List.length_append, List.length_singleton]
          omega
      · rw [if_neg hn]
        exact hlt
    · rw [if_neg fun h => hp (hhead.1 h)]
      refine ⟨fun _ h => ?_, fun _ => printfField_zero spec _⟩
      obtain ⟨-, -, p, hp', hlt⟩ := h
      rw [if_neg hn] at hlt
      exact hp ⟨p, hp', hlt⟩

/-! ### Every integer conversion -/

theorem fmtIntSigned_eq {spec : FmtSpec} (hconv : isIntConv spec.conv = true) (n : Int64) :
    fmtIntSigned spec n = printfField spec (printfSign spec n.toInt) []
      (printfDigits 10 false spec.precision n.toInt.natAbs) := by
  rw [fmtIntSigned, precisionPad_eq, applyWidth_eq hconv]
  have hsign : n < 0 ↔ n.toInt < 0 := by
    rw [Int64.lt_iff_toInt_lt]
    rfl
  rw [printfSign]
  by_cases hn : n < 0
  · rw [if_pos hn, if_pos (hsign.1 hn)]
  · rw [if_neg hn, if_neg fun h => hn (hsign.2 h)]

theorem fmtIntUnsigned_eq {spec : FmtSpec} (hconv : isIntConv spec.conv = true) (n : UInt64)
    (radix : ℕ) (upper : Bool) (hradix : radix ≠ 8 ∨ spec.flagHash = false) :
    fmtIntUnsigned spec n radix upper = printfField spec []
      (if spec.flagHash ∧ n.toNat ≠ 0 then
        if radix = 16 then if upper then [48, 88] else [48, 120] else []
      else []) (printfDigits radix upper spec.precision n.toNat) := by
  rw [fmtIntUnsigned, precisionPad_eq, applyWidth_eq hconv]
  have hne : (n != 0) = true ↔ n.toNat ≠ 0 := by
    rw [bne_iff_ne, ne_eq, ← UInt64.toNat_inj]
    rfl
  by_cases h : spec.flagHash = true ∧ n.toNat ≠ 0
  · have hno : radix ≠ 8 := hradix.resolve_right (by rw [h.1]; decide)
    rw [if_pos h, if_pos (Bool.and_eq_true_iff.2 ⟨h.1, hne.2 h.2⟩), if_neg hno]
  · rw [if_neg h, if_neg fun hand => h ?_]
    obtain ⟨hhash, hn⟩ := Bool.and_eq_true_iff.1 hand
    exact ⟨hhash, hne.1 hn⟩

/-- **The text of an integer conversion** is the one of `printf`, unless it is the slip. -/
theorem formatOneInteger_iff {spec : FmtSpec} (hconv : isIntConv spec.conv = true) (n : Int64) :
    formatOneInteger spec n = some (printfText spec n) ↔ ¬ OctalSlip spec n := by
  have hother : spec.conv ≠ 111 → ¬ OctalSlip spec n := fun hne h => hne h.1
  have hsix : spec.conv = 100 ∨ spec.conv = 105 ∨ spec.conv = 117 ∨ spec.conv = 111 ∨
      spec.conv = 120 ∨ spec.conv = 88 := by
    simpa [isIntConv, or_assoc] using hconv
  have hradix : (16 : ℕ) ≠ 8 ∨ spec.flagHash = false := Or.inl (by decide)
  unfold formatOneInteger printfText
  rcases hsix with hc | hc | hc | hc | hc | hc
  · refine iff_of_true ?_ (hother (by rw [hc]; decide))
    rw [if_pos (Or.inl hc), fmtIntSigned_eq hconv, hc]
    rfl
  · refine iff_of_true ?_ (hother (by rw [hc]; decide))
    rw [if_pos (Or.inr hc), fmtIntSigned_eq hconv, hc]
    rfl
  · refine iff_of_true ?_ (hother (by rw [hc]; decide))
    rw [if_neg (by rw [hc]; decide), if_pos hc,
      fmtIntUnsigned_eq hconv n.toUInt64 10 false (Or.inl (by decide)),
      if_neg (show ¬ (10 : ℕ) = 16 by decide), ite_self, hc]
    rfl
  · rw [if_neg (by rw [hc]; decide), if_neg (by rw [hc]; decide), if_pos hc]
    by_cases hhash : spec.flagHash = true
    · rw [← octal_iff hc hhash, Option.some_inj, hc]
      dsimp only
      rw [hhash]
      rfl
    · refine iff_of_true ?_ fun h => hhash h.2.1
      rw [fmtIntUnsigned_eq hconv n.toUInt64 8 false (Or.inr (Bool.eq_false_iff.2 hhash)),
        if_neg fun h => hhash h.1, hc]
      dsimp only
      rw [Bool.eq_false_iff.2 hhash]
      rfl
  · refine iff_of_true ?_ (hother (by rw [hc]; decide))
    rw [if_neg (by rw [hc]; decide), if_neg (by rw [hc]; decide), if_neg (by rw [hc]; decide),
      if_pos hc, fmtIntUnsigned_eq hconv n.toUInt64 16 false hradix, hc]
    rfl
  · refine iff_of_true ?_ (hother (by rw [hc]; decide))
    rw [if_neg (by rw [hc]; decide), if_neg (by rw [hc]; decide), if_neg (by rw [hc]; decide),
      if_neg (by rw [hc]; decide), if_pos hc, fmtIntUnsigned_eq hconv n.toUInt64 16 true hradix,
      hc]
    rfl

/-- **Formatting an integer**: the specifications that are accepted are those that can be written,
and each gives the text of `printf` exactly where it is not the `#` flag of `o` with a precision
that has decided the first digit already. -/
theorem format_integer_iff (d : Directive) (hd : d.Accepted) (rest : List UInt8) (n : Int64) :
    (∀ fmt spec, parseSpec fmt = Except.ok (spec, rest) → isIntConv spec.conv = true →
      ∃ e : Directive, e.Accepted ∧ fmt = e.text ++ rest ∧ spec = e.spec) ∧
    (formatInteger (d.text ++ rest) n = Except.ok (printfText d.spec n, rest) ↔
      ¬ OctalSlip d.spec n) := by
  refine ⟨fun fmt spec h hconv => exists_directive h hconv, ?_⟩
  rw [← formatOneInteger_iff hd.conv n, formatInteger, parseSpec_text hd rest]
  change (match formatOneInteger d.spec n with
    | some text => Except.ok (text, rest)
    | none => Except.error (FormatFault.invalidConversion d.spec.conv)) = _ ↔ _
  cases formatOneInteger d.spec n with
  | none =>
      constructor
      · intro h
        cases h
      · intro h
        cases h
  | some text =>
      constructor
      · intro h
        rw [(Prod.mk.inj (Except.ok.inj h)).1]
      · intro h
        rw [Option.some.inj h]

/-- One digit is a width or a precision. -/
theorem single_digit {c : UInt8} (h : isDigit c = true) :
    (∀ d ∈ [c], isDigit d = true) ∧ [c].length ≤ 2 := by
  refine ⟨fun d hd => ?_, Nat.le_succ 1⟩
  rw [List.mem_singleton.1 hd]
  exact h

/-- `%-6.3d`. -/
def signedDirective : Directive :=
  { flags := [Flag.minus], width := [54], precision := some [51], conv := 100 }

theorem format_integer_signed :
    formatInteger ([45, 54, 46, 51, 100] ++ [33]) (-7) =
      Except.ok ([45, 48, 48, 55, 32, 32], [33]) := by
  have hwidth := @single_digit 54 rfl
  have hd : signedDirective.Accepted := by
    refine ⟨rfl, fun f hf => ?_, hwidth.1, hwidth.2, by decide, fun ds h => ?_⟩
    · rw [List.mem_singleton.1 hf]
      decide
    · obtain rfl := Option.some.inj h
      exact single_digit rfl
  have hslip : ¬ OctalSlip signedDirective.spec (-7) := fun h => absurd h.1 (by decide)
  exact (format_integer_iff signedDirective hd [33] (-7)).2.2 hslip

/-- **One zero too many**: eight under `%#.5o`. -/
theorem not_format_integer_octal :
    ¬ ∀ (d : Directive), d.Accepted → ∀ (rest : List UInt8) (n : Int64),
      formatInteger (d.text ++ rest) n = Except.ok (printfText d.spec n, rest) := by
  intro h
  have hd : (⟨[Flag.hash], [], some [53], 111⟩ : Directive).Accepted := by
    refine ⟨rfl, fun f hf => ?_, fun c hc => absurd hc List.not_mem_nil, Nat.zero_le 2,
      by decide, fun ds h => ?_⟩
    · rw [List.mem_singleton.1 hf]
      decide
    · obtain rfl := Option.some.inj h
      exact single_digit rfl
  have heq := h _ hd [] 8
  have hcode : formatInteger [35, 46, 53, 111] 8 =
      Except.ok ([48, 48, 48, 48, 49, 48], []) := rfl
  have hprintf : printfText (⟨[Flag.hash], [], some [53], 111⟩ : Directive).spec 8 =
      [48, 48, 48, 49, 48] := rfl
  rw [hprintf] at heq
  exact absurd (hcode.symm.trans heq) (by decide)

end Tcvm
