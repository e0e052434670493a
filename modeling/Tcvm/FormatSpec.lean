/-
Conversion specifications of `string.format`.

A specification is read from what is behind the percent sign: flags, a width, a precision and the
conversion, with at most two digits each and the flags that the conversion allows.

* `FmtSpec`, `parseSpec` — the source's reader;
* `Directive`, `Directive.text`, `Directive.spec` — a specification as it is written, and what it
  says;
* `parseSpec_text` — **what is written is read**;
* `exists_directive` — **what is read was written**, for the integer conversions.
-/

import Tcvm.StringPack

namespace Tcvm

/-! ### The reader -/

structure FmtSpec where
  flagMinus : Bool
  flagPlus : Bool
  flagSpace : Bool
  flagHash : Bool
  flagZero : Bool
  width : ℕ
  precision : Option ℕ
  conv : UInt8
  deriving DecidableEq

/-- `FmtSpec::default()`. -/
def FmtSpec.start : FmtSpec :=
  { flagMinus := false, flagPlus := false, flagSpace := false, flagHash := false,
    flagZero := false, width := 0, precision := none, conv := 0 }

inductive Flag
  | minus
  | plus
  | space
  | hash
  | zero
  deriving DecidableEq

/-- The byte of a flag. -/
def Flag.byte : Flag → UInt8
  | minus => 45
  | plus => 43
  | space => 32
  | hash => 35
  | zero => 48

def flagOf (c : UInt8) : Option Flag :=
  if c = 45 then some Flag.minus
  else if c = 43 then some Flag.plus
  else if c = 32 then some Flag.space
  else if c = 35 then some Flag.hash
  else if c = 48 then some Flag.zero
  else none

namespace FmtSpec

def setFlag (spec : FmtSpec) : Flag → FmtSpec
  | Flag.minus => { spec with flagMinus := true }
  | Flag.plus => { spec with flagPlus := true }
  | Flag.space => { spec with flagSpace := true }
  | Flag.hash => { spec with flagHash := true }
  | Flag.zero => { spec with flagZero := true }

def hasFlag (spec : FmtSpec) : Flag → Bool
  | Flag.minus => spec.flagMinus
  | Flag.plus => spec.flagPlus
  | Flag.space => spec.flagSpace
  | Flag.hash => spec.flagHash
  | Flag.zero => spec.flagZero

end FmtSpec

/-- What ends a conversion: a specification that is echoed, modifiers of `%q`, or another error. -/
inductive FormatFault
  | invalidSpec (form : List UInt8)
  | modifiers
  | invalidConversion (conv : UInt8)
  deriving DecidableEq

/-- The flags in front. -/
def readFlags (spec : FmtSpec) : List UInt8 → FmtSpec × List UInt8
  | [] => (spec, [])
  | c :: cs =>
      match flagOf c with
      | some f => readFlags (spec.setFlag f) cs
      | none => (spec, c :: cs)

/-- The digits of a width or a precision: how many there are, and the value of the first two. -/
def readTwoDigits (count value : ℕ) : List UInt8 → ℕ × ℕ × List UInt8
  | [] => (count, value, [])
  | c :: cs =>
      if isDigit c then
        readTwoDigits (count + 1) (if count < 2 then value * 10 + (c - 48).toNat else value) cs
      else (count, value, c :: cs)

/-- A precision, if there is a dot. -/
def readPrecision : List UInt8 → ℕ × Option ℕ × List UInt8
  | [] => (0, none, [])
  | c :: cs =>
      if c = 46 then
        let (count, p, rest) := readTwoDigits 0 0 cs
        (count, some p, rest)
      else (0, none, c :: cs)

def isAlphabetic (c : UInt8) : Bool := (65 ≤ c && c ≤ 90) || (97 ≤ c && c ≤ 122)

/-- The flags that a conversion allows, and whether it allows a precision. -/
def conversionRules (conv : UInt8) : Option (List Flag × Bool) :=
  match Char.ofNat conv.toNat with
  | 'd' => some ([Flag.minus, Flag.plus, Flag.zero, Flag.space], true)
  | 'i' => some ([Flag.minus, Flag.plus, Flag.zero, Flag.space], true)
  | 'u' => some ([Flag.minus, Flag.zero], true)
  | 'o' => some ([Flag.minus, Flag.hash, Flag.zero], true)
  | 'x' => some ([Flag.minus, Flag.hash, Flag.zero], true)
  | 'X' => some ([Flag.minus, Flag.hash, Flag.zero], true)
  | 'a' => some ([Flag.minus, Flag.plus, Flag.hash, Flag.zero, Flag.space], true)
  | 'A' => some ([Flag.minus, Flag.plus, Flag.hash, Flag.zero, Flag.space], true)
  | 'e' => some ([Flag.minus, Flag.plus, Flag.hash, Flag.zero, Flag.space], true)
  | 'E' => some ([Flag.minus, Flag.plus, Flag.hash, Flag.zero, Flag.space], true)
  | 'f' => some ([Flag.minus, Flag.plus, Flag.hash, Flag.zero, Flag.space], true)
  | 'F' => some ([Flag.minus, Flag.plus, Flag.hash, Flag.zero, Flag.space], true)
  | 'g' => some ([Flag.minus, Flag.plus, Flag.hash, Flag.zero, Flag.space], true)
  | 'G' => some ([Flag.minus, Flag.plus, Flag.hash, Flag.zero, Flag.space], true)
  | 'c' => some ([Flag.minus], false)
  | 's' => some ([Flag.minus], true)
  | _ => none

/-- A flag that is set but not allowed. -/
def FmtSpec.flagRejected (spec : FmtSpec) (allowed : List Flag) : Bool :=
  (spec.flagMinus && !allowed.contains Flag.minus) ||
    (spec.flagPlus && !allowed.contains Flag.plus) ||
    (spec.flagSpace && !allowed.contains Flag.space) ||
    (spec.flagHash && !allowed.contains Flag.hash) ||
    (spec.flagZero && !allowed.contains Flag.zero)

def FmtSpec.hasModifiers (spec : FmtSpec) : Bool :=
  spec.flagMinus || spec.flagPlus || spec.flagSpace || spec.flagHash || spec.flagZero ||
    spec.width != 0 || spec.precision.isSome

/-- `parse_spec`, on what is behind the percent sign: the specification and the rest. -/
def parseSpec (fmt : List UInt8) : Except FormatFault (FmtSpec × List UInt8) :=
  let (spec, r) := readFlags FmtSpec.start fmt
  let (wdigits, width, r) := readTwoDigits 0 0 r
  let (pdigits, precision, r) := readPrecision r
  match r with
  | [] => Except.error (FormatFault.invalidSpec (37 :: fmt))
  | conv :: rest =>
      let spec := { spec with width := width, precision := precision, conv := conv }
      if conv = 37 then Except.ok (spec, rest)
      else if conv = 113 then
        if spec.hasModifiers then Except.error FormatFault.modifiers else Except.ok (spec, rest)
      else
        let form := 37 :: fmt.take (fmt.length - rest.length)
        if !isAlphabetic conv || 2 < wdigits || 2 < pdigits then
          Except.error (FormatFault.invalidSpec form)
        else
          match conversionRules conv with
          | none => Except.ok (spec, rest)
          | some (allowed, precisionOk) =>
              if spec.flagRejected allowed || (precision.isSome && !precisionOk) then
                Except.error (FormatFault.invalidSpec form)
              else Except.ok (spec, rest)

/-! ### Specifications as they are written -/

/-- The integer conversions. -/
def isIntConv (conv : UInt8) : Bool :=
  conv = 100 || conv = 105 || conv = 117 || conv = 111 || conv = 120 || conv = 88

/-- The flags that an integer conversion allows. -/
def intFlags (conv : UInt8) : List Flag :=
  if conv = 100 ∨ conv = 105 then [Flag.minus, Flag.plus, Flag.zero, Flag.space]
  else if conv = 117 then [Flag.minus, Flag.zero]
  else [Flag.minus, Flag.hash, Flag.zero]

/-- A specification: its flags, the digits of its width and of its precision, its conversion. -/
structure Directive where
  flags : List Flag
  width : List UInt8
  precision : Option (List UInt8)
  conv : UInt8

namespace Directive

/-- The value of digits. -/
def value (ds : List UInt8) : ℕ := ds.foldl (fun v c => v * 10 + (c - 48).toNat) 0

/-- The precision as it is written. -/
def precisionText : Option (List UInt8) → List UInt8
  | none => []
  | some ds => 46 :: ds

/-- What is written behind the percent sign. -/
def text (d : Directive) : List UInt8 :=
  d.flags.map Flag.byte ++ (d.width ++ (precisionText d.precision ++ [d.conv]))

/-- What is said. -/
def spec (d : Directive) : FmtSpec :=
  { flagMinus := d.flags.contains Flag.minus
    flagPlus := d.flags.contains Flag.plus
    flagSpace := d.flags.contains Flag.space
    flagHash := d.flags.contains Flag.hash
    flagZero := d.flags.contains Flag.zero
    width := value d.width
    precision := d.precision.map value
    conv := d.conv }

/-- A specification of an integer conversion that is accepted.  The width does not start with a
zero, which would be a flag. -/
structure Accepted (d : Directive) : Prop where
  conv : isIntConv d.conv = true
  flags : ∀ f ∈ d.flags, f ∈ intFlags d.conv
  width_digits : ∀ c ∈ d.width, isDigit c = true
  width_length : d.width.length ≤ 2
  width_head : d.width.head? ≠ some 48
  precision_digits : ∀ ds, d.precision = some ds → (∀ c ∈ ds, isDigit c = true) ∧ ds.length ≤ 2

end Directive

/-! ### The parts of a specification -/

theorem flagOf_byte (f : Flag) : flagOf f.byte = some f := by cases f <;> rfl

theorem flagOf_eq_some {c : UInt8} {f : Flag} (h : flagOf c = some f) : c = f.byte := by
  unfold flagOf at h
  grind [Flag.byte]

/-- The flags that are set by a list of flags. -/
theorem readFlags_append (spec : FmtSpec) (flags : List Flag) {rest : List UInt8}
    (hrest : ∀ c ∈ rest.head?, flagOf c = none) :
    readFlags spec (flags.map Flag.byte ++ rest) = (flags.foldl FmtSpec.setFlag spec, rest) := by
  induction flags generalizing spec with
  | nil =>
      cases rest with
      | nil => rfl
      | cons c cs =>
          rw [List.map_nil, List.nil_append, readFlags, hrest c rfl]
          rfl
  | cons f flags ih =>
      rw [List.map_cons, List.cons_append, readFlags, flagOf_byte]
      exact ih (spec.setFlag f)

theorem readFlags_spec {spec spec' : FmtSpec} {fmt rest : List UInt8}
    (h : readFlags spec fmt = (spec', rest)) :
    ∃ flags : List Flag, fmt = flags.map Flag.byte ++ rest ∧
      spec' = flags.foldl FmtSpec.setFlag spec ∧ ∀ c ∈ rest.head?, flagOf c = none := by
  induction fmt generalizing spec with
  | nil =>
      obtain ⟨rfl, rfl⟩ := Prod.mk.inj h
      exact ⟨[], rfl, rfl, fun c hc => absurd hc (by simp)⟩
  | cons c cs ih =>
      rw [readFlags] at h
      cases hc : flagOf c with
      | none =>
          rw [hc] at h
          obtain ⟨rfl, rfl⟩ := Prod.mk.inj h
          refine ⟨[], rfl, rfl, fun c' hc' => ?_⟩
          obtain rfl := Option.some.inj hc'
          exact hc
      | some f =>
          rw [hc] at h
          obtain ⟨flags, rfl, hspec, hrest⟩ := ih h
          exact ⟨f :: flags, by rw [flagOf_eq_some hc]; rfl, hspec, hrest⟩

/-- Setting flags adds them and changes nothing else. -/
theorem foldl_setFlag (flags : List Flag) (spec : FmtSpec) :
    flags.foldl FmtSpec.setFlag spec =
      { spec with
        flagMinus := spec.flagMinus || flags.contains Flag.minus
        flagPlus := spec.flagPlus || flags.contains Flag.plus
        flagSpace := spec.flagSpace || flags.contains Flag.space
        flagHash := spec.flagHash || flags.contains Flag.hash
        flagZero := spec.flagZero || flags.contains Flag.zero } := by
  induction flags generalizing spec with
  | nil => simp
  | cons f flags ih =>
      rw [List.foldl_cons, ih]
      cases f <;> simp [FmtSpec.setFlag]

theorem readTwoDigits_append {count value : ℕ} (ds : List UInt8) {rest : List UInt8}
    (hds : ∀ c ∈ ds, isDigit c = true) (hlen : count + ds.length ≤ 2)
    (hrest : ∀ c ∈ rest.head?, isDigit c = false) :
    readTwoDigits count value (ds ++ rest) =
      (count + ds.length, ds.foldl (fun v c => v * 10 + (c - 48).toNat) value, rest) := by
  induction ds generalizing count value with
  | nil =>
      cases rest with
      | nil => rfl
      | cons c cs =>
          rw [List.nil_append, readTwoDigits, hrest c rfl]
          rfl
  | cons d ds ih =>
      rw [List.length_cons] at hlen ⊢
      rw [List.cons_append, readTwoDigits, if_pos (hds d List.mem_cons_self), if_pos (by omega),
        ih (fun c hc => hds c (List.mem_cons_of_mem d hc)) (by omega), Nat.add_assoc,
        Nat.add_comm 1]
      rfl

theorem readTwoDigits_spec {count value count' value' : ℕ} {l rest : List UInt8}
    (h : readTwoDigits count value l = (count', value', rest)) (hcount : count' ≤ 2) :
    ∃ ds : List UInt8, l = ds ++ rest ∧ (∀ c ∈ ds, isDigit c = true) ∧
      count' = count + ds.length ∧
      value' = ds.foldl (fun v c => v * 10 + (c - 48).toNat) value ∧
      ∀ c ∈ rest.head?, isDigit c = false := by
  induction l generalizing count value with
  | nil =>
      obtain ⟨rfl, rfl, rfl⟩ : count = count' ∧ value = value' ∧ [] = rest := by
        simpa [readTwoDigits] using h
      exact ⟨[], rfl, fun c hc => absurd hc List.not_mem_nil, rfl, rfl,
        fun c hc => absurd hc (by simp)⟩
  | cons c cs ih =>
      rw [readTwoDigits] at h
      cases hc : isDigit c with
      | true =>
          rw [if_pos hc] at h
          obtain ⟨ds, rfl, hds, hcount', hvalue, hrest⟩ := ih h
          refine ⟨c :: ds, rfl, fun c' hc' => ?_, ?_, ?_, hrest⟩
          · rcases List.mem_cons.1 hc' with rfl | hc'
            · exact hc
            · exact hds c' hc'
          · rw [List.length_cons]
            omega
          · rw [hvalue, if_pos (by omega)]
            rfl
      | false =>
          rw [if_neg (by rw [hc]; exact Bool.false_ne_true)] at h
          obtain ⟨rfl, rfl, rfl⟩ : count = count' ∧ value = value' ∧ c :: cs = rest := by
            simpa using h
          refine ⟨[], rfl, fun c' hc' => absurd hc' List.not_mem_nil, rfl, rfl, fun c' hc' => ?_⟩
          obtain rfl := Option.some.inj hc'
          exact hc

theorem readPrecision_append (p : Option (List UInt8)) {rest : List UInt8}
    (hp : ∀ ds, p = some ds → (∀ c ∈ ds, isDigit c = true) ∧ ds.length ≤ 2)
    (hrest : ∀ c ∈ rest.head?, isDigit c = false ∧ c ≠ 46) :
    ∃ count ≤ 2, readPrecision (Directive.precisionText p ++ rest) =
      (count, p.map Directive.value, rest) := by
  cases p with
  | none =>
      refine ⟨0, by decide, ?_⟩
      cases rest with
      | nil => rfl
      | cons c cs => exact if_neg (hrest c rfl).2
  | some ds =>
      obtain ⟨hds, hlen⟩ := hp ds rfl
      refine ⟨ds.length, hlen, ?_⟩
      have hread := @readTwoDigits_append 0 0 ds rest hds (by omega) fun c hc => (hrest c hc).1
      rw [Nat.zero_add] at hread
      rw [Directive.precisionText, List.cons_append, readPrecision, if_pos rfl, hread]
      rfl

theorem readPrecision_spec {count : ℕ} {p : Option ℕ} {l rest : List UInt8}
    (h : readPrecision l = (count, p, rest)) (hcount : count ≤ 2) :
    ∃ ds, l = Directive.precisionText ds ++ rest ∧ p = ds.map Directive.value ∧
      ∀ digits, ds = some digits → (∀ c ∈ digits, isDigit c = true) ∧ digits.length ≤ 2 := by
  cases l with
  | nil =>
      obtain ⟨rfl, rfl, rfl⟩ : 0 = count ∧ none = p ∧ [] = rest := by
        simpa [readPrecision] using h
      exact ⟨none, rfl, rfl, fun digits hdigits => by cases hdigits⟩
  | cons c cs =>
      rw [readPrecision] at h
      by_cases hc : c = 46
      · rw [if_pos hc] at h
        generalize hread : readTwoDigits 0 0 cs = r at h
        obtain ⟨count', value', rest'⟩ := r
        obtain ⟨rfl, rfl, rfl⟩ : count' = count ∧ some value' = p ∧ rest' = rest := by
          simpa using h
        obtain ⟨ds, rfl, hds, hlen, hvalue, -⟩ := readTwoDigits_spec hread hcount
        refine ⟨some ds, by rw [hc]; rfl, congrArg some hvalue, fun digits hdigits => ?_⟩
        obtain rfl := Option.some.inj hdigits
        exact ⟨hds, by omega⟩
      · rw [if_neg hc] at h
        obtain ⟨rfl, rfl, rfl⟩ : 0 = count ∧ none = p ∧ c :: cs = rest := by
          simpa using h
        exact ⟨none, rfl, rfl, fun digits hdigits => by cases hdigits⟩

/-! ### The integer conversions -/

/-- The bytes of an integer conversion are letters with rules of their own. -/
theorem intConv_rules {conv : UInt8} (h : isIntConv conv = true) :
    conv ≠ 37 ∧ conv ≠ 113 ∧ isAlphabetic conv = true ∧
      conversionRules conv = some (intFlags conv, true) ∧ isDigit conv = false ∧ conv ≠ 46 ∧
        flagOf conv = none := by
  have hall : ∀ c : Fin 256, isIntConv (UInt8.ofNat c.val) = true →
      UInt8.ofNat c.val ≠ 37 ∧ UInt8.ofNat c.val ≠ 113 ∧
        isAlphabetic (UInt8.ofNat c.val) = true ∧
        conversionRules (UInt8.ofNat c.val) = some (intFlags (UInt8.ofNat c.val), true) ∧
        isDigit (UInt8.ofNat c.val) = false ∧ UInt8.ofNat c.val ≠ 46 ∧
        flagOf (UInt8.ofNat c.val) = none := by decide +kernel
  have hconv := hall ⟨conv.toNat, conv.toNat_lt⟩
  rw [UInt8.ofNat_toNat] at hconv
  exact hconv h

/-- Only a zero is both a digit and a flag. -/
theorem flagOf_digit {c : UInt8} (hc : isDigit c = true) (hne : c ≠ 48) : flagOf c = none := by
  have hall : ∀ c : Fin 256, isDigit (UInt8.ofNat c.val) = true → UInt8.ofNat c.val ≠ 48 →
      flagOf (UInt8.ofNat c.val) = none := by decide +kernel
  have h := hall ⟨c.toNat, c.toNat_lt⟩
  rw [UInt8.ofNat_toNat] at h
  exact h hc hne

/-- No flag of an accepted specification is rejected. -/
theorem flagRejected_iff (spec : FmtSpec) (allowed : List Flag) :
    spec.flagRejected allowed = false ↔ ∀ f, spec.hasFlag f = true → f ∈ allowed := by
  unfold FmtSpec.flagRejected
  simp only [Bool.or_eq_false_iff, Bool.and_eq_false_iff, Bool.not_eq_false',
    List.contains_iff_mem]
  constructor
  · rintro ⟨⟨⟨⟨hminus, hplus⟩, hspace⟩, hhash⟩, hzero⟩ f hf
    cases f with
    | minus => exact hminus.resolve_left (by rw [show spec.flagMinus = true from hf]; simp)
    | plus => exact hplus.resolve_left (by rw [show spec.flagPlus = true from hf]; simp)
    | space => exact hspace.resolve_left (by rw [show spec.flagSpace = true from hf]; simp)
    | hash => exact hhash.resolve_left (by rw [show spec.flagHash = true from hf]; simp)
    | zero => exact hzero.resolve_left (by rw [show spec.flagZero = true from hf]; simp)
  · intro h
    have hcase : ∀ f, spec.hasFlag f = false ∨ f ∈ allowed := by
      intro f
      cases hf : spec.hasFlag f with
      | false => exact Or.inl rfl
      | true => exact Or.inr (h f hf)
    exact ⟨⟨⟨⟨hcase Flag.minus, hcase Flag.plus⟩, hcase Flag.space⟩, hcase Flag.hash⟩,
      hcase Flag.zero⟩

theorem hasFlag_spec (d : Directive) (f : Flag) : d.spec.hasFlag f = d.flags.contains f := by
  cases f <;> rfl

/-- **What is written is read.** -/
theorem parseSpec_text {d : Directive} (hd : d.Accepted) (rest : List UInt8) :
    parseSpec (d.text ++ rest) = Except.ok (d.spec, rest) := by
  obtain ⟨hmod, hq, halpha, hrules, hdigit, hdot, hflag⟩ := intConv_rules hd.conv
  have htext : d.text ++ rest = d.flags.map Flag.byte ++
      (d.width ++ (Directive.precisionText d.precision ++ d.conv :: rest)) := by
    unfold Directive.text
    simp
  have hprecision : ∀ c ∈ (Directive.precisionText d.precision ++ d.conv :: rest).head?,
      isDigit c = false ∧ flagOf c = none := by
    intro c hc
    cases hp : d.precision with
    | none =>
        rw [hp] at hc
        obtain rfl := Option.some.inj hc
        exact ⟨hdigit, hflag⟩
    | some ds =>
        rw [hp] at hc
        obtain rfl := Option.some.inj hc
        exact ⟨rfl, rfl⟩
  have hwidth : ∀ c ∈ (d.width ++ (Directive.precisionText d.precision ++ d.conv :: rest)).head?,
      flagOf c = none := by
    intro c hc
    cases hw : d.width with
    | nil =>
        rw [hw] at hc
        exact (hprecision c hc).2
    | cons w ws =>
        rw [hw] at hc
        obtain rfl := Option.some.inj hc
        refine flagOf_digit (hd.width_digits w (by rw [hw]; exact List.mem_cons_self)) ?_
        rintro rfl
        exact hd.width_head (by rw [hw]; rfl)
  have hflags := readFlags_append FmtSpec.start d.flags hwidth
  have hdigits := @readTwoDigits_append 0 0 d.width _ hd.width_digits
    (by have := hd.width_length; omega) fun c hc => (hprecision c hc).1
  obtain ⟨count, hcount, hread⟩ := @readPrecision_append d.precision (d.conv :: rest)
    hd.precision_digits fun c hc => by
      obtain rfl := Option.some.inj hc
      exact ⟨hdigit, hdot⟩
  have hspec : { d.flags.foldl FmtSpec.setFlag FmtSpec.start with
      width := d.width.foldl (fun v c => v * 10 + (c - 48).toNat) 0
      precision := d.precision.map Directive.value
      conv := d.conv } = d.spec := by
    rw [foldl_setFlag]
    simp [FmtSpec.start, Directive.spec, Directive.value]
  have hallowed : d.spec.flagRejected (intFlags d.conv) = false := by
    refine (flagRejected_iff _ _).2 fun f hf => ?_
    rw [hasFlag_spec, List.contains_iff_mem] at hf
    exact hd.flags f hf
  rw [htext, parseSpec, hflags]
  dsimp only
  rw [hdigits]
  dsimp only
  rw [hread]
  dsimp only
  rw [hspec, if_neg hmod, if_neg hq, halpha,
    decide_eq_false (by have := hd.width_length; omega), decide_eq_false (by omega), hrules]
  dsimp only
  rw [hallowed]
  simp

/-- **What is read was written**: a specification of an integer conversion that is accepted. -/
theorem exists_directive {fmt rest : List UInt8} {spec : FmtSpec}
    (h : parseSpec fmt = Except.ok (spec, rest)) (hconv : isIntConv spec.conv = true) :
    ∃ d : Directive, d.Accepted ∧ fmt = d.text ++ rest ∧ spec = d.spec := by
  rw [parseSpec] at h
  generalize hflags : readFlags FmtSpec.start fmt = r at h
  obtain ⟨spec₁, r₁⟩ := r
  dsimp only at h
  generalize hwidth : readTwoDigits 0 0 r₁ = r at h
  obtain ⟨wdigits, width, r₂⟩ := r
  dsimp only at h
  generalize hprecision : readPrecision r₂ = r at h
  obtain ⟨pdigits, precision, r₃⟩ := r
  dsimp only at h
  cases r₃ with
  | nil => cases h
  | cons conv rest' =>
      dsimp only at h
      have hout : spec = { spec₁ with width := width, precision := precision, conv := conv } ∧
          rest = rest' := by
        split at h
        · cases h
          exact ⟨rfl, rfl⟩
        · split at h
          · split at h
            · cases h
            · cases h
              exact ⟨rfl, rfl⟩
          · split at h
            · cases h
            · split at h
              · cases h
                exact ⟨rfl, rfl⟩
              · split at h
                · cases h
                · cases h
                  exact ⟨rfl, rfl⟩
      obtain ⟨rfl, rfl⟩ := hout
      obtain ⟨hmod, hq, -, hrules, -⟩ := intConv_rules hconv
      rw [if_neg hmod, if_neg hq, hrules] at h
      dsimp only at h
      split at h
      · cases h
      · rename_i hdigits
        split at h
        · cases h
        · rename_i hrejected
          simp only [Bool.or_eq_true, decide_eq_true_eq, not_or, Nat.not_lt, Bool.not_eq_true]
            at hdigits hrejected
          obtain ⟨flags, rfl, rfl, hhead⟩ := readFlags_spec hflags
          obtain ⟨wds, rfl, hwds, hwlen, hwvalue, hwrest⟩ := readTwoDigits_spec hwidth hdigits.1.2
          obtain ⟨pds, rfl, hpvalue, hpds⟩ := readPrecision_spec hprecision hdigits.2
          have hspec : { flags.foldl FmtSpec.setFlag FmtSpec.start with
              width := width, precision := precision, conv := conv } =
                (⟨flags, wds, pds, conv⟩ : Directive).spec := by
            rw [foldl_setFlag, hwvalue, hpvalue]
            simp [FmtSpec.start, Directive.spec, Directive.value]
          rw [hspec] at hrejected ⊢
          refine ⟨⟨flags, wds, pds, conv⟩, ?_, ?_, rfl⟩
          · refine ⟨hconv, fun f hf => ?_, hwds, by dsimp only; omega, ?_, hpds⟩
            · refine (flagRejected_iff _ _).1 hrejected.1 f ?_
              rw [hasFlag_spec, List.contains_iff_mem]
              exact hf
            · -- a zero in front would have been read as a flag
              intro hzero
              have hnone := hhead 48 (by
                cases wds with
                | nil => cases hzero
                | cons w ws => exact hzero)
              cases hnone
          · unfold Directive.text
            simp

end Tcvm
