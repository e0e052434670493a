/-
`math.random`.

An integer of an interval is drawn by rejection: the span of the interval is computed in unsigned
arithmetic, a mask is smeared from its bits, and outputs of the generator are masked until one is
not above the span.  The generator is a parameter: any state with a function that gives an output
and the next state.

* `smear`, `drawLoop`, `project`, `luaRandom` — the source's functions;
* `smear_eq` — the smearing loop ends within seven rounds in the smallest mask, before a shift
  could be as wide as the word;
* `drawLoop_eq` — drawing is rejection sampling over the outputs of the generator;
* `card_draws` — as many outputs stand for each value of the interval;
* `random_in_range` — **ranges**: results are in the interval, and none is more likely.
-/

import Mathlib.Data.FinEnum
import Tcvm.Binary64
import Tcvm.BitSmear
import Tcvm.RejectionSampling
import Tcvm.PackRoundTrip

namespace Tcvm

open BitSmear RejectionSampling

/-! ### The library function -/

/-- What ends a call: an error for Lua, a shift by the width of the word, or draws that give out. -/
inductive RandomFault
  | raise (e : PackError)
  | oversizedShift
  | unfinished
  deriving DecidableEq

/-- `unit_float`: 53 bits, scaled into the unit interval. -/
def unitFloat (rv : UInt64) : UInt64 :=
  Binary64.mul (Binary64.ofInt (rv >>> 11).toNat)
    (Binary64.div (Binary64.ofInt 1) (Binary64.ofInt (2 ^ 53)))

/-- The first loop of `project`, for at most `rounds` rounds. -/
def smear : ℕ → UInt64 → ℕ → Except RandomFault UInt64
  | 0, _, _ => Except.error RandomFault.unfinished
  | rounds + 1, lim, sh =>
      if lim &&& (lim + 1) = 0 then Except.ok lim
      else if 64 ≤ sh then Except.error RandomFault.oversizedShift
      else smear rounds (lim ||| lim >>> UInt64.ofNat sh) (2 * sh % 2 ^ 32)

variable {σ : Type}

/-- The second loop of `project`, for at most `k` outputs. -/
def drawLoop (next : σ → UInt64 × σ) (lim n : UInt64) :
    ℕ → UInt64 → σ → Except RandomFault (UInt64 × σ)
  | 0, _, _ => Except.error RandomFault.unfinished
  | k + 1, ran, st =>
      if ran &&& lim ≤ n then Except.ok (ran &&& lim, st)
      else drawLoop next lim n k (next st).1 (next st).2

/-- `project`, from the output `ran`.  The first loop is cut off after 64 rounds. -/
def project (next : σ → UInt64 × σ) (k : ℕ) (ran n : UInt64) (st : σ) :
    Except RandomFault (UInt64 × σ) := do
  let lim ← smear 64 n 1
  drawLoop next lim n k ran st

/-- What a call asks for. -/
inductive RandomMode
  | float
  | bits
  | range (low up : Int64)

/-- An integer argument. -/
def NumberRules.checkRandomArg (N : NumberRules) (v : Value) (n : ℕ) : Except RandomFault Int64 :=
  (N.checkInteger v "random" n).mapError RandomFault.raise

def randomMode (N : NumberRules) : List Value → Except RandomFault RandomMode
  | [] => return RandomMode.float
  | [v] => do
      let up ← N.checkRandomArg v 1
      return if up = 0 then RandomMode.bits else RandomMode.range 1 up
  | [v, w] => do
      let low ← N.checkRandomArg v 1
      let up ← N.checkRandomArg w 2
      return RandomMode.range low up
  | _ => throw (RandomFault.raise (PackError.message "wrong number of arguments"))

/-- `(up as u64).wrapping_sub(low as u64)`. -/
def spanOf (low up : Int64) : UInt64 := up.toUInt64 - low.toUInt64

/-- The result of a mode, from at most `k` outputs. -/
def RandomMode.draw (next : σ → UInt64 × σ) (k : ℕ) (st : σ) :
    RandomMode → Except RandomFault (Value × σ)
  | float => return (Value.float (unitFloat (next st).1), (next st).2)
  | bits => return (Value.integer (next st).1.toInt64, (next st).2)
  | range low up => do
      let p ← project next k (next st).1 (spanOf low up) (next st).2
      return (Value.integer (p.1 + low.toUInt64).toInt64, p.2)

/-- `lua_random`: the arguments are checked before anything is drawn. -/
def luaRandom (N : NumberRules) (next : σ → UInt64 × σ) (k : ℕ) (args : List Value) (st : σ) :
    Except RandomFault (Value × σ) := do
  let mode ← randomMode N args
  match mode with
  | RandomMode.range low up =>
      if up < low then
        throw (RandomFault.raise (PackError.badArg 1 "random" "interval is empty"))
      else (RandomMode.range low up).draw next k st
  | mode => mode.draw next k st

/-! ### The mask -/

theorem and_succ_iff (lim : UInt64) : lim &&& (lim + 1) = 0 ↔ IsMask lim.toNat := by
  have hlt := lim.toNat_lt
  rw [← UInt64.toNat_inj, UInt64.toNat_and, UInt64.toNat_add]
  by_cases hfull : lim.toNat + 1 = 2 ^ 64
  · -- the successor of the full mask wraps around to zero
    refine iff_of_true ?_ ⟨64, by omega⟩
    rw [show lim.toNat + UInt64.toNat 1 = 2 ^ 64 from hfull, Nat.mod_self, Nat.and_zero]
    rfl
  · rw [show lim.toNat + UInt64.toNat 1 = lim.toNat + 1 from rfl, Nat.mod_eq_of_lt (by omega)]
    exact and_succ_eq_zero_iff lim.toNat

theorem toNat_smear_step (lim : UInt64) {sh : ℕ} (hsh : sh < 64) :
    (lim ||| lim >>> UInt64.ofNat sh).toNat = lim.toNat ||| lim.toNat >>> sh := by
  rw [UInt64.toNat_or, UInt64.toNat_shiftRight,
    UInt64.toNat_ofNat_of_lt' (Nat.lt_trans hsh (by decide)), Nat.mod_eq_of_lt hsh]

theorem size_toNat_le (n : UInt64) : n.toNat.size ≤ 64 := Nat.size_le.2 n.toNat_lt

/-- From a number that is smeared over a distance of `2 ^ (6 - d)`, `d` more steps are enough. -/
theorem smear_spec {n : UInt64} (d : ℕ) :
    ∀ {rounds : ℕ} {lim : UInt64}, d ≤ 6 → d < rounds →
      Smeared n.toNat (2 ^ (6 - d)) lim.toNat →
      ∃ m : UInt64, smear rounds lim (2 ^ (6 - d)) = Except.ok m ∧ LeastMask n.toNat m.toNat := by
  induction d with
  | zero =>
      intro rounds lim _ hrounds hlim
      obtain ⟨rounds, rfl⟩ := Nat.exists_eq_succ_of_ne_zero (Nat.ne_of_gt hrounds)
      have hmask := hlim.isMask (size_toNat_le n)
      refine ⟨lim, ?_, hlim.leastMask (by decide) hmask⟩
      rw [smear, if_pos ((and_succ_iff lim).2 hmask)]
  | succ d ih =>
      intro rounds lim hd hrounds hlim
      obtain ⟨rounds, rfl⟩ := Nat.exists_eq_succ_of_ne_zero (show rounds ≠ 0 by omega)
      have hpos := Nat.two_pow_pos (6 - (d + 1))
      by_cases hmask : lim &&& (lim + 1) = 0
      · refine ⟨lim, ?_, hlim.leastMask hpos ((and_succ_iff lim).1 hmask)⟩
        rw [smear, if_pos hmask]
      · have hexp : 6 - d = 6 - (d + 1) + 1 := by omega
        have hsh : 2 ^ (6 - (d + 1)) < 64 :=
          Nat.pow_lt_pow_right (show 1 < 2 by decide) (show 6 - (d + 1) < 6 by omega)
        have hpow : 2 ^ (6 - d) = 2 * 2 ^ (6 - (d + 1)) := by rw [hexp, pow_succ, Nat.mul_comm]
        have hstep := hlim.double
        rw [← toNat_smear_step lim hsh, ← hpow] at hstep
        obtain ⟨m, hm, hleast⟩ := @ih rounds _ (by omega) (by omega) hstep
        refine ⟨m, ?_, hleast⟩
        rw [smear, if_neg hmask, if_neg (by omega), Nat.mod_eq_of_lt (by omega), ← hpow]
        exact hm

/-- **The smearing loop** ends in the smallest mask. -/
theorem smear_eq (n : UInt64) :
    ∃ m : UInt64, LeastMask n.toNat m.toNat ∧
      ∀ rounds, 7 ≤ rounds → smear rounds n 1 = Except.ok m := by
  obtain ⟨m, -, hleast⟩ := smear_spec (n := n) 6 (Nat.le_refl 6) (Nat.lt_succ_self 6)
    (smeared_one n.toNat)
  refine ⟨m, hleast, fun rounds hrounds => ?_⟩
  obtain ⟨m', hm', hleast'⟩ := smear_spec (n := n) 6 (Nat.le_refl 6) (show 6 < rounds by omega)
    (smeared_one n.toNat)
  rw [UInt64.toNat_inj.1 (hleast.unique hleast')]
  exact hm'

/-! ### Drawing -/

/-- The outputs of the generator that the loop looks at, from `ran` on. -/
def outputs (next : σ → UInt64 × σ) : ℕ → UInt64 → σ → List UInt64
  | 0, _, _ => []
  | k + 1, ran, st => ran :: outputs next k (next st).1 (next st).2

/-- An output that is not above the span once it is masked. -/
def accept (lim n ran : UInt64) : Option UInt64 :=
  if ran &&& lim ≤ n then some (ran &&& lim) else none

/-- **Drawing is rejection sampling** over the outputs of the generator. -/
theorem drawLoop_eq (next : σ → UInt64 × σ) (lim n : UInt64) (k : ℕ) :
    ∀ (ran : UInt64) (st : σ), (drawLoop next lim n k ran st).map Prod.fst =
      match firstAccepted (accept lim n) (outputs next k ran st) with
      | some p => Except.ok p
      | none => Except.error RandomFault.unfinished := by
  induction k with
  | zero => exact fun _ _ => rfl
  | succ k ih =>
      intro ran st
      rw [drawLoop, outputs, firstAccepted]
      by_cases hle : ran &&& lim ≤ n
      · rw [if_pos hle, accept, if_pos hle]
        rfl
      · rw [if_neg hle, accept, if_neg hle]
        exact ih _ _

/-- The loop ends in a value that is not above the span, or the outputs give out. -/
theorem drawLoop_cases (next : σ → UInt64 × σ) (lim n : UInt64) (k : ℕ) :
    ∀ (ran : UInt64) (st : σ),
      (∃ p st', drawLoop next lim n k ran st = Except.ok (p, st') ∧ p ≤ n) ∨
        drawLoop next lim n k ran st = Except.error RandomFault.unfinished := by
  induction k with
  | zero => exact fun _ _ => Or.inr rfl
  | succ k ih =>
      intro ran st
      rw [drawLoop]
      by_cases hle : ran &&& lim ≤ n
      · rw [if_pos hle]
        exact Or.inl ⟨_, _, rfl, hle⟩
      · rw [if_neg hle]
        exact ih _ _

/-- **As many outputs** stand for each value up to the span. -/
theorem card_draws {lim n p : UInt64} (hleast : LeastMask n.toNat lim.toNat) (hp : p ≤ n) :
    (draws (accept lim n) p).card = 2 ^ 64 / (lim.toNat + 1) := by
  obtain ⟨k, hk⟩ := hleast.isMask
  have hpos := Nat.two_pow_pos k
  have hlim := lim.toNat_lt
  have hle : n.toNat ≤ lim.toNat := hleast.le
  have hp : p.toNat ≤ n.toNat := UInt64.le_iff_toNat_le.1 hp
  have hk64 : k ≤ 64 := by
    by_contra hbig
    have := Nat.pow_le_pow_right (show 0 < 2 by decide) (show 65 ≤ k by omega)
    omega
  -- an output stands for `p` iff its low bits are those of `p`
  have hmem : ∀ r : UInt64, r ∈ draws (accept lim n) p ↔ r.toNat % 2 ^ k = p.toNat := by
    intro r
    have hand : (r &&& lim).toNat = r.toNat % 2 ^ k := by
      rw [UInt64.toNat_and, hk, Nat.and_two_pow_sub_one_eq_mod]
    rw [draws, Finset.mem_filter]
    unfold accept
    constructor
    · rintro ⟨-, h⟩
      split at h
      · rw [← hand, Option.some.inj h]
      · exact absurd h (by simp)
    · intro h
      have heq : r &&& lim = p := UInt64.toNat_inj.1 (hand.trans h)
      rw [heq, if_pos (UInt64.le_iff_toNat_le.2 hp)]
      exact ⟨Finset.mem_univ _, rfl⟩
  have hsplit : 2 ^ 64 = 2 ^ (64 - k) * 2 ^ k := by
    rw [← pow_add, Nat.sub_add_cancel hk64]
  rw [show lim.toNat + 1 = 2 ^ k by omega, hsplit, Nat.mul_div_cancel _ hpos]
  have hp' : p.toNat < 2 ^ k := by omega
  -- the high bits are free
  have hofNat : ∀ q, q < 2 ^ (64 - k) → 2 ^ k * q + p.toNat < 2 ^ 64 := by
    intro q hq
    have hmul := Nat.mul_le_mul_left (2 ^ k) (show q + 1 ≤ 2 ^ (64 - k) from hq)
    rw [Nat.mul_comm (2 ^ k) (2 ^ (64 - k)), ← hsplit, Nat.mul_add, Nat.mul_one] at hmul
    omega
  refine (Finset.card_nbij' (fun r => r.toNat / 2 ^ k) (fun q => UInt64.ofNat (2 ^ k * q + p.toNat))
    ?_ ?_ ?_ ?_).trans (Finset.card_range (2 ^ (64 - k)))
  · intro r hr
    have hr' := r.toNat_lt
    rw [hsplit] at hr'
    rw [Nat.mul_comm] at hr'
    exact Finset.mem_coe.2 (Finset.mem_range.2 (Nat.div_lt_of_lt_mul hr'))
  · intro q hq
    have hq := hofNat q (Finset.mem_range.1 (Finset.mem_coe.1 hq))
    refine Finset.mem_coe.2 ((hmem _).2 ?_)
    rw [UInt64.toNat_ofNat_of_lt' hq, Nat.mul_add_mod, Nat.mod_eq_of_lt hp']
  · intro r hr
    have hr := (hmem r).1 (Finset.mem_coe.1 hr)
    refine UInt64.toNat_inj.1 ?_
    have hdiv := Nat.div_add_mod r.toNat (2 ^ k)
    rw [hr] at hdiv
    rw [UInt64.toNat_ofNat_of_lt' (by rw [hdiv]; exact r.toNat_lt), hdiv]
  · intro q hq
    have hq := hofNat q (Finset.mem_range.1 (Finset.mem_coe.1 hq))
    show (UInt64.ofNat (2 ^ k * q + p.toNat)).toNat / 2 ^ k = q
    rw [UInt64.toNat_ofNat_of_lt' hq, Nat.mul_add_div hpos, Nat.div_eq_of_lt hp', Nat.add_zero]

/-! ### Ranges -/

variable {N : NumberRules} {args : List Value} {low up i : Int64}

theorem spanOf_toNat (hle : low.toInt ≤ up.toInt) :
    ((spanOf low up).toNat : ℤ) = up.toInt - low.toInt := by
  have hlow := toUInt64_toNat low
  have hup := toUInt64_toNat up
  have hlow' := low.toUInt64.toNat_lt
  have hup' := up.toUInt64.toNat_lt
  have := low.le_toInt
  have := up.toInt_lt
  rw [spanOf, UInt64.toNat_sub]
  split at hlow <;> split at hup <;> omega

/-- The addition that wraps around gives the value that is `p` above the lower end. -/
theorem toInt_add_low {p : UInt64} (hle : low.toInt ≤ up.toInt) (hp : p ≤ spanOf low up) :
    (p + low.toUInt64).toInt64.toInt = low.toInt + p.toNat := by
  have hspan := spanOf_toNat hle
  have hp := UInt64.le_iff_toNat_le.1 hp
  have hlow := toUInt64_toNat low
  have hlow' := low.toUInt64.toNat_lt
  have hsum := toUInt64_toNat (p + low.toUInt64).toInt64
  rw [UInt64.toUInt64_toInt64, UInt64.toNat_add] at hsum
  have := low.le_toInt
  have := up.toInt_lt
  have := (p + low.toUInt64).toInt64.le_toInt
  have := (p + low.toUInt64).toInt64.toInt_lt
  split at hlow <;> split at hsum <;> omega

/-- A call for a range draws until an output is accepted. -/
theorem luaRandom_range (next : σ → UInt64 × σ) (k : ℕ) (st : σ)
    (hmode : randomMode N args = Except.ok (RandomMode.range low up))
    (hle : low.toInt ≤ up.toInt) {lim : UInt64}
    (hlim : smear 64 (spanOf low up) 1 = Except.ok lim) :
    luaRandom N next k args st =
      (drawLoop next lim (spanOf low up) k (next st).1 (next st).2).map fun p =>
        (Value.integer (p.1 + low.toUInt64).toInt64, p.2) := by
  have hnot : ¬ up < low := by
    rw [Int64.lt_iff_toInt_lt]
    omega
  rw [luaRandom, hmode]
  show (if up < low then _ else _) = _
  rw [if_neg hnot, RandomMode.draw, project, hlim]
  rfl

/-- The result of a call for a range is that of its first accepted output. -/
theorem luaRandom_eq_firstAccepted (next : σ → UInt64 × σ) (k : ℕ) (st : σ)
    (hmode : randomMode N args = Except.ok (RandomMode.range low up))
    (hle : low.toInt ≤ up.toInt) {lim : UInt64}
    (hlim : smear 64 (spanOf low up) 1 = Except.ok lim) :
    (luaRandom N next k args st).map Prod.fst =
      match firstAccepted (accept lim (spanOf low up)) (outputs next k (next st).1 (next st).2) with
      | some p => Except.ok (Value.integer (p + low.toUInt64).toInt64)
      | none => Except.error RandomFault.unfinished := by
  have hloop := drawLoop_eq next lim (spanOf low up) k (next st).1 (next st).2
  rw [luaRandom_range next k st hmode hle hlim]
  cases hrun : drawLoop next lim (spanOf low up) k (next st).1 (next st).2 with
  | ok p =>
      rw [hrun] at hloop
      cases hfirst : firstAccepted (accept lim (spanOf low up))
          (outputs next k (next st).1 (next st).2) with
      | some q =>
          rw [hfirst] at hloop
          obtain rfl : p.1 = q := Except.ok.inj hloop
          rfl
      | none =>
          rw [hfirst] at hloop
          cases hloop
  | error e =>
      rw [hrun] at hloop
      cases hfirst : firstAccepted (accept lim (spanOf low up))
          (outputs next k (next st).1 (next st).2) with
      | some q =>
          rw [hfirst] at hloop
          cases hloop
      | none =>
          rw [hfirst] at hloop
          obtain rfl := Except.error.inj hloop
          rfl

/-- A generator that reads its outputs from a stream. -/
def streamNext (s : ℕ → UInt64) : UInt64 × (ℕ → UInt64) := (s 0, fun n => s (n + 1))

/-- A stream that starts with the outputs `o`. -/
def streamOf {k : ℕ} (o : Fin k → UInt64) : ℕ → UInt64 :=
  fun n => if h : n < k then o ⟨n, h⟩ else 0

theorem outputs_streamNext (k : ℕ) (s : ℕ → UInt64) :
    outputs streamNext k (s 0) (fun n => s (n + 1)) = List.ofFn fun n : Fin k => s n := by
  induction k generalizing s with
  | zero => rfl
  | succ k ih =>
      rw [outputs, List.ofFn_succ]
      exact congrArg (List.cons (s 0)) (ih fun n => s (n + 1))

/-- The sequences of `k` outputs on which a call returns `i`. -/
def randomRuns (N : NumberRules) (args : List Value) (k : ℕ) (i : Int64) :
    Finset (Fin k → UInt64) :=
  Finset.univ.filter fun o =>
    (luaRandom N streamNext k args (streamOf o)).map Prod.fst = Except.ok (Value.integer i)

theorem randomRuns_eq (hmode : randomMode N args = Except.ok (RandomMode.range low up))
    (hle : low.toInt ≤ up.toInt) {lim : UInt64} (hlim : smear 64 (spanOf low up) 1 = Except.ok lim)
    (k : ℕ) (i : Int64) :
    randomRuns N args k i =
      runs (accept lim (spanOf low up)) k (i.toUInt64 - low.toUInt64) := by
  refine Finset.filter_congr fun o _ => ?_
  have houtputs := outputs_streamNext k (streamOf o)
  have hfirst : (fun n : Fin k => streamOf o n) = o := by
    funext n
    exact dif_pos n.isLt
  rw [hfirst] at houtputs
  rw [luaRandom_eq_firstAccepted streamNext k (streamOf o) hmode hle hlim]
  simp only [streamNext, houtputs]
  cases firstAccepted (accept lim (spanOf low up)) (List.ofFn o) with
  | none => exact iff_of_false (by simp) (by simp)
  | some p =>
      simp only [Except.ok.injEq, Value.integer.injEq, Option.some.injEq]
      constructor
      · rintro rfl
        rw [UInt64.toUInt64_toInt64, UInt64.add_sub_cancel]
      · rintro rfl
        rw [UInt64.sub_add_cancel, Int64.toInt64_toUInt64]

/-- **Ranges**: for a span of any width the smearing loop ends in the smallest mask, results are
the lower end plus what was drawn and lie in the interval, and each value of the interval comes from
as many outputs, and from as many sequences of outputs of every length. -/
theorem random_in_range (hmode : randomMode N args = Except.ok (RandomMode.range low up))
    (hle : low.toInt ≤ up.toInt) :
    ((spanOf low up).toNat : ℤ) = up.toInt - low.toInt ∧
      (∃ lim : UInt64, LeastMask (spanOf low up).toNat lim.toNat ∧
        (∀ rounds, 7 ≤ rounds → smear rounds (spanOf low up) 1 = Except.ok lim) ∧
        ∀ i : Int64, low.toInt ≤ i.toInt → i.toInt ≤ up.toInt →
          (randomRuns N args 1 i).card = 2 ^ 64 / (lim.toNat + 1)) ∧
      (∀ i j : Int64, low.toInt ≤ i.toInt → i.toInt ≤ up.toInt → low.toInt ≤ j.toInt →
        j.toInt ≤ up.toInt → ∀ k, (randomRuns N args k i).card = (randomRuns N args k j).card) ∧
      ∀ {σ : Type} (next : σ → UInt64 × σ) (k : ℕ) (st : σ),
        luaRandom N next k args st ≠ Except.error RandomFault.oversizedShift ∧
          ∀ v st', luaRandom N next k args st = Except.ok (v, st') →
            ∃ (p : UInt64) (i : Int64),
              project next k (next st).1 (spanOf low up) (next st).2 = Except.ok (p, st') ∧
                v = Value.integer i ∧ i.toInt = low.toInt + p.toNat ∧ i.toInt ≤ up.toInt := by
  have hspan := spanOf_toNat hle
  obtain ⟨lim, hleast, hsmear⟩ := smear_eq (spanOf low up)
  have hlim := hsmear 64 (by decide)
  -- the outputs of a value
  have hdraws : ∀ i : Int64, low.toInt ≤ i.toInt → i.toInt ≤ up.toInt →
      (draws (accept lim (spanOf low up)) (i.toUInt64 - low.toUInt64)).card =
        2 ^ 64 / (lim.toNat + 1) := by
    intro i hlow hup
    refine card_draws hleast (UInt64.le_iff_toNat_le.2 ?_)
    have hoff := spanOf_toNat hlow
    rw [spanOf] at hoff
    omega
  refine ⟨hspan, ⟨lim, hleast, hsmear, fun i hlow hup => ?_⟩, ?_, ?_⟩
  · have hnone : runs (accept lim (spanOf low up)) 0 (i.toUInt64 - low.toUInt64) = ∅ :=
      Finset.filter_eq_empty_iff.2 fun o _ => by simp [firstAccepted]
    rw [randomRuns_eq hmode hle hlim, card_runs_succ, hdraws i hlow hup, hnone]
    simp
  · intro i j hi hi' hj hj' k
    rw [randomRuns_eq hmode hle hlim, randomRuns_eq hmode hle hlim]
    exact card_runs_eq ((hdraws i hi hi').trans (hdraws j hj hj').symm) k
  · intro σ next k st
    have hproject : project next k (next st).1 (spanOf low up) (next st).2 =
        drawLoop next lim (spanOf low up) k (next st).1 (next st).2 := by
      rw [project, hlim]
      rfl
    rw [luaRandom_range next k st hmode hle hlim, hproject]
    rcases drawLoop_cases next lim (spanOf low up) k (next st).1 (next st).2 with
      ⟨p, st', hrun, hp⟩ | hrun
    · rw [hrun]
      refine ⟨by simp [Except.map], fun v st'' hok => ?_⟩
      obtain ⟨rfl, rfl⟩ := Prod.mk.inj (Except.ok.inj hok)
      have hp' := UInt64.le_iff_toNat_le.1 hp
      have hint := toInt_add_low hle hp
      exact ⟨p, _, rfl, rfl, hint, (le_of_eq hint).trans (by omega)⟩
    · rw [hrun]
      exact ⟨by simp [Except.map], fun v st' hok => by cases hok⟩

/-- An interval that is wider than the positive integers. -/
theorem random_in_range_wide :
    (randomRuns noTexts [Value.integer Int64.minValue, Value.integer 5] 3 (-7)).card =
      (randomRuns noTexts [Value.integer Int64.minValue, Value.integer 5] 3 0).card :=
  (@random_in_range noTexts [Value.integer Int64.minValue, Value.integer 5] Int64.minValue 5 rfl
    (by decide)).2.2.1 (-7) 0 (by decide) (by decide) (by decide) (by decide) 3

end Tcvm
