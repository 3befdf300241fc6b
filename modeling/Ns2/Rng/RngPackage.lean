import Mathlib.Data.Rat.Floor
import Mathlib.Tactic.Positivity
import Ns2.Lib.Machine
import Ns2.Rng.RngStreams

/-! The streams of the package: what is drawn from them, and that every state that they store stays
one that `CheckSeed` accepts. Values are exact ones, as for the seeds. -/

namespace Ns2

open Rng Option

namespace RNG

/-- `5.9604644775390625e-8` -/
def fact : ℚ := 1 / 2 ^ 24

def u01d (g : RNG) : ℚ × RNG :=
  let r := g.u01
  let r' := r.2.u01
  if g.anti then
    let u := r.1 + (r'.1 - 1) * fact
    (if u < 0 then u + 1 else u, r'.2)
  else
    let u := r.1 + r'.1 * fact
    (if u < 1 then u else u - 1, r'.2)

def randU01 (g : RNG) : ℚ × RNG := if g.incPrec then g.u01d else g.u01

/-- The value of an `unsigned long` set to `n`. -/
def ulong (n : ℤ) : ℤ := n % 2 ^ 64

/-- The value of a `long` set to `n`. -/
def long (n : ℤ) : ℤ := n.bmod (2 ^ 64)

def randInt (low high : ℤ) (g : RNG) : ℤ × RNG :=
  let u := g.randU01
  (long (ulong (ulong low + ulong ⌊(ulong (high - low + 1) : ℚ) * u.1⌋)), u.2)

def resetStartStream (g : RNG) : RNG := { g with Cg := g.Ig, Bg := g.Ig }

def resetStartSubstream (g : RNG) : RNG := { g with Cg := g.Bg }

/-- The check of the seeds aborts. -/
def setSeed (seed : State) (g : RNG) : Option RNG :=
  if checkSeed seed ≠ 0 then none else some { g with Cg := seed, Bg := seed, Ig := seed }

end RNG

/-- An `unsigned long[6]` as a state. -/
def Rng.State.ofSeed (seed : Fin 6 → ℕ) : State :=
  ⟨⟨seed 0, seed 1, seed 2⟩, ⟨seed 3, seed 4, seed 5⟩⟩

/-- The streams that there are, and the seed of the next one. -/
structure RngPackage where
  streams : List RNG
  nextSeed : State

/-- An operation of the package, or one on the stream with a number. -/
inductive RngOp where
  | newStream
  | setPackageSeed (seed : Fin 6 → ℕ)
  | u01 (i : ℕ)
  | u01d (i : ℕ)
  | randInt (i : ℕ) (low high : ℤ)
  | advanceState (i : ℕ) (e c : ℤ)
  | resetStartStream (i : ℕ)
  | resetStartSubstream (i : ℕ)
  | resetNextSubstream (i : ℕ)
  | setSeed (i : ℕ) (seed : Fin 6 → ℕ)
  | setAntithetic (i : ℕ) (a : Bool)
  | increasedPrecis (i : ℕ) (incp : Bool)

inductive RngAnswer where
  | done
  | double (u : ℚ)
  | long (n : ℤ)

namespace RngPackage

open RNG

/-- An operation on a stream that is there. -/
def withStream (s : RngPackage) (i : ℕ) (f : RNG → Option (RNG × RngAnswer)) :
    Option (RngPackage × RngAnswer) :=
  (s.streams[i]?).bind fun g =>
    (f g).map fun r => ({ s with streams := s.streams.set i r.1 }, r.2)

def step (s : RngPackage) : RngOp → Option (RngPackage × RngAnswer)
  | .newStream => (init s.nextSeed).map fun r => (⟨s.streams ++ [r.1], r.2⟩, .done)
  | .setPackageSeed seed =>
    if checkSeed (.ofSeed seed) ≠ 0 then none
    else some ({ s with nextSeed := .ofSeed seed }, .done)
  | .u01 i => s.withStream i fun g => some (g.u01.2, .double g.u01.1)
  | .u01d i => s.withStream i fun g => some (g.u01d.2, .double g.u01d.1)
  | .randInt i low high =>
    s.withStream i fun g => some ((g.randInt low high).2, .long (g.randInt low high).1)
  | .advanceState i e c => s.withStream i fun g => (g.advanceState e c).map fun g => (g, .done)
  | .resetStartStream i => s.withStream i fun g => some (g.resetStartStream, .done)
  | .resetStartSubstream i => s.withStream i fun g => some (g.resetStartSubstream, .done)
  | .resetNextSubstream i => s.withStream i fun g => g.resetNextSubstream.map fun g => (g, .done)
  | .setSeed i seed => s.withStream i fun g => (g.setSeed (.ofSeed seed)).map fun g => (g, .done)
  | .setAntithetic i a => s.withStream i fun g => some ({ g with anti := a }, .done)
  | .increasedPrecis i incp => s.withStream i fun g => some ({ g with incPrec := incp }, .done)

def machine : Machine RngPackage RngOp RngAnswer := ⟨step⟩

/-- No stream yet. -/
def start : RngPackage := ⟨[], RNG.nextSeed⟩

end RngPackage

namespace RNG

variable {g : RNG} {seed : State}
variable {g' : RNG} {e c : ℤ}

/-- All states of a stream pass the check of the seeds. -/
structure Valid (g : RNG) : Prop where
  Cg : g.Cg.Valid
  Bg : g.Bg.Valid
  Ig : g.Ig.Valid

theorem u01_bounds (g : RNG) : 0 < g.u01.1 ∧ g.u01.1 < 1 := by
  have hpos₁ : 0 < m1 := by decide
  have hpos₂ : 0 < m2 := by decide
  unfold u01
  dsimp only
  rw [reduce_eq hpos₁, reduce_eq hpos₂]
  generalize a12 * g.Cg.fst.y - a13n * g.Cg.fst.x = x
  generalize a21 * g.Cg.snd.z - a23n * g.Cg.snd.x = y
  have hx₀ := Int.emod_nonneg x hpos₁.ne'
  have hx := Int.emod_lt_of_pos x hpos₁
  have hy₀ := Int.emod_nonneg y hpos₂.ne'
  have hy := Int.emod_lt_of_pos y hpos₂
  generalize x % m1 = p1 at *
  generalize y % m2 = p2 at *
  have hscale : ∀ n : ℤ, 0 < n → n ≤ m1 → 0 < (n : ℚ) * Rng.norm ∧ (n : ℚ) * Rng.norm < 1 := by
    intro n hn hle
    have hn' : (0 : ℚ) < n := Int.cast_pos.2 hn
    have hle' : (n : ℚ) ≤ m1 := Int.cast_le.2 hle
    unfold Rng.norm
    rw [mul_one_div, div_lt_one (by unfold m1; norm_num)]
    exact ⟨div_pos hn' (by unfold m1; norm_num), by linarith⟩
  have hu : 0 < (if p1 > p2 then ((p1 : ℚ) - p2) * Rng.norm else (p1 - p2 + m1) * Rng.norm) ∧
      (if p1 > p2 then ((p1 : ℚ) - p2) * Rng.norm else (p1 - p2 + m1) * Rng.norm) < 1 := by
    split_ifs with hgt
    · have h := hscale (p1 - p2) (by omega) (by omega)
      rwa [Int.cast_sub] at h
    · have h := hscale (p1 - p2 + m1) (by unfold m1 m2 at *; omega) (by omega)
      rwa [Int.cast_add, Int.cast_sub] at h
  split_ifs at * <;> constructor <;> linarith

theorem u01d_bounds (g : RNG) : 0 ≤ g.u01d.1 ∧ g.u01d.1 < 1 := by
  obtain ⟨h₀, h₁⟩ := u01_bounds g
  obtain ⟨h₀', h₁'⟩ := u01_bounds g.u01.2
  have hfact : fact ≤ 1 := by
    unfold fact
    norm_num
  have hfact₀ : 0 < fact := by
    unfold fact
    norm_num
  have hlow : 0 < g.u01.2.u01.1 * fact := mul_pos h₀' hfact₀
  have hhigh : g.u01.2.u01.1 * fact < fact := mul_lt_of_lt_one_left hfact₀ h₁'
  unfold u01d
  dsimp only
  rw [sub_one_mul]
  split_ifs <;> constructor <;> linarith

theorem randU01_bounds (g : RNG) : 0 ≤ g.randU01.1 ∧ g.randU01.1 < 1 := by
  unfold randU01
  split_ifs
  · exact u01d_bounds g
  · exact ⟨(u01_bounds g).1.le, (u01_bounds g).2⟩

theorem long_ulong (n : ℤ) : long (ulong n) = long n := Int.emod_bmod ..

theorem long_add_ulong (m n : ℤ) : long (ulong m + ulong n) = long (m + n) :=
  (Int.emod_add_bmod ..).trans (Int.add_emod_bmod ..)

theorem long_eq {n : ℤ} (hlow : longMin ≤ n) (hhigh : n < -longMin) : long n = n := by
  unfold longMin at *
  exact Int.bmod_eq_of_le (by omega) (by omega)

/-- The scaled number is below the number of values, which may be as many as a `long` has. -/
theorem randInt_mem (g : RNG) {low high : ℤ} (hlow : longMin ≤ low) (hle : low ≤ high)
    (hhigh : high < -longMin) : low ≤ (g.randInt low high).1 ∧ (g.randInt low high).1 ≤ high := by
  obtain ⟨h₀, h₁⟩ := randU01_bounds g
  unfold randInt
  dsimp only
  generalize g.randU01.1 = u at *
  have hW₀ : 0 ≤ ulong (high - low + 1) := Int.emod_nonneg _ (by decide)
  have hW : ulong (high - low + 1) ≤ high - low + 1 := by
    unfold ulong longMin at *
    omega
  generalize ulong (high - low + 1) = W at *
  have hW₀' : (0 : ℚ) ≤ W := Int.cast_nonneg hW₀
  have hfloor₀ : 0 ≤ ⌊(W : ℚ) * u⌋ := Int.floor_nonneg.2 (mul_nonneg hW₀' h₀)
  have hfloor : ⌊(W : ℚ) * u⌋ ≤ high - low := by
    have hlt : (W : ℚ) * u < (high - low + 1 : ℤ) := by
      rcases hW₀.eq_or_lt with hzero | hpos
      · rw [← hzero, Int.cast_zero, zero_mul]
        exact Int.cast_pos.2 (by omega)
      · exact (mul_lt_of_lt_one_right (Int.cast_pos.2 hpos) h₁).trans_le (Int.cast_le.2 hW)
    exact Int.lt_add_one_iff.1 (Int.floor_lt.2 hlt)
  generalize ⌊(W : ℚ) * u⌋ = k at *
  rw [long_ulong, long_add_ulong, long_eq (by omega) (by omega)]
  omega

theorem Valid.u01 (hg : g.Valid) : g.u01.2.Valid := by
  obtain ⟨x, y, hx, hy, hsteps⟩ := exists_steps g hg.Cg recurrence1.jumps_A recurrence2.jumps_A
  have hone := hsteps.forwards zero_le_one
  have hCg : g.u01.2.Cg = ⟨x, y⟩ := congrArg RNG.Cg hone
  exact ⟨hCg ▸ hsteps.valid, hg.Bg, hg.Ig⟩

theorem Valid.u01d (hg : g.Valid) : g.u01d.2.Valid := by
  have hg' := hg.u01.u01
  unfold RNG.u01d
  dsimp only
  split_ifs <;> exact hg'

theorem Valid.randInt (hg : g.Valid) (low high : ℤ) : (g.randInt low high).2.Valid := by
  change g.randU01.2.Valid
  unfold randU01
  split_ifs
  · exact hg.u01d
  · exact hg.u01

theorem Valid.resetNextSubstream (hg : g.Valid) (h : g.resetNextSubstream = some g') :
    g'.Valid := by
  obtain ⟨t, ht, hsteps⟩ := resetNextSubstream_spec hg.Bg
  obtain rfl := some.inj (ht.symm.trans h)
  exact ⟨hsteps.valid, hsteps.valid, hg.Ig⟩

theorem advanceState_frame (h : g.advanceState e c = some g') : g'.Bg = g.Bg ∧ g'.Ig = g.Ig := by
  obtain ⟨C1, -, h⟩ := bind_eq_some_iff.1 h
  obtain ⟨C2, -, h⟩ := bind_eq_some_iff.1 h
  obtain ⟨s1, -, h⟩ := bind_eq_some_iff.1 h
  obtain ⟨s2, -, h⟩ := bind_eq_some_iff.1 h
  cases h
  exact ⟨rfl, rfl⟩

/-- The two arguments with which `advance_state` overflows. -/
def Overflows (e c : ℤ) : Prop := intMax < |e| ∨ c = longMin

instance (e c : ℤ) : Decidable (Overflows e c) := inferInstanceAs (Decidable (_ ∨ _))

theorem not_overflows : ¬Overflows e c ↔ |e| ≤ intMax ∧ c ≠ longMin := by
  rw [Overflows, not_or, not_lt]

theorem Valid.advanceState (hg : g.Valid) (h : g.advanceState e c = some g') : g'.Valid := by
  obtain ⟨hBg, hIg⟩ := advanceState_frame h
  by_cases hbad : Overflows e c
  · rw [advanceState_eq_none g hbad] at h
    cases h
  · obtain ⟨he, hc⟩ := not_overflows.1 hbad
    obtain ⟨r, hr, hsteps⟩ := advanceState_spec hg.Cg he hc
    obtain rfl := some.inj (hr.symm.trans h)
    exact ⟨hsteps.valid, hBg ▸ hg.Bg, hIg ▸ hg.Ig⟩

theorem valid_ofSeed {seed : Fin 6 → ℕ} (h : checkSeed (.ofSeed seed) = 0) :
    (State.ofSeed seed).Valid :=
  ⟨⟨Int.natCast_nonneg _, Int.natCast_nonneg _, Int.natCast_nonneg _⟩,
    ⟨Int.natCast_nonneg _, Int.natCast_nonneg _, Int.natCast_nonneg _⟩, h⟩

end RNG

namespace RngPackage

open RNG

variable {s s' : RngPackage} {op : RngOp} {answer : RngAnswer}
variable {i : ℕ} {f : RNG → Option (RNG × RngAnswer)}

/-- All states of all streams and the seed of the next one pass the check of the seeds. -/
structure Valid (s : RngPackage) : Prop where
  streams : ∀ g ∈ s.streams, g.Valid
  nextSeed : s.nextSeed.Valid

/-- Numbers of `U01` lie between 0 and 1, and those of `rand_int` between its arguments. -/
def Fits : RngOp → RngAnswer → Prop
  | .u01 _, .double u => 0 < u ∧ u < 1
  | .randInt _ low high, .long n =>
    longMin ≤ low → low ≤ high → high < -longMin → low ≤ n ∧ n ≤ high
  | .u01 _, _ => False
  | .randInt _ _ _, _ => False
  | _, _ => True

/-- What an operation may be given: an existing stream, seeds that pass the check, and arguments of
`advance_state` without an overflow. -/
def Takes (s : RngPackage) : RngOp → Prop
  | .newStream => True
  | .setPackageSeed seed => checkSeed (.ofSeed seed) = 0
  | .setSeed i seed => i < s.streams.length ∧ checkSeed (.ofSeed seed) = 0
  | .advanceState i e c => i < s.streams.length ∧ ¬Overflows e c
  | .u01 i | .u01d i | .randInt i _ _ | .resetStartStream i | .resetStartSubstream i
  | .resetNextSubstream i | .setAntithetic i _ | .increasedPrecis i _ => i < s.streams.length

instance (s : RngPackage) : (op : RngOp) → Decidable (s.Takes op)
  | .newStream => isTrue trivial
  | .setPackageSeed _ => inferInstanceAs (Decidable (_ = _))
  | .setSeed _ _ => inferInstanceAs (Decidable (_ ∧ _))
  | .advanceState _ _ _ => inferInstanceAs (Decidable (_ ∧ ¬_))
  | .u01 _ | .u01d _ | .randInt _ _ _ | .resetStartStream _ | .resetStartSubstream _
  | .resetNextSubstream _ | .setAntithetic _ _ | .increasedPrecis _ _ =>
    inferInstanceAs (Decidable (_ < _))

theorem Valid.withStream (hs : s.Valid) {P : RngAnswer → Prop}
    (hf : ∀ g g' a, g.Valid → f g = some (g', a) → g'.Valid ∧ P a)
    (h : s.withStream i f = some (s', answer)) : s'.Valid ∧ P answer := by
  obtain ⟨g, hg, h⟩ := bind_eq_some_iff.1 h
  obtain ⟨⟨g', a⟩, hr, heq⟩ := map_eq_some_iff.1 h
  obtain ⟨rfl, rfl⟩ := Prod.mk.inj heq
  obtain ⟨hg', ha⟩ := hf g g' a (hs.streams g (List.mem_of_getElem? hg)) hr
  refine ⟨⟨fun x hx => ?_, hs.nextSeed⟩, ha⟩
  rcases List.mem_or_eq_of_mem_set hx with hx | rfl
  · exact hs.streams x hx
  · exact hg'

theorem Valid.step (hs : s.Valid) (h : s.step op = some (s', answer)) :
    s'.Valid ∧ Fits op answer := by
  cases op with
  | newStream =>
    obtain ⟨g, next, hinit, hCg, hBg, hIg, hsteps⟩ := init_spec hs.nextSeed
    simp only [RngPackage.step, hinit, map_some, some.injEq, Prod.mk.injEq] at h
    obtain ⟨rfl, rfl⟩ := h
    refine ⟨⟨fun x hx => ?_, hsteps.valid⟩, trivial⟩
    rcases List.mem_append.1 hx with hx | hx
    · exact hs.streams x hx
    · rw [List.mem_singleton.1 hx]
      exact ⟨hCg ▸ hs.nextSeed, hBg ▸ hs.nextSeed, hIg ▸ hs.nextSeed⟩
  | setPackageSeed seed =>
    rw [RngPackage.step] at h
    split_ifs at h with hcheck
    cases h
    exact ⟨⟨hs.streams, valid_ofSeed (not_not.1 hcheck)⟩, trivial⟩
  | u01 i =>
    refine hs.withStream (fun g g' a hg hr => ?_) h
    cases hr
    exact ⟨hg.u01, u01_bounds g⟩
  | u01d i =>
    refine hs.withStream (fun g g' a hg hr => ?_) h
    cases hr
    exact ⟨hg.u01d, trivial⟩
  | randInt i low high =>
    refine hs.withStream (fun g g' a hg hr => ?_) h
    cases hr
    exact ⟨hg.randInt low high, fun hlow hle hhigh => randInt_mem g hlow hle hhigh⟩
  | advanceState i e c =>
    refine hs.withStream (fun g g' a hg hr => ?_) h
    obtain ⟨g₁, hg₁, heq⟩ := map_eq_some_iff.1 hr
    cases heq
    exact ⟨hg.advanceState hg₁, trivial⟩
  | resetStartStream i =>
    refine hs.withStream (fun g g' a hg hr => ?_) h
    cases hr
    exact ⟨⟨hg.Ig, hg.Ig, hg.Ig⟩, trivial⟩
  | resetStartSubstream i =>
    refine hs.withStream (fun g g' a hg hr => ?_) h
    cases hr
    exact ⟨⟨hg.Bg, hg.Bg, hg.Ig⟩, trivial⟩
  | resetNextSubstream i =>
    refine hs.withStream (fun g g' a hg hr => ?_) h
    obtain ⟨g₁, hg₁, heq⟩ := map_eq_some_iff.1 hr
    cases heq
    exact ⟨hg.resetNextSubstream hg₁, trivial⟩
  | setSeed i seed =>
    refine hs.withStream (fun g g' a hg hr => ?_) h
    obtain ⟨g₁, hg₁, heq⟩ := map_eq_some_iff.1 hr
    cases heq
    rw [RNG.setSeed] at hg₁
    split_ifs at hg₁ with hcheck
    cases hg₁
    have hseed := valid_ofSeed (not_not.1 hcheck)
    exact ⟨⟨hseed, hseed, hseed⟩, trivial⟩
  | setAntithetic i a =>
    refine hs.withStream (fun g g' a hg hr => ?_) h
    cases hr
    exact ⟨⟨hg.Cg, hg.Bg, hg.Ig⟩, trivial⟩
  | increasedPrecis i incp =>
    refine hs.withStream (fun g g' a hg hr => ?_) h
    cases hr
    exact ⟨⟨hg.Cg, hg.Bg, hg.Ig⟩, trivial⟩

theorem exists_withStream (hi : i < s.streams.length)
    (hf : ∀ g ∈ s.streams, ∃ g' a, f g = some (g', a)) :
    ∃ s' a, s.withStream i f = some (s', a) := by
  obtain ⟨g', a, hr⟩ := hf _ (List.getElem_mem hi)
  exact ⟨_, _, by rw [RngPackage.withStream, List.getElem?_eq_getElem hi, bind_some, hr]; rfl⟩

theorem Valid.exists_step (hs : s.Valid) (h : s.Takes op) : ∃ s' a, s.step op = some (s', a) := by
  cases op with
  | newStream =>
    obtain ⟨g, next, hinit, -⟩ := init_spec hs.nextSeed
    exact ⟨_, _, by rw [RngPackage.step, hinit]; rfl⟩
  | setPackageSeed seed => exact ⟨_, _, if_neg (not_not.2 h)⟩
  | advanceState i e c =>
    refine exists_withStream h.1 fun g hg => ?_
    obtain ⟨he, hc⟩ := not_overflows.1 h.2
    obtain ⟨r, hr, -⟩ := advanceState_spec (hs.streams g hg).Cg he hc
    exact ⟨r, .done, by rw [hr]; rfl⟩
  | resetNextSubstream i =>
    refine exists_withStream h fun g hg => ?_
    obtain ⟨t, ht, -⟩ := resetNextSubstream_spec (hs.streams g hg).Bg
    exact ⟨_, .done, by rw [ht]; rfl⟩
  | setSeed i seed =>
    refine exists_withStream h.1 fun g _ =>
      ⟨{ g with Cg := .ofSeed seed, Bg := .ofSeed seed, Ig := .ofSeed seed }, .done, ?_⟩
    exact congrArg (Option.map fun g => (g, RngAnswer.done)) (if_neg (not_not.2 h.2))
  | u01 i | u01d i | randInt i low high | resetStartStream i
  | resetStartSubstream i | setAntithetic i a | increasedPrecis i incp =>
    exact exists_withStream h fun g _ => ⟨_, _, rfl⟩

/-- Every run leaves states that pass the check and answers that fit; and a run comes to an end
unless an operation of it is given what it does not take. -/
theorem run_valid (ops : List RngOp) :
    (∀ s answers, machine.run start ops = some (s, answers) →
      s.Valid ∧ List.Forall₂ Fits ops answers) ∧
    (machine.RunsWith Takes start ops → ∃ s answers, machine.run start ops = some (s, answers)) := by
  have hstart : start.Valid := ⟨fun _ hg => absurd hg List.not_mem_nil, valid_nextSeed⟩
  refine ⟨fun s answers hrun => ?_, fun htakes => ?_⟩
  · exact Machine.keeps_of_run (fun s op s' a hs hstep => hs.step hstep) hrun hstart
  · obtain ⟨s, answers, hrun, -⟩ := htakes.exists_run (I := Valid) (Q := fun _ _ => True)
      (fun s op hs htake => by
        obtain ⟨s', a, hstep⟩ := hs.exists_step htake
        exact ⟨s', a, hstep, (hs.step hstep).1, trivial⟩) hstart
    exact ⟨s, answers, hrun⟩

/-- A stream draws a number and jumps. -/
def drawn : List RngOp := [.newStream, .u01 0, .resetNextSubstream 0, .randInt 0 1 6]

theorem run_valid_drawn : machine.RunsWith Takes start drawn ∧
    ∃ s answers, machine.run start drawn = some (s, answers) ∧ s.Valid ∧
      List.Forall₂ Fits drawn answers := by
  have htakes : machine.RunsWith Takes start drawn := by decide +kernel
  obtain ⟨s, answers, hrun⟩ := (run_valid drawn).2 htakes
  exact ⟨htakes, s, answers, hrun, (run_valid drawn).1 s answers hrun⟩

end RngPackage

end Ns2
