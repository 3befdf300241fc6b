import Mathlib.Algebra.Order.Field.Rat
import Mathlib.Data.ZMod.Basic
import Mathlib.LinearAlgebra.Matrix.Notation
import Mathlib.Tactic.LinearCombination

/-! `RNG`: two recurrences of order three, and the matrices that jump over many steps of them. A
`double` that holds an integer is that integer; a `long` has 64 bits and an `int` has 32. A signed
overflow gives no result. The products of matrices and vectors that `RNG` computes, as products
modulo `m`. -/

namespace Ns2

namespace Rng

def m1 : ℤ := 4294967087

def m2 : ℤ := 4294944443

def norm : ℚ := 1 / (m1 + 1)

def a12 : ℤ := 1403580

def a13n : ℤ := 810728

def a21 : ℤ := 527612

def a23n : ℤ := 1370589

def two17 : ℤ := 131072

def two53 : ℤ := 9007199254740992

/-- A `double[3]`. -/
structure Vec where
  x : ℤ
  y : ℤ
  z : ℤ
  deriving DecidableEq

/-- A `double[3][3]`, by its rows. -/
structure Mat where
  x : Vec
  y : Vec
  z : Vec
  deriving DecidableEq

/-- The inverse of `A1p0`. -/
def InvA1 : Mat := ⟨⟨184888585, 0, 1945170933⟩, ⟨1, 0, 0⟩, ⟨0, 1, 0⟩⟩

/-- The inverse of `A2p0`. -/
def InvA2 : Mat := ⟨⟨0, 360363334, 4225571728⟩, ⟨1, 0, 0⟩, ⟨0, 1, 0⟩⟩

def A1p0 : Mat := ⟨⟨0, 1, 0⟩, ⟨0, 0, 1⟩, ⟨-810728, 1403580, 0⟩⟩

def A2p0 : Mat := ⟨⟨0, 1, 0⟩, ⟨0, 0, 1⟩, ⟨-1370589, 0, 527612⟩⟩

def A1p76 : Mat :=
  ⟨⟨82758667, 1871391091, 4127413238⟩, ⟨3672831523, 69195019, 1871391091⟩,
    ⟨3672091415, 3528743235, 69195019⟩⟩

def A2p76 : Mat :=
  ⟨⟨1511326704, 3759209742, 1610795712⟩, ⟨4292754251, 1511326704, 3889917532⟩,
    ⟨3859662829, 4292754251, 3708466080⟩⟩

def A1p127 : Mat :=
  ⟨⟨2427906178, 3580155704, 949770784⟩, ⟨226153695, 1230515664, 3580155704⟩,
    ⟨1988835001, 986791581, 1230515664⟩⟩

def A2p127 : Mat :=
  ⟨⟨1464411153, 277697599, 1610723613⟩, ⟨32183930, 1464411153, 1022607788⟩,
    ⟨2824425944, 32183930, 2093834863⟩⟩

/-- The result of an operation that a `double` holds exactly. -/
def exact (v : ℤ) : Option ℤ := if -two53 < v ∧ v < two53 then some v else none

/-- `(a * s + c) mod m`. Only the first sum may be too large for a `double`. -/
def multModM (a s c m : ℤ) : Option ℤ := do
  let v := a * s + c
  let v ← (if v ≥ two53 ∨ v ≤ -two53 then do
      let a1 := a.tdiv two17
      let a ← exact (a - (← exact (a1 * two17)))
      let v ← exact (a1 * s)
      let a1 := v.tdiv m
      let v ← exact (v - (← exact (a1 * m)))
      let v ← exact ((← exact (v * two17)) + (← exact (a * s)))
      exact (v + c)
    else some v)
  let a1 := v.tdiv m
  let v ← exact (v - (← exact (a1 * m)))
  if v < 0 then exact (v + m) else some v

def multRow (r s : Vec) (m : ℤ) : Option ℤ := do
  let x ← multModM r.x s.x 0 m
  let x ← multModM r.y s.y x m
  multModM r.z s.z x m

def matVecModM (A : Mat) (s : Vec) (m : ℤ) : Option Vec := do
  let x ← multRow A.x s m
  let y ← multRow A.y s m
  let z ← multRow A.z s m
  some ⟨x, y, z⟩

/-- The matrix with the columns exchanged with the rows. -/
def Mat.transpose (A : Mat) : Mat :=
  ⟨⟨A.x.x, A.y.x, A.z.x⟩, ⟨A.x.y, A.y.y, A.z.y⟩, ⟨A.x.z, A.y.z, A.z.z⟩⟩

/-- The product is computed column by column. -/
def matMatModM (A B : Mat) (m : ℤ) : Option Mat := do
  let x ← matVecModM A B.transpose.x m
  let y ← matVecModM A B.transpose.y m
  let z ← matVecModM A B.transpose.z m
  some (Mat.transpose ⟨x, y, z⟩)

def intMax : ℤ := 2 ^ 31 - 1

def longMin : ℤ := -2 ^ 63

/-- The loop of `matTwoPowModM`; its counter is an `int`. -/
def squareLoop (m e i : ℤ) (B : Mat) : Option Mat :=
  if i < e then do
    let B ← matMatModM B B m
    if i < intMax then squareLoop m e (i + 1) B else none
  else some B
  termination_by (e - i).toNat

/-- `A ^ (2 ^ e)`. -/
def matTwoPowModM (A : Mat) (m e : ℤ) : Option Mat := squareLoop m e 0 A

/-- The loop of `matPowModM`. -/
def powLoop (m n : ℤ) (W B : Mat) : Option Mat :=
  if n > 0 then do
    let B ← (if n.tmod 2 ≠ 0 then matMatModM W B m else some B)
    let W ← matMatModM W W m
    powLoop m (n.tdiv 2) W B
  else some B
  termination_by n.toNat
  decreasing_by
    rw [Int.tdiv_eq_ediv_of_nonneg (by omega)]
    omega

def Mat.one : Mat := ⟨⟨1, 0, 0⟩, ⟨0, 1, 0⟩, ⟨0, 0, 1⟩⟩

/-- `A ^ n`. -/
def matPowModM (A : Mat) (m n : ℤ) : Option Mat := powLoop m n A .one

/-- The six components of a state; `fst` is that of the first recurrence. -/
structure State where
  fst : Vec
  snd : Vec
  deriving DecidableEq

/-- 0 if the seeds are legal values, which are taken as `unsigned long`. -/
def checkSeed (seed : State) : ℤ :=
  if seed.fst.x ≥ m1 ∨ seed.fst.y ≥ m1 ∨ seed.fst.z ≥ m1 then -1
  else if seed.snd.x ≥ m2 ∨ seed.snd.y ≥ m2 ∨ seed.snd.z ≥ m2 then -1
  else if seed.fst = ⟨0, 0, 0⟩ then -1
  else if seed.snd = ⟨0, 0, 0⟩ then -1
  else 0

end Rng

open Rng

structure RNG where
  Cg : State
  Bg : State
  Ig : State
  anti : Bool
  incPrec : Bool

namespace RNG

/-- A sum of products reduced as `U01` reduces it. -/
def reduce (p m : ℤ) : ℤ :=
  let k := p.tdiv m
  let p := p - k * m
  if p < 0 then p + m else p

/-- `U01`. -/
def u01 (g : RNG) : ℚ × RNG :=
  let p1 := reduce (a12 * g.Cg.fst.y - a13n * g.Cg.fst.x) m1
  let p2 := reduce (a21 * g.Cg.snd.z - a23n * g.Cg.snd.x) m2
  let u : ℚ := if p1 > p2 then (p1 - p2) * norm else (p1 - p2 + m1) * norm
  (if g.anti = false then u else 1 - u,
    { g with Cg := ⟨⟨g.Cg.fst.y, g.Cg.fst.z, p1⟩, ⟨g.Cg.snd.y, g.Cg.snd.z, p2⟩⟩ })

/-- The seed of the package before it is set. -/
def nextSeed : State := ⟨⟨12345, 12345, 12345⟩, ⟨12345, 12345, 12345⟩⟩

/-- A stream that starts at the next seed, and the next seed after it. -/
def init (nextSeed : State) : Option (RNG × State) := do
  let s1 ← matVecModM A1p127 nextSeed.fst m1
  let s2 ← matVecModM A2p127 nextSeed.snd m2
  some (⟨nextSeed, nextSeed, nextSeed, false, false⟩, ⟨s1, s2⟩)

def resetNextSubstream (g : RNG) : Option RNG := do
  let s1 ← matVecModM A1p76 g.Bg.fst m1
  let s2 ← matVecModM A2p76 g.Bg.snd m2
  some { g with Bg := ⟨s1, s2⟩, Cg := ⟨s1, s2⟩ }

/-- `-n` of a `long`. -/
def neg (n : ℤ) : Option ℤ := if n = longMin then none else some (-n)

/-- The matrix that `advance_state` computes for one of the recurrences. -/
def jumpMatrix (A InvA : Mat) (m e c : ℤ) : Option Mat := do
  let B ← (if e > 0 then matTwoPowModM A m e
    else if e < 0 then do matTwoPowModM InvA m (← neg e)
    else some .one)
  let C ← (if c ≥ 0 then matPowModM A m c else do matPowModM InvA m (← neg c))
  if e ≠ 0 then matMatModM B C m else some C

def advanceState (e c : ℤ) (g : RNG) : Option RNG := do
  let C1 ← jumpMatrix A1p0 InvA1 m1 e c
  let C2 ← jumpMatrix A2p0 InvA2 m2 e c
  let s1 ← matVecModM C1 g.Cg.fst m1
  let s2 ← matVecModM C2 g.Cg.snd m2
  some { g with Cg := ⟨s1, s2⟩ }

end RNG

open Option

namespace Rng

variable {a b c s v m : ℤ}

theorem tdiv_split (a : ℤ) (hb : 0 < b) :
    (0 ≤ a → 0 ≤ a.tdiv b * b ∧ 0 ≤ a - a.tdiv b * b ∧ a - a.tdiv b * b < b) ∧
      (a < 0 → a.tdiv b * b ≤ 0 ∧ a - a.tdiv b * b ≤ 0 ∧ -b < a - a.tdiv b * b) := by
  have hnonneg : ∀ a : ℤ, 0 ≤ a → 0 ≤ a.tdiv b * b ∧ 0 ≤ a - a.tdiv b * b ∧ a - a.tdiv b * b < b := by
    intro a ha
    rw [Int.tdiv_eq_ediv_of_nonneg ha]
    have hquot := mul_nonneg (Int.ediv_nonneg ha hb.le) hb.le
    have hmod := Int.emod_nonneg a hb.ne'
    have hlt := Int.emod_lt_of_pos a hb
    rw [Int.emod_def, mul_comm] at hmod hlt
    exact ⟨hquot, hmod, hlt⟩
  refine ⟨hnonneg a, fun ha => ?_⟩
  obtain ⟨h₁, h₂, h₃⟩ := hnonneg (-a) (by omega)
  rw [Int.neg_tdiv, Int.neg_mul] at h₁ h₂ h₃
  omega

theorem reduce_eq (hm : 0 < m) (p : ℤ) : RNG.reduce p m = p % m := by
  obtain ⟨hpos, hneg⟩ := tdiv_split p hm
  have hmod : ∀ r k : ℤ, 0 ≤ r → r < m → r = p - k * m → r = p % m := by
    intro r k h₀ hlt hr
    rw [← Int.emod_eq_of_lt h₀ hlt, hr, Int.sub_mul_emod_self_right]
  unfold RNG.reduce
  dsimp only
  split_ifs with h
  · rcases lt_or_ge p 0 with hp | hp
    · obtain ⟨-, -, hlt⟩ := hneg hp
      exact hmod _ (p.tdiv m - 1) (by omega) (by omega) (by ring)
    · exact absurd h (not_lt.2 (hpos hp).2.1)
  · refine hmod _ (p.tdiv m) (not_lt.1 h) ?_ rfl
    rcases lt_or_ge p 0 with hp | hp
    · have := hneg hp
      omega
    · exact (hpos hp).2.2

theorem exact_eq (h : |v| < two53) : exact v = some v := if_pos (abs_lt.1 h)

theorem exact_reduce (hv : |v| < two53) (hm : 0 < m) (hm' : m < 2 ^ 35) :
    (do
      let r ← exact (v - (← exact (v.tdiv m * m)))
      if r < 0 then exact (r + m) else some r) = some (v % m) := by
  obtain ⟨hpos, hneg⟩ := tdiv_split v hm
  have hred := reduce_eq hm v
  unfold RNG.reduce at hred
  dsimp only at hred
  generalize v.tdiv m * m = p at *
  rw [abs_lt] at hv
  have hp : exact p = some p := exact_eq (by
    rw [abs_lt]
    unfold two53 at *
    omega)
  have hr : exact (v - p) = some (v - p) := exact_eq (by
    rw [abs_lt]
    unfold two53 at *
    omega)
  rw [hp, bind_eq_bind, bind_some, hr, bind_some, ← hred]
  split_ifs with h
  · refine exact_eq ?_
    rw [abs_lt]
    unfold two53 at *
    omega
  · rfl

/-- An argument that `multModM` takes. -/
def Small (a : ℤ) : Prop := |a| < 2 ^ 35

instance : Decidable (Small a) := inferInstanceAs (Decidable (|a| < 2 ^ 35))

theorem abs_mul_le {A S : ℤ} (ha : |a| ≤ A) (hs : |s| ≤ S) : |a * s| ≤ A * S := by
  rw [abs_mul]
  exact mul_le_mul ha hs (abs_nonneg s) ((abs_nonneg a).trans ha)

/-- The split of `a`: every operation is exact, and the sum is congruent to the whole one. -/
theorem exact_split (ha : Small a) (hs : Small s) (hc : Small c) (hm : 0 < m) (hm' : m < 2 ^ 35) :
    ∃ w, (do
        let r ← exact (a - (← exact (a.tdiv two17 * two17)))
        let v ← exact (a.tdiv two17 * s)
        let v ← exact (v - (← exact (v.tdiv m * m)))
        let v ← exact ((← exact (v * two17)) + (← exact (r * s)))
        exact (v + c)) = some w ∧ |w| < two53 ∧ w % m = (a * s + c) % m := by
  have hcut := tdiv_split a (show 0 < two17 by decide)
  unfold Small at *
  rw [abs_lt] at ha hc
  have hs' : |s| ≤ 2 ^ 35 - 1 := Int.le_sub_one_of_lt hs
  generalize a.tdiv two17 = q at *
  have hq : |q| ≤ 2 ^ 18 - 1 := by
    rw [abs_le]
    unfold two17 at hcut
    omega
  have hr : |a - q * two17| ≤ 2 ^ 17 - 1 := by
    rw [abs_le]
    unfold two17 at *
    omega
  have hqs := abs_mul_le hq hs'
  have hrs := abs_mul_le hr hs'
  have hcut' := tdiv_split (q * s) hm
  obtain ⟨k, hk⟩ : ∃ k, (q * s).tdiv m = k := ⟨_, rfl⟩
  rw [hk] at hcut'
  have hv : ((q * s - k * m) * two17 + (a - q * two17) * s + c) % m = (a * s + c) % m := by
    have heq : (q * s - k * m) * two17 + (a - q * two17) * s + c = a * s + c - k * two17 * m := by
      ring
    rw [heq, Int.sub_mul_emod_self_right]
  obtain ⟨w, hw⟩ : ∃ w, (a - q * two17) * s = w := ⟨_, rfl⟩
  rw [hw] at hv hrs
  rw [abs_le] at hq hr hqs hrs
  have hlast : |(q * s - k * m) * two17 + w + c| < two53 := by
    rw [abs_lt]
    unfold two53 two17
    omega
  refine ⟨_, ?_, hlast, hv⟩
  have hcases : ∀ v, -two53 < v → v < two53 → exact v = some v := fun v h h' => if_pos ⟨h, h'⟩
  rw [hcases (q * two17) (by unfold two53 two17; omega) (by unfold two53 two17; omega)]
  simp only [bind_eq_bind, bind_some]
  rw [hcases (a - q * two17) (by unfold two53; omega) (by unfold two53; omega),
    hcases (q * s) (by unfold two53; omega) (by unfold two53; omega)]
  simp only [bind_some, hk, hw]
  rw [hcases (k * m) (by unfold two53; omega) (by unfold two53; omega), bind_some,
    hcases (q * s - k * m) (by unfold two53; omega) (by unfold two53; omega), bind_some,
    hcases ((q * s - k * m) * two17) (by unfold two53 two17; omega) (by unfold two53 two17; omega),
    bind_some, hcases w (by unfold two53; omega) (by unfold two53; omega), bind_some,
    hcases ((q * s - k * m) * two17 + w) (by unfold two53 two17; omega)
      (by unfold two53 two17; omega), bind_some]
  exact exact_eq hlast

theorem multModM_spec (ha : Small a) (hs : Small s) (hc : Small c) (hm : 0 < m) (hm' : m < 2 ^ 35) :
    multModM a s c m = some ((a * s + c) % m) := by
  unfold multModM
  dsimp only
  by_cases hsplit : a * s + c ≥ two53 ∨ a * s + c ≤ -two53
  · obtain ⟨w, hw, hlt, hmod⟩ := exact_split ha hs hc hm hm'
    rw [if_pos hsplit, hw]
    exact (exact_reduce hlt hm hm').trans (congrArg some hmod)
  · rw [if_neg hsplit]
    refine exact_reduce ?_ hm hm'
    rw [abs_lt]
    omega

def Vec.Small (v : Vec) : Prop := Rng.Small v.x ∧ Rng.Small v.y ∧ Rng.Small v.z

instance (v : Vec) : Decidable v.Small := inferInstanceAs (Decidable (_ ∧ _ ∧ _))

def Mat.Small (A : Mat) : Prop := A.x.Small ∧ A.y.Small ∧ A.z.Small

instance (A : Mat) : Decidable A.Small := inferInstanceAs (Decidable (_ ∧ _ ∧ _))

/-- The entries are residues. -/
def Vec.InRange (m : ℤ) (v : Vec) : Prop :=
  (0 ≤ v.x ∧ v.x < m) ∧ (0 ≤ v.y ∧ v.y < m) ∧ (0 ≤ v.z ∧ v.z < m)

def dotMod (r s : Vec) (m : ℤ) : ℤ := (r.x * s.x + r.y * s.y + r.z * s.z) % m

def mulVecMod (A : Mat) (s : Vec) (m : ℤ) : Vec := ⟨dotMod A.x s m, dotMod A.y s m, dotMod A.z s m⟩

def mulMod (A B : Mat) (m : ℤ) : Mat :=
  Mat.transpose ⟨mulVecMod A B.transpose.x m, mulVecMod A B.transpose.y m,
    mulVecMod A B.transpose.z m⟩

variable {r t : Vec} {A B : Mat}

theorem dotMod_nonneg (hm : 0 < m) (r s : Vec) : 0 ≤ dotMod r s m := Int.emod_nonneg _ hm.ne'

theorem dotMod_lt (hm : 0 < m) (r s : Vec) : dotMod r s m < m := Int.emod_lt_of_pos _ hm

theorem inRange_mulVecMod (hm : 0 < m) (A : Mat) (s : Vec) : (mulVecMod A s m).InRange m :=
  ⟨⟨dotMod_nonneg hm _ _, dotMod_lt hm _ _⟩, ⟨dotMod_nonneg hm _ _, dotMod_lt hm _ _⟩,
    dotMod_nonneg hm _ _, dotMod_lt hm _ _⟩

theorem small_emod (hm : 0 < m) (hm' : m < 2 ^ 35) (a : ℤ) : Small (a % m) := by
  have h₀ := Int.emod_nonneg a hm.ne'
  have hlt := Int.emod_lt_of_pos a hm
  unfold Small
  rw [abs_lt]
  omega

theorem Vec.InRange.small (h : r.InRange m) (hm' : m < 2 ^ 35) : r.Small := by
  obtain ⟨hx, hy, hz⟩ := h
  refine ⟨?_, ?_, ?_⟩
  all_goals
    unfold Rng.Small
    rw [abs_lt]
    omega

theorem Mat.Small.transpose (h : A.Small) : A.transpose.Small :=
  ⟨⟨h.1.1, h.2.1.1, h.2.2.1⟩, ⟨h.1.2.1, h.2.1.2.1, h.2.2.2.1⟩, ⟨h.1.2.2, h.2.1.2.2, h.2.2.2.2⟩⟩

theorem small_mulMod (hm : 0 < m) (hm' : m < 2 ^ 35) (A B : Mat) : (mulMod A B m).Small := by
  have hcol : ∀ s, (mulVecMod A s m).Small := fun s => (inRange_mulVecMod hm A s).small hm'
  exact Mat.Small.transpose ⟨hcol _, hcol _, hcol _⟩

theorem multRow_spec (hr : r.Small) (ht : t.Small) (hm : 0 < m) (hm' : m < 2 ^ 35) :
    multRow r t m = some (dotMod r t m) := by
  obtain ⟨hrx, hry, hrz⟩ := hr
  obtain ⟨htx, hty, htz⟩ := ht
  have hzero : Small 0 := by
    unfold Small
    decide
  unfold multRow
  rw [multModM_spec hrx htx hzero hm hm', bind_eq_bind, bind_some,
    multModM_spec hry hty (small_emod hm hm' _) hm hm', bind_some,
    multModM_spec hrz htz (small_emod hm hm' _) hm hm', Int.add_emod_emod, ← add_assoc,
    Int.add_emod_emod]
  unfold dotMod
  congr 2
  ring

theorem matVecModM_spec (hA : A.Small) (ht : t.Small) (hm : 0 < m) (hm' : m < 2 ^ 35) :
    matVecModM A t m = some (mulVecMod A t m) := by
  unfold matVecModM
  rw [multRow_spec hA.1 ht hm hm', multRow_spec hA.2.1 ht hm hm', multRow_spec hA.2.2 ht hm hm']
  rfl

theorem matMatModM_spec (hA : A.Small) (hB : B.Small) (hm : 0 < m) (hm' : m < 2 ^ 35) :
    matMatModM A B m = some (mulMod A B m) := by
  have hcols := hB.transpose
  unfold matMatModM
  rw [matVecModM_spec hA hcols.1 hm hm', matVecModM_spec hA hcols.2.1 hm hm',
    matVecModM_spec hA hcols.2.2 hm hm']
  rfl

def Vec.toVec (m : ℕ) (v : Vec) : Fin 3 → ZMod m := ![v.x, v.y, v.z]

def Mat.toMatrix (m : ℕ) (A : Mat) : Matrix (Fin 3) (Fin 3) (ZMod m) :=
  Matrix.of ![A.x.toVec m, A.y.toVec m, A.z.toVec m]

open Matrix in
theorem toVec_mulVecMod (m : ℕ) (A : Mat) (s : Vec) :
    (mulVecMod A s m).toVec m = A.toMatrix m *ᵥ s.toVec m := by
  funext i
  fin_cases i <;> simp [mulVecMod, dotMod, Vec.toVec, Mat.toMatrix, Matrix.mulVec, dotProduct,
    Fin.sum_univ_three]

theorem toMatrix_mulMod (m : ℕ) (A B : Mat) :
    (mulMod A B m).toMatrix m = A.toMatrix m * B.toMatrix m := by
  ext i j
  fin_cases i <;> fin_cases j <;> simp [mulMod, mulVecMod, dotMod, Vec.toVec, Mat.toMatrix,
    Mat.transpose, Matrix.mul_apply, Fin.sum_univ_three]

theorem toMatrix_one (m : ℕ) : Mat.one.toMatrix m = 1 := by
  ext i j
  fin_cases i <;> fin_cases j <;> simp [Mat.one, Mat.toMatrix, Vec.toVec]

theorem toVec_inj {m : ℕ} (hr : r.InRange m) (ht : t.InRange m) (h : r.toVec m = t.toVec m) :
    r = t := by
  have hentry : ∀ {a b : ℤ}, 0 ≤ a ∧ a < m → 0 ≤ b ∧ b < m → (a : ZMod m) = b → a = b := by
    intro a b ha hb hab
    rw [ZMod.intCast_eq_intCast_iff', Int.emod_eq_of_lt ha.1 ha.2,
      Int.emod_eq_of_lt hb.1 hb.2] at hab
    exact hab
  obtain ⟨rx, ry, rz⟩ := r
  obtain ⟨tx, ty, tz⟩ := t
  rw [Vec.mk.injEq]
  exact ⟨hentry hr.1 ht.1 (congrFun h 0), hentry hr.2.1 ht.2.1 (congrFun h 1),
    hentry hr.2.2 ht.2.2 (congrFun h 2)⟩

end Rng

end Ns2
