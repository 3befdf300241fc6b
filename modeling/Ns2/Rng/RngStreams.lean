import Ns2.Rng.Rng

/-! Jumping over steps of the two recurrences of `RNG`, forwards and backwards. The jumps of
`RNG`: to another state of a stream, to its next substream, and to the next stream. -/

namespace Ns2

open Option

namespace Rng

open scoped Matrix

/-- A recurrence of order three modulo `m`, by its matrix and the inverse of it. -/
structure Recurrence where
  m : ℕ
  A : Mat
  InvA : Mat
  pos : 0 < (m : ℤ)
  lt : (m : ℤ) < 2 ^ 35
  small : A.Small
  small_inv : InvA.Small
  mul_inv : mulMod A InvA m = .one
  inv_mul : mulMod InvA A m = .one
  shift : A.x = ⟨0, 1, 0⟩ ∧ A.y = ⟨0, 0, 1⟩

/-- The first recurrence of `U01`. -/
def recurrence1 : Recurrence where
  m := 4294967087
  A := A1p0
  InvA := InvA1
  pos := by decide
  lt := by decide
  small := by decide
  small_inv := by decide
  mul_inv := by decide
  inv_mul := by decide
  shift := ⟨rfl, rfl⟩

/-- The second recurrence of `U01`. -/
def recurrence2 : Recurrence where
  m := 4294944443
  A := A2p0
  InvA := InvA2
  pos := by decide
  lt := by decide
  small := by decide
  small_inv := by decide
  mul_inv := by decide
  inv_mul := by decide
  shift := ⟨rfl, rfl⟩

namespace Recurrence

variable {P : Recurrence} {B C W : Mat} {r t : Vec} {n k i e c : ℤ}

/-- The matrix as a unit of the matrices modulo `m`. -/
def unit (P : Recurrence) : (Matrix (Fin 3) (Fin 3) (ZMod P.m))ˣ where
  val := P.A.toMatrix P.m
  inv := P.InvA.toMatrix P.m
  val_inv := by rw [← toMatrix_mulMod, P.mul_inv, toMatrix_one]
  inv_val := by rw [← toMatrix_mulMod, P.inv_mul, toMatrix_one]

/-- The matrix of `n` steps. -/
def power (P : Recurrence) (n : ℤ) : Matrix (Fin 3) (Fin 3) (ZMod P.m) :=
  (P.unit ^ n : (Matrix (Fin 3) (Fin 3) (ZMod P.m))ˣ)

theorem power_zero : P.power 0 = 1 := by
  unfold power
  rw [zpow_zero, Units.val_one]

theorem power_one : P.power 1 = P.A.toMatrix P.m := by
  unfold power
  rw [zpow_one]
  rfl

theorem power_neg_one : P.power (-1) = P.InvA.toMatrix P.m := by
  unfold power
  rw [zpow_neg_one]
  rfl

theorem power_add (n k : ℤ) : P.power (n + k) = P.power n * P.power k := by
  unfold power
  rw [zpow_add, Units.val_mul]

/-- `B` jumps over `n` steps. -/
structure Jumps (P : Recurrence) (n : ℤ) (B : Mat) : Prop where
  small : B.Small
  matrix : B.toMatrix P.m = P.power n

theorem jumps_A : P.Jumps 1 P.A := ⟨P.small, power_one.symm⟩

theorem jumps_InvA : P.Jumps (-1) P.InvA := ⟨P.small_inv, power_neg_one.symm⟩

theorem jumps_one : P.Jumps 0 .one := ⟨by decide, (toMatrix_one P.m).trans power_zero.symm⟩

theorem Jumps.mul (h : P.Jumps n B) (h' : P.Jumps k C) :
    ∃ D, matMatModM B C P.m = some D ∧ P.Jumps (n + k) D := by
  refine ⟨_, matMatModM_spec h.small h'.small P.pos P.lt, small_mulMod P.pos P.lt B C, ?_⟩
  rw [toMatrix_mulMod, h.matrix, h'.matrix, power_add]

theorem Jumps.squareLoop (h : P.Jumps n B) (hi : i ≤ e) (he : e ≤ intMax) :
    ∃ D, squareLoop P.m e i B = some D ∧ P.Jumps (n * 2 ^ (e - i).toNat) D := by
  obtain ⟨d, hd⟩ : ∃ d : ℕ, (e - i).toNat = d := ⟨_, rfl⟩
  rw [hd]
  induction d generalizing i n B with
  | zero =>
    unfold Rng.squareLoop
    rw [if_neg (by omega), pow_zero, mul_one]
    exact ⟨B, rfl, h⟩
  | succ d ih =>
    obtain ⟨B', hB', h'⟩ := h.mul h
    obtain ⟨D, hD, hjumps⟩ := ih h' (by omega : i + 1 ≤ e) (by omega)
    refine ⟨D, ?_, ?_⟩
    · unfold Rng.squareLoop
      rw [if_pos (by omega), hB', bind_eq_bind, bind_some, if_pos (by omega)]
      exact hD
    · have hexp : n * 2 ^ (d + 1) = (n + n) * 2 ^ d := by ring
      rw [hexp]
      exact hjumps

theorem squareLoop_eq_none (m : ℤ) (B : Mat) (hi : i ≤ intMax) (he : intMax < e) :
    Rng.squareLoop m e i B = none := by
  obtain ⟨d, hd⟩ : ∃ d : ℕ, (intMax - i).toNat = d := ⟨_, rfl⟩
  induction d generalizing i B with
  | zero =>
    unfold Rng.squareLoop
    rw [if_pos (by omega)]
    cases matMatModM B B m with
    | none => rfl
    | some B' => exact if_neg (by omega)
  | succ d ih =>
    unfold Rng.squareLoop
    rw [if_pos (by omega)]
    cases matMatModM B B m with
    | none => rfl
    | some B' => exact (if_pos (by omega)).trans (ih B' (by omega) (by omega))

theorem Jumps.powLoop (hW : P.Jumps k W) (hB : P.Jumps n B) (hi : 0 ≤ i) :
    ∃ D, powLoop P.m i W B = some D ∧ P.Jumps (n + k * i) D := by
  obtain ⟨d, hd⟩ : ∃ d : ℕ, i.toNat = d := ⟨_, rfl⟩
  induction d using Nat.strong_induction_on generalizing i k n W B with
  | _ d ih =>
    unfold Rng.powLoop
    by_cases hzero : i > 0
    · obtain ⟨W', hW', hjumps⟩ := hW.mul hW
      rw [if_pos hzero, Int.tmod_eq_emod_of_nonneg hi, Int.tdiv_eq_ediv_of_nonneg hi]
      by_cases hodd : i % 2 ≠ 0
      · obtain ⟨B', hB', hjumps'⟩ := hW.mul hB
        obtain ⟨D, hD, hlast⟩ := ih (i / 2).toNat (by omega) hjumps hjumps' (by omega) rfl
        have hexp : k + n + (k + k) * (i / 2) = n + k * i := by
          have hi' : i = 2 * (i / 2) + 1 := by omega
          linear_combination (-k) * hi'
        rw [if_pos hodd, hB', bind_eq_bind, bind_some, hW', bind_some]
        exact ⟨D, hD, hexp ▸ hlast⟩
      · obtain ⟨D, hD, hlast⟩ := ih (i / 2).toNat (by omega) hjumps hB (by omega) rfl
        have hexp : n + (k + k) * (i / 2) = n + k * i := by
          have hi' : i = 2 * (i / 2) := by omega
          linear_combination (-k) * hi'
        rw [if_neg hodd, bind_eq_bind, bind_some, hW', bind_some]
        exact ⟨D, hD, hexp ▸ hlast⟩
    · obtain rfl : i = 0 := by omega
      rw [if_neg hzero, mul_zero, add_zero]
      exact ⟨B, rfl, hB⟩

/-- `k` squares of a matrix. -/
def squares (m : ℤ) (k : ℕ) (B : Mat) : Mat := (fun B => mulMod B B m)^[k] B

theorem Jumps.squares (h : P.Jumps n B) (k : ℕ) : P.Jumps (n * 2 ^ k) (squares P.m k B) := by
  induction k generalizing n B with
  | zero =>
    rw [pow_zero, mul_one]
    exact h
  | succ k ih =>
    have hsquare : P.Jumps (n + n) (mulMod B B P.m) := by
      obtain ⟨D, hD, hjumps⟩ := h.mul h
      rw [matMatModM_spec h.small h.small P.pos P.lt] at hD
      exact some_inj.1 hD ▸ hjumps
    have hexp : n * 2 ^ (k + 1) = (n + n) * 2 ^ k := by ring
    rw [hexp]
    exact ih hsquare

/-- The number of steps that `advance_state` is asked for. -/
def jump (e c : ℤ) : ℤ :=
  if e > 0 then 2 ^ e.toNat + c else if e < 0 then -2 ^ (-e).toNat + c else c

theorem exists_power (P : Recurrence) (hc : c ≠ longMin) : ∃ C,
    (if c ≥ 0 then matPowModM P.A P.m c
      else do matPowModM P.InvA P.m (← RNG.neg c)) = some C ∧ P.Jumps c C := by
  unfold matPowModM
  split_ifs with hpos
  · obtain ⟨C, hC, hjumps⟩ := P.jumps_A.powLoop P.jumps_one hpos
    rw [one_mul, zero_add] at hjumps
    exact ⟨C, hC, hjumps⟩
  · have hneg : RNG.neg c = some (-c) := if_neg hc
    obtain ⟨C, hC, hjumps⟩ := P.jumps_InvA.powLoop P.jumps_one (show 0 ≤ -c by omega)
    rw [neg_mul_neg, one_mul, zero_add] at hjumps
    rw [hneg]
    exact ⟨C, hC, hjumps⟩

theorem jumpMatrix_spec (P : Recurrence) (he : |e| ≤ intMax) (hc : c ≠ longMin) :
    ∃ C, RNG.jumpMatrix P.A P.InvA P.m e c = some C ∧ P.Jumps (jump e c) C := by
  obtain ⟨C, hC, hjumps⟩ := P.exists_power hc
  rw [abs_le] at he
  unfold RNG.jumpMatrix jump
  rcases lt_trichotomy e 0 with hneg | rfl | hpos
  · have hlong : RNG.neg e = some (-e) := if_neg (by unfold intMax longMin at *; omega)
    obtain ⟨B, hB, hleft⟩ := P.jumps_InvA.squareLoop (show 0 ≤ -e by omega) (by omega)
    obtain ⟨D, hD, hprod⟩ := hleft.mul hjumps
    rw [sub_zero, neg_one_mul] at hprod
    rw [if_neg (by omega), if_pos hneg, hlong]
    simp only [bind_eq_bind, bind_some]
    unfold matTwoPowModM
    rw [hB, bind_some]
    refine ⟨D, (congrArg (bind · _) hC).trans ((if_pos hneg.ne).trans hD), ?_⟩
    rw [if_neg (by omega), if_pos hneg]
    exact hprod
  · rw [hC]
    exact ⟨C, rfl, hjumps⟩
  · obtain ⟨B, hB, hleft⟩ := P.jumps_A.squareLoop hpos.le he.2
    obtain ⟨D, hD, hprod⟩ := hleft.mul hjumps
    rw [sub_zero, one_mul] at hprod
    unfold matTwoPowModM
    rw [if_pos hpos, hB, bind_eq_bind, bind_some, hC, bind_some,
      if_pos hpos.ne', if_pos hpos]
    exact ⟨D, hD, hprod⟩

theorem jumpMatrix_eq_none (P : Recurrence) (h : intMax < |e| ∨ c = longMin) :
    RNG.jumpMatrix P.A P.InvA P.m e c = none := by
  unfold RNG.jumpMatrix
  rcases h with he | rfl
  · have hloop : ∀ A : Mat, matTwoPowModM A P.m |e| = none := fun A =>
      squareLoop_eq_none _ A (by decide) he
    rcases lt_trichotomy e 0 with hneg | rfl | hpos
    · rw [if_neg (by omega), if_pos hneg]
      by_cases hlong : e = longMin
      · have hnone : RNG.neg e = none := if_pos hlong
        rw [hnone]
        rfl
      · have hsome : RNG.neg e = some |e| := (abs_of_neg hneg).symm ▸ if_neg hlong
        rw [hsome]
        exact congrArg (bind · _) (hloop P.InvA)
    · exact absurd he (by decide)
    · rw [if_pos hpos]
      rw [abs_of_pos hpos] at hloop
      rw [hloop]
      rfl
  · rw [if_neg (by decide : ¬longMin ≥ 0)]
    have hneg : RNG.neg longMin = none := if_pos rfl
    rw [hneg]
    cases (if e > 0 then matTwoPowModM P.A P.m e
      else if e < 0 then do matTwoPowModM P.InvA P.m (← RNG.neg e) else some .one) <;> rfl

/-- One step of the recurrence. -/
def step (P : Recurrence) (v : Vec) : Vec := ⟨v.y, v.z, dotMod P.A.z v P.m⟩

theorem inRange_step (h : r.InRange P.m) : (P.step r).InRange P.m :=
  ⟨h.2.1, h.2.2, dotMod_nonneg P.pos _ _, dotMod_lt P.pos _ _⟩

theorem step_eq_mulVecMod (h : r.InRange P.m) : P.step r = mulVecMod P.A r P.m := by
  obtain ⟨hx, hy⟩ := P.shift
  unfold step mulVecMod
  rw [hx, hy, Vec.mk.injEq]
  refine ⟨?_, ?_, rfl⟩
  · have heq : dotMod ⟨0, 1, 0⟩ r P.m = r.y % P.m := by
      unfold dotMod
      dsimp only
      ring_nf
    rw [heq, Int.emod_eq_of_lt h.2.1.1 h.2.1.2]
  · have heq : dotMod ⟨0, 0, 1⟩ r P.m = r.z % P.m := by
      unfold dotMod
      dsimp only
      ring_nf
    rw [heq, Int.emod_eq_of_lt h.2.2.1 h.2.2.2]

theorem inRange_iterate (h : r.InRange P.m) (k : ℕ) : (P.step^[k] r).InRange P.m := by
  induction k generalizing r with
  | zero => exact h
  | succ k ih => exact ih (inRange_step h)

theorem toVec_iterate (h : r.InRange P.m) (k : ℕ) : (P.step^[k] r).toVec P.m =
    P.power k *ᵥ r.toVec P.m := by
  induction k generalizing r with
  | zero =>
    rw [Nat.cast_zero, power_zero, Matrix.one_mulVec]
    rfl
  | succ k ih =>
    rw [Function.iterate_succ_apply, ih (inRange_step h), step_eq_mulVecMod h, toVec_mulVecMod,
      Matrix.mulVec_mulVec, Nat.cast_succ, power_add, power_one]

/-- The product with a matrix that jumps over `n` steps is what `n` steps lead to, or what leads by
`-n` steps to where it starts. -/
theorem Jumps.mulVec (h : P.Jumps n C) (hr : r.InRange P.m) :
    ∃ t, matVecModM C r P.m = some t ∧ t.InRange P.m ∧ (r ≠ ⟨0, 0, 0⟩ → t ≠ ⟨0, 0, 0⟩) ∧
      (0 ≤ n → P.step^[n.toNat] r = t) ∧ (n < 0 → P.step^[(-n).toNat] t = r) := by
  have ht := inRange_mulVecMod P.pos C r
  have hvec : (mulVecMod C r P.m).toVec P.m = _ := toVec_mulVecMod P.m C r
  rw [h.matrix] at hvec
  refine ⟨_, matVecModM_spec h.small (hr.small P.lt) P.pos P.lt, ht, mt fun hzero => ?_,
    fun hn => ?_, fun hn => ?_⟩
  · have hvec₀ : (⟨0, 0, 0⟩ : Vec).toVec P.m = 0 := by
      funext i
      fin_cases i <;> exact Int.cast_zero
    refine toVec_inj hr ⟨⟨le_rfl, P.pos⟩, ⟨le_rfl, P.pos⟩, le_rfl, P.pos⟩ ?_
    have hcancel := congrArg (P.power (-n) *ᵥ ·) hvec
    rw [hzero, hvec₀, Matrix.mulVec_zero, Matrix.mulVec_mulVec, ← power_add, neg_add_cancel, power_zero,
      Matrix.one_mulVec] at hcancel
    rw [hvec₀, ← hcancel]
  · refine toVec_inj (inRange_iterate hr _) ht ?_
    rw [toVec_iterate hr, hvec, Int.toNat_of_nonneg hn]
  · refine toVec_inj (inRange_iterate ht _) hr ?_
    rw [toVec_iterate ht, hvec, Matrix.mulVec_mulVec, Int.toNat_of_nonneg (by omega), ← power_add,
      neg_add_cancel, power_zero, Matrix.one_mulVec]

end Recurrence

end Rng

open Option

namespace Rng

/-- The state passes the check of the seeds. -/
structure State.Valid (s : State) : Prop where
  fst_nonneg : 0 ≤ s.fst.x ∧ 0 ≤ s.fst.y ∧ 0 ≤ s.fst.z
  snd_nonneg : 0 ≤ s.snd.x ∧ 0 ≤ s.snd.y ∧ 0 ≤ s.snd.z
  check : checkSeed s = 0

theorem State.valid_iff {s : State} : s.Valid ↔ (s.fst.InRange m1 ∧ s.fst ≠ ⟨0, 0, 0⟩) ∧
    s.snd.InRange m2 ∧ s.snd ≠ ⟨0, 0, 0⟩ := by
  constructor
  · rintro ⟨hfst, hsnd, hcheck⟩
    unfold checkSeed at hcheck
    split_ifs at hcheck with hbig₁ hbig₂ hzero₁ hzero₂
    exact ⟨⟨⟨⟨hfst.1, by omega⟩, ⟨hfst.2.1, by omega⟩, hfst.2.2, by omega⟩, hzero₁⟩,
      ⟨⟨hsnd.1, by omega⟩, ⟨hsnd.2.1, by omega⟩, hsnd.2.2, by omega⟩, hzero₂⟩
  · rintro ⟨⟨⟨hx, hy, hz⟩, hzero₁⟩, ⟨hx', hy', hz'⟩, hzero₂⟩
    refine ⟨⟨hx.1, hy.1, hz.1⟩, ⟨hx'.1, hy'.1, hz'.1⟩, ?_⟩
    unfold checkSeed
    rw [if_neg (by omega), if_neg (by omega), if_neg hzero₁, if_neg hzero₂]

theorem jumps_squares (P : Recurrence) (k : ℕ) {B : Mat} (h : Recurrence.squares P.m k P.A = B) :
    P.Jumps (2 ^ k) B := by
  have hjumps := (P.jumps_A).squares k
  rw [one_mul, h] at hjumps
  exact hjumps

theorem jumps_A1p76 : recurrence1.Jumps (2 ^ 76) A1p76 := jumps_squares _ _ (by decide +kernel)

theorem jumps_A2p76 : recurrence2.Jumps (2 ^ 76) A2p76 := jumps_squares _ _ (by decide +kernel)

theorem jumps_A1p127 : recurrence1.Jumps (2 ^ 127) A1p127 := jumps_squares _ _ (by decide +kernel)

theorem jumps_A2p127 : recurrence2.Jumps (2 ^ 127) A2p127 := jumps_squares _ _ (by decide +kernel)

end Rng

open Rng

namespace RNG

variable {g r : RNG} {s seed : State} {n e c : ℤ} {C D : Mat}

/-- The state after a number is drawn. -/
def step (g : RNG) : RNG := g.u01.2

theorem step_eq (g : RNG) :
    g.step = { g with Cg := ⟨recurrence1.step g.Cg.fst, recurrence2.step g.Cg.snd⟩ } := by
  have hred₁ := reduce_eq recurrence1.pos (a12 * g.Cg.fst.y - a13n * g.Cg.fst.x)
  have hred₂ := reduce_eq recurrence2.pos (a21 * g.Cg.snd.z - a23n * g.Cg.snd.x)
  have hdot₁ : dotMod recurrence1.A.z g.Cg.fst recurrence1.m =
      (a12 * g.Cg.fst.y - a13n * g.Cg.fst.x) % recurrence1.m := by
    unfold dotMod
    congr 1
    simp only [recurrence1, A1p0, a12, a13n]
    ring
  have hdot₂ : dotMod recurrence2.A.z g.Cg.snd recurrence2.m =
      (a21 * g.Cg.snd.z - a23n * g.Cg.snd.x) % recurrence2.m := by
    unfold dotMod
    congr 1
    simp only [recurrence2, A2p0, a21, a23n]
    ring
  unfold Recurrence.step
  rw [hdot₁, hdot₂, ← hred₁, ← hred₂]
  rfl

theorem iterate_step (g : RNG) (k : ℕ) : step^[k] g =
    { g with Cg := ⟨recurrence1.step^[k] g.Cg.fst, recurrence2.step^[k] g.Cg.snd⟩ } := by
  induction k generalizing g with
  | zero => rfl
  | succ k ih => rw [Function.iterate_succ_apply, ih, step_eq, Function.iterate_succ_apply,
      Function.iterate_succ_apply]

/-- `n` steps lead from `g` to `r`; for a negative `n`, `-n` steps lead back. -/
structure Steps (n : ℤ) (g r : RNG) : Prop where
  valid : r.Cg.Valid
  forwards : 0 ≤ n → step^[n.toNat] g = r
  backwards : n < 0 → step^[(-n).toNat] r = g

theorem exists_steps (g : RNG) (hs : s.Valid) (hC : recurrence1.Jumps n C)
    (hD : recurrence2.Jumps n D) :
    ∃ x y, matVecModM C s.fst m1 = some x ∧ matVecModM D s.snd m2 = some y ∧
      Steps n { g with Cg := s } { g with Cg := ⟨x, y⟩ } := by
  obtain ⟨⟨hfst, hzero₁⟩, hsnd, hzero₂⟩ := State.valid_iff.1 hs
  obtain ⟨x, hx, hxr, hx₀, hxf, hxb⟩ := hC.mulVec hfst
  obtain ⟨y, hy, hyr, hy₀, hyf, hyb⟩ := hD.mulVec hsnd
  refine ⟨x, y, hx, hy, State.valid_iff.2 ⟨⟨hxr, hx₀ hzero₁⟩, hyr, hy₀ hzero₂⟩, fun hn => ?_,
    fun hn => ?_⟩
  · rw [iterate_step, hxf hn, hyf hn]
  · rw [iterate_step, hxb hn, hyb hn]

theorem advanceState_spec (hg : g.Cg.Valid) (he : |e| ≤ intMax) (hc : c ≠ longMin) :
    ∃ r, g.advanceState e c = some r ∧ Steps (Recurrence.jump e c) g r := by
  obtain ⟨C, hC, hjumps₁⟩ := recurrence1.jumpMatrix_spec he hc
  obtain ⟨D, hD, hjumps₂⟩ := recurrence2.jumpMatrix_spec he hc
  obtain ⟨x, y, hx, hy, hsteps⟩ := exists_steps g hg hjumps₁ hjumps₂
  have hC' : jumpMatrix A1p0 InvA1 m1 e c = some C := hC
  have hD' : jumpMatrix A2p0 InvA2 m2 e c = some D := hD
  refine ⟨_, ?_, hsteps⟩
  unfold advanceState
  rw [hC', hD', bind_eq_bind, bind_some, bind_some, hx, hy]
  rfl

theorem advanceState_eq_none (g : RNG) (h : intMax < |e| ∨ c = longMin) :
    g.advanceState e c = none := by
  have hnone : jumpMatrix A1p0 InvA1 m1 e c = none := recurrence1.jumpMatrix_eq_none h
  unfold advanceState
  rw [hnone]
  rfl

theorem resetNextSubstream_spec (hg : g.Bg.Valid) :
    ∃ t, g.resetNextSubstream = some { g with Bg := t, Cg := t } ∧
      Steps (2 ^ 76) { g with Cg := g.Bg } { g with Cg := t } := by
  obtain ⟨x, y, hx, hy, hsteps⟩ := exists_steps g hg jumps_A1p76 jumps_A2p76
  refine ⟨⟨x, y⟩, ?_, hsteps⟩
  unfold resetNextSubstream
  rw [hx, hy]
  rfl

theorem init_spec (hs : seed.Valid) :
    ∃ g next, init seed = some (g, next) ∧ g.Cg = seed ∧ g.Bg = seed ∧ g.Ig = seed ∧
      Steps (2 ^ 127) g { g with Cg := next } := by
  obtain ⟨x, y, hx, hy, hsteps⟩ :=
    exists_steps ⟨seed, seed, seed, false, false⟩ hs jumps_A1p127 jumps_A2p127
  refine ⟨⟨seed, seed, seed, false, false⟩, ⟨x, y⟩, ?_, rfl, rfl, rfl, hsteps⟩
  unfold init
  rw [hx, hy]
  rfl

/-- A jump is exact unless the counter of a loop or the sign of a `long` overflows. The jumps to
substreams and streams and the products modulo `m` always are. -/
theorem advanceState_steps_iff (hg : g.Cg.Valid) (hB : g.Bg.Valid) (hs : seed.Valid) :
    ((∃ r, g.advanceState e c = some r ∧ Steps (Recurrence.jump e c) g r) ↔
        |e| ≤ intMax ∧ c ≠ longMin) ∧
      (∃ t, g.resetNextSubstream = some { g with Bg := t, Cg := t } ∧
        Steps (2 ^ 76) { g with Cg := g.Bg } { g with Cg := t }) ∧
      (∃ g' next, init seed = some (g', next) ∧ g'.Cg = seed ∧ g'.Bg = seed ∧ g'.Ig = seed ∧
        Steps (2 ^ 127) g' { g' with Cg := next }) ∧
      ∀ a s k m, Rng.Small a → Rng.Small s → Rng.Small k → 0 < m → m < 2 ^ 35 →
        multModM a s k m = some ((a * s + k) % m) ∧ 0 ≤ (a * s + k) % m ∧
          (a * s + k) % m < m := by
  refine ⟨⟨fun h => ?_, fun h => advanceState_spec hg h.1 h.2⟩, resetNextSubstream_spec hB,
    init_spec hs, fun a s k m ha hs hk hm hm' => ⟨multModM_spec ha hs hk hm hm',
      Int.emod_nonneg _ hm.ne', Int.emod_lt_of_pos _ hm⟩⟩
  obtain ⟨r, hr, -⟩ := h
  by_contra hnot
  have hbad : intMax < |e| ∨ c = longMin := by
    by_contra hgood
    rw [not_or, not_lt] at hgood
    exact hnot hgood
  exact some_ne_none r (hr.symm.trans (advanceState_eq_none g hbad))

/-- The first stream of the package. -/
def first : RNG := ⟨nextSeed, nextSeed, nextSeed, false, false⟩

theorem valid_nextSeed : nextSeed.Valid := ⟨by decide, by decide, by decide⟩

theorem advanceState_steps_first :
    ∃ r, first.advanceState (-10) 3 = some r ∧ Steps (-1021) first r :=
  (advanceState_steps_iff valid_nextSeed valid_nextSeed valid_nextSeed).1.2
    ⟨by decide, by decide⟩

/-- The largest exponents and the smallest second argument have no result. -/
theorem advanceState_fails : ¬ (∃ r, first.advanceState (2 ^ 31) 0 = some r ∧
      Steps (Recurrence.jump (2 ^ 31) 0) first r) ∧
    ¬ ∃ r, first.advanceState 0 longMin = some r ∧ Steps (Recurrence.jump 0 longMin) first r := by
  refine ⟨fun ⟨r, hr, _⟩ => ?_, fun ⟨r, hr, _⟩ => ?_⟩
  · exact some_ne_none r (hr.symm.trans (advanceState_eq_none first (.inl (by decide))))
  · exact some_ne_none r (hr.symm.trans (advanceState_eq_none first (.inr rfl)))

end RNG

end Ns2
