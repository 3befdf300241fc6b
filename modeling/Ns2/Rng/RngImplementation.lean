import Mathlib.Data.Nat.ModEq
import Mathlib.Tactic.Ring

/-! `RNGImplementation`, the generator of `OLD_RNG`: multiplication modulo `2 ^ 31 - 1` by parts. A
`long` has `w` bits and wraps around. -/

namespace Ns2

namespace RNGImplementation

variable {w : ℕ}

def A : ℕ := 16807

def M : ℕ := 2147483647

/-- The seed after a call of `next`, which is also what the call returns. -/
def next (seed : BitVec w) : BitVec w :=
  let L := BitVec.ofNat w A * (seed &&& 0xffff#w)
  let H := BitVec.ofNat w A * seed.sshiftRight 16
  let seed := ((H &&& 0x7fff#w) <<< 16) + L
  let seed := seed - 0x7fffffff#w
  let seed := seed + H.sshiftRight 15
  if seed.sle 0#w then seed + 0x7fffffff#w else seed

/-- The product from its two parts: what is above bit 31 counts as units, since
`2 ^ 31 = M + 1`. -/
theorem parts_modEq (s : ℕ) : (A * (s / 65536) % 32768 * 65536 + A * (s % 65536) +
    A * (s / 65536) / 32768) % M = A * s % M := by
  have hparts : A * s = (A * (s / 65536) % 32768 * 65536 + A * (s % 65536) +
      A * (s / 65536) / 32768) + M * (A * (s / 65536) / 32768) := by
    unfold A M
    omega
  rw [hparts, Nat.add_mul_mod_self_left]

theorem mul_mod_pos {s : ℕ} (hpos : 0 < s) (hlt : s < M) : 0 < A * s % M := by
  refine Nat.pos_of_ne_zero fun hzero => ?_
  have hdvd : M ∣ s := Nat.Coprime.dvd_of_dvd_mul_left (by decide) (Nat.dvd_of_mod_eq_zero hzero)
  exact absurd (Nat.le_of_dvd hpos hdvd) (Nat.not_le.2 hlt)

theorem toNat_and_mask {k : ℕ} (hk : k < w) (x : BitVec w) :
    (x &&& BitVec.ofNat w (2 ^ k - 1)).toNat = x.toNat % 2 ^ k := by
  have hlt : 2 ^ k - 1 < 2 ^ w :=
    Nat.lt_of_le_of_lt (Nat.sub_le _ _) (Nat.pow_lt_pow_right (by decide) hk)
  rw [BitVec.toNat_and, BitVec.toNat_ofNat, Nat.mod_eq_of_lt hlt, Nat.and_two_pow_sub_one_eq_mod]

theorem toNat_sshiftRight_of_lt {x : BitVec w} {n : ℕ} (hx : 2 * x.toNat < 2 ^ w) :
    (x.sshiftRight n).toNat = x.toNat / 2 ^ n := by
  rw [BitVec.toNat_sshiftRight_of_msb_false (BitVec.msb_eq_false_iff_two_mul_lt.2 hx),
    Nat.shiftRight_eq_div_pow]

theorem toNat_A_mul (hw : 32 ≤ w) {x : BitVec w} (hx : x.toNat < 65536) :
    (BitVec.ofNat w A * x).toNat = A * x.toNat := by
  have hpow : 2 ^ 32 ≤ 2 ^ w := Nat.pow_le_pow_right (by decide) hw
  have hA : A < 2 ^ w := Nat.lt_of_lt_of_le (by decide) hpow
  rw [BitVec.toNat_mul, BitVec.toNat_ofNat, Nat.mod_eq_of_lt hA, Nat.mod_eq_of_lt]
  unfold A at *
  omega

theorem toInt_sum (hw : 32 ≤ w) {a b c : BitVec w} (hlt : a.toNat + b.toNat + c.toNat < 2 * M) :
    (a + b - BitVec.ofNat w M + c).toInt = (a.toNat + b.toNat + c.toNat : ℕ) - M := by
  have hpow : 2 ^ 32 ≤ 2 ^ w := Nat.pow_le_pow_right (by decide) hw
  have hcast : a + b - BitVec.ofNat w M + c =
      BitVec.ofInt w ((a.toNat + b.toNat + c.toNat : ℕ) - M) := by
    have hsplit : ((a.toNat + b.toNat + c.toNat : ℕ) - M : ℤ) =
        (a.toNat : ℤ) + (b.toNat : ℤ) + (-(M : ℤ)) + (c.toNat : ℤ) := by
      push_cast
      ring
    rw [hsplit, BitVec.ofInt_add, BitVec.ofInt_add, BitVec.ofInt_add, BitVec.ofInt_neg,
      BitVec.ofInt_natCast, BitVec.ofInt_natCast, BitVec.ofInt_natCast, BitVec.ofInt_natCast,
      BitVec.ofNat_toNat, BitVec.ofNat_toNat, BitVec.ofNat_toNat, BitVec.setWidth_eq,
      BitVec.setWidth_eq, BitVec.setWidth_eq, ← BitVec.sub_eq_add_neg]
  rw [hcast, BitVec.toInt_ofInt]
  generalize 2 ^ w = W at hpow
  refine Int.bmod_eq_of_le ?_ ?_ <;> unfold M at * <;> omega

theorem toInt_next (hw : 32 ≤ w) {seed : BitVec w} (hpos : 0 < seed.toNat)
    (hlt : seed.toNat < M) : (next seed).toInt = (A * seed.toNat % M : ℕ) := by
  have hpow : 2 ^ 32 ≤ 2 ^ w := Nat.pow_le_pow_right (by decide) hw
  have hmod := parts_modEq seed.toNat
  have hmod₀ := mul_mod_pos hpos hlt
  have hshift : (seed.sshiftRight 16).toNat = seed.toNat / 65536 :=
    toNat_sshiftRight_of_lt (by unfold M at hlt; omega)
  have hL : (BitVec.ofNat w A * (seed &&& 0xffff#w)).toNat = A * (seed.toNat % 65536) := by
    have hlow : (seed &&& 0xffff#w).toNat = seed.toNat % 65536 := toNat_and_mask (k := 16) (by omega) seed
    rw [toNat_A_mul hw (by omega), hlow]
  have hH : (BitVec.ofNat w A * seed.sshiftRight 16).toNat = A * (seed.toNat / 65536) := by
    rw [toNat_A_mul hw (by unfold M at hlt; omega), hshift]
  unfold next
  dsimp only
  generalize BitVec.ofNat w A * (seed &&& 0xffff#w) = L at hL
  generalize BitVec.ofNat w A * seed.sshiftRight 16 = H at hH
  have hmid : ((H &&& 0x7fff#w) <<< 16).toNat = A * (seed.toNat / 65536) % 32768 * 65536 := by
    have hlow : (H &&& 0x7fff#w).toNat = H.toNat % 32768 := toNat_and_mask (k := 15) (by omega) H
    rw [BitVec.toNat_shiftLeft, hlow, hH, Nat.shiftLeft_eq, Nat.mod_eq_of_lt]
    omega
  have htop : (H.sshiftRight 15).toNat = A * (seed.toNat / 65536) / 32768 := by
    have hsmall : 2 * H.toNat < 2 ^ w := by
      rw [hH]
      unfold A M at *
      omega
    have hshift := toNat_sshiftRight_of_lt (n := 15) hsmall
    rwa [hH] at hshift
  have hsum : ((H &&& 0x7fff#w) <<< 16).toNat + L.toNat + (H.sshiftRight 15).toNat < 2 * M := by
    rw [hmid, hL, htop]
    unfold A M at *
    omega
  have hint := toInt_sum hw hsum
  rw [hmid, hL, htop] at hint hsum
  generalize A * (seed.toNat / 65536) % 32768 * 65536 + A * (seed.toNat % 65536) +
    A * (seed.toNat / 65536) / 32768 = T at *
  have hM : (BitVec.ofNat w M).toInt = M := by
    rw [BitVec.toInt_ofNat']
    generalize 2 ^ w = W at hpow
    refine Int.bmod_eq_of_le ?_ ?_ <;> unfold M <;> omega
  change (if BitVec.sle (((H &&& 0x7fff#w) <<< 16) + L - BitVec.ofNat w M + H.sshiftRight 15) 0#w then
    ((H &&& 0x7fff#w) <<< 16) + L - BitVec.ofNat w M + H.sshiftRight 15 + BitVec.ofNat w M
    else ((H &&& 0x7fff#w) <<< 16) + L - BitVec.ofNat w M + H.sshiftRight 15).toInt = _
  generalize ((H &&& 0x7fff#w) <<< 16) + L - BitVec.ofNat w M + H.sshiftRight 15 = x at hint
  by_cases hT : T ≤ M
  · have hle : x.sle 0#w = true := by
      rw [BitVec.sle_eq_decide, hint, BitVec.toInt_zero]
      exact decide_eq_true (by omega)
    have hne : T ≠ M := by
      rintro rfl
      rw [Nat.mod_self] at hmod
      omega
    rw [if_pos hle, BitVec.toInt_add, hint, hM, ← hmod, Nat.mod_eq_of_lt (by omega)]
    generalize 2 ^ w = W at hpow
    rw [sub_add_cancel]
    refine Int.bmod_eq_of_le ?_ ?_ <;> unfold M at hT <;> omega
  · have hgt : x.sle 0#w = false := by
      rw [BitVec.sle_eq_decide, hint, BitVec.toInt_zero]
      exact decide_eq_false (by omega)
    have hsub : T % M = T - M := by
      rw [Nat.mod_eq_sub_mod (by omega), Nat.mod_eq_of_lt (by omega)]
    rw [hgt, if_neg Bool.false_ne_true, hint, ← hmod, hsub]
    omega

/-- For every seed and number of calls: the seed is multiplied as many times modulo `M`, and stays
between 1 and `M - 1`. -/
theorem toInt_iterate_next (hw : w = 32 ∨ w = 64) {seed : BitVec w} (hpos : 1 ≤ seed.toInt)
    (hlt : seed.toInt ≤ M - 1) (n : ℕ) :
    (next^[n] seed).toInt = A ^ n * seed.toInt % M ∧ 1 ≤ (next^[n] seed).toInt ∧
      (next^[n] seed).toInt ≤ M - 1 := by
  have hw : 32 ≤ w := by omega
  induction n with
  | zero =>
    rw [pow_zero, one_mul, Int.emod_eq_of_lt (by omega) (by omega)]
    exact ⟨rfl, hpos, hlt⟩
  | succ n ih =>
    obtain ⟨hint, hpos', hlt'⟩ := ih
    rw [Function.iterate_succ_apply']
    generalize next^[n] seed = x at *
    have hnat : x.toInt = x.toNat := by
      rw [BitVec.toInt_eq_toNat_cond] at hpos' ⊢
      have hx := x.isLt
      split_ifs at * with hmsb
      · rfl
      · omega
    rw [hnat] at hpos' hlt' hint
    have hnext : (next x).toInt = (A * x.toNat % M : ℕ) := toInt_next hw (by omega) (by omega)
    have hpos₁ := mul_mod_pos (s := x.toNat) (by omega) (by omega)
    have hlt₁ : A * x.toNat % M < M := Nat.mod_lt _ (by decide)
    refine ⟨?_, by omega, by omega⟩
    rw [hnext, Int.natCast_mod, Nat.cast_mul, hint, Int.mul_emod, Int.emod_emod_of_dvd _ (dvd_refl _),
      ← Int.mul_emod, pow_succ]
    congr 1
    ring

theorem toInt_iterate_next_one : ((next (w := 32))^[3] 1#32).toInt = A ^ 3 * (1#32).toInt % M ∧
    1 ≤ ((next (w := 32))^[3] 1#32).toInt ∧ ((next (w := 32))^[3] 1#32).toInt ≤ M - 1 :=
  toInt_iterate_next (Or.inl rfl) (by decide) (by decide) 3

/-- The start of the sequence in the comment at `next`. -/
example : (List.range 4).map (fun n => ((next (w := 32))^[n] 1#32).toInt) =
    [1, 16807, 282475249, 1622650073] := by decide

end RNGImplementation

end Ns2
