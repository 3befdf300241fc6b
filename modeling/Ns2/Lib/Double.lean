import Mathlib.Data.Int.Log
import Mathlib.Data.Rat.Floor
import Mathlib.Tactic.FieldSimp
import Mathlib.Tactic.Linarith
import Mathlib.Tactic.Positivity

/-! Finite numbers in the `double` format: at most 53 significant bits, the last one not below
2^-1074. Sums are rounded to the nearest number, to the even one of two. There is no largest exponent. -/

namespace Ns2

/-- A number of at most 53 bits. -/
def Representable (x : ℚ) : Prop := ∃ m e : ℤ, |m| ≤ 2 ^ 53 ∧ -1074 ≤ e ∧ x = m * 2 ^ e

@[ext] structure Double where
  val : ℚ
  representable : Representable val

/-- The exponent of the last bit. -/
def lastBit (x : ℚ) : ℤ := max (Int.log 2 |x| - 52) (-1074)

/-- The nearest whole number, the even one of two. -/
def roundEven (x : ℚ) : ℤ :=
  if x - ⌊x⌋ < 1 / 2 ∨ x - ⌊x⌋ = 1 / 2 ∧ ⌊x⌋ % 2 = 0 then ⌊x⌋ else ⌊x⌋ + 1

def roundDouble (x : ℚ) : ℚ := roundEven (x / 2 ^ lastBit x) * 2 ^ lastBit x

variable {x y : ℚ} {m : ℤ}

theorem two_zpow_pos (e : ℤ) : (0 : ℚ) < 2 ^ e := zpow_pos (by norm_num) e

theorem roundEven_intCast (m : ℤ) : roundEven m = m := by
  rw [roundEven, Int.floor_intCast, sub_self, if_pos (Or.inl (by norm_num))]

theorem abs_roundEven_le (h : |x| < m) : |roundEven x| ≤ m := by
  obtain ⟨hlow, hhigh⟩ := abs_lt.1 h
  have hfloor : ⌊x⌋ < m := Int.floor_lt.2 hhigh
  have hceil : -m ≤ ⌊x⌋ := Int.le_floor.2 (by push_cast; exact hlow.le)
  rw [roundEven, abs_le]
  split_ifs <;> omega

theorem abs_lt_lastBit (x : ℚ) : |x| < 2 ^ (lastBit x + 53) := by
  have hlog : |x| < 2 ^ (Int.log 2 |x| + 1) := by
    exact_mod_cast Int.lt_zpow_succ_log_self (b := 2) (by norm_num) |x|
  refine hlog.trans_le (zpow_le_zpow_right₀ (by norm_num) ?_)
  have := le_max_left (Int.log 2 |x| - 52) (-1074)
  rw [lastBit]
  omega

theorem representable_roundDouble (x : ℚ) : Representable (roundDouble x) := by
  refine ⟨_, _, abs_roundEven_le (m := 2 ^ 53) ?_, le_max_right _ _, rfl⟩
  have hpos := two_zpow_pos (lastBit x)
  rw [abs_div, abs_of_pos hpos, div_lt_iff₀ hpos]
  have hlt := abs_lt_lastBit x
  rw [zpow_add₀ (by norm_num)] at hlt
  push_cast
  calc |x| < 2 ^ lastBit x * 2 ^ (53 : ℤ) := hlt
    _ = 2 ^ 53 * 2 ^ lastBit x := by rw [mul_comm]; norm_num

/-- A representable number is a whole number of its last bits. -/
theorem exists_eq_lastBit (h : Representable x) : ∃ m : ℤ, x = m * 2 ^ lastBit x := by
  obtain ⟨m, e, hm, he, rfl⟩ := h
  by_cases hzero : m = 0
  · exact ⟨0, by simp [hzero]⟩
  have habs : |(m : ℚ) * 2 ^ e| = |(m : ℚ)| * 2 ^ e := by
    rw [abs_mul, abs_of_pos (two_zpow_pos e)]
  have hpos : 0 < |(m : ℚ) * 2 ^ e| := by
    rw [habs]
    exact mul_pos (abs_pos.2 (by exact_mod_cast hzero)) (two_zpow_pos e)
  by_cases hle : lastBit (m * 2 ^ e) ≤ e
  · refine ⟨m * 2 ^ (e - lastBit (m * 2 ^ e)).toNat, ?_⟩
    push_cast
    rw [mul_assoc, ← zpow_natCast, ← zpow_add₀ (by norm_num), Int.toNat_of_nonneg (by omega)]
    congr 2
    omega
  · -- the number is the power of two that 53 bits just do not hold
    have hlog : e + 53 ≤ Int.log 2 |(m : ℚ) * 2 ^ e| := by
      rw [lastBit] at hle
      omega
    have hge : (2 : ℚ) ^ (e + 53) ≤ |(m : ℚ)| * 2 ^ e := by
      rw [← habs]
      refine (zpow_le_zpow_right₀ (by norm_num) hlog).trans ?_
      exact_mod_cast Int.zpow_log_le_self (b := 2) (by norm_num) hpos
    rw [zpow_add₀ (by norm_num), mul_comm, mul_le_mul_iff_left₀ (two_zpow_pos e)] at hge
    have hmax : |m| = 2 ^ 53 := by
      refine le_antisymm hm ?_
      exact_mod_cast hge
    have hexact : |(m : ℚ) * 2 ^ e| = 2 ^ (e + 53) := by
      rw [habs, zpow_add₀ (by norm_num), mul_comm]
      congr 1
      exact_mod_cast hmax
    have hlast : lastBit (m * 2 ^ e) = e + 1 := by
      have hlog' : Int.log 2 ((2 : ℚ) ^ (e + 53)) = e + 53 := by
        exact_mod_cast Int.log_zpow (R := ℚ) (b := 2) (by norm_num) (e + 53)
      rw [lastBit, hexact, hlog']
      omega
    obtain ⟨j, hj⟩ : (2 : ℤ) ∣ m := by
      rw [← dvd_abs, hmax]
      norm_num
    refine ⟨j, ?_⟩
    rw [hlast, hj, zpow_add₀ (by norm_num)]
    push_cast
    ring

/-- A representable number is not rounded. -/
theorem roundDouble_eq_self (h : Representable x) : roundDouble x = x := by
  obtain ⟨m, hm⟩ := exists_eq_lastBit h
  have hpos := two_zpow_pos (lastBit x)
  have hdiv : x / 2 ^ lastBit x = m := by
    rw [div_eq_iff hpos.ne']
    exact hm
  rw [roundDouble, hdiv, roundEven_intCast]
  exact hm.symm

theorem representable_natCast {n : ℕ} (h : n ≤ 2 ^ 53) : Representable n := by
  refine ⟨n, 0, ?_, by norm_num, by simp⟩
  rw [abs_of_nonneg (by positivity)]
  exact_mod_cast h

/-- A sum that is not below a small whole number is not rounded below it. -/
theorem natCast_le_roundDouble {n : ℕ} (h : n ≤ x) (hx : x < 2 ^ 53) : n ≤ roundDouble x := by
  have hnonneg : 0 ≤ x := (Nat.cast_nonneg n).trans h
  have hlast : lastBit x ≤ 0 := by
    rw [lastBit, abs_of_nonneg hnonneg]
    refine max_le ?_ (by norm_num)
    rcases hnonneg.eq_or_lt with rfl | hpos
    · norm_num
    · have hlog : Int.log 2 x < 53 :=
        (Int.lt_zpow_iff_log_lt (by norm_num) hpos).1 (by exact_mod_cast hx)
      omega
  have hpos := two_zpow_pos (lastBit x)
  have hdiv : (n : ℚ) / 2 ^ lastBit x = ((n * 2 ^ (-lastBit x).toNat : ℤ) : ℚ) := by
    push_cast
    rw [← zpow_natCast, Int.toNat_of_nonneg (by omega), zpow_neg, div_eq_mul_inv]
  have hfloor : (n * 2 ^ (-lastBit x).toNat : ℤ) ≤ ⌊x / 2 ^ lastBit x⌋ := by
    rw [Int.le_floor, ← hdiv]
    exact (div_le_div_iff_of_pos_right hpos).2 h
  have hround : ⌊x / 2 ^ lastBit x⌋ ≤ roundEven (x / 2 ^ lastBit x) := by
    rw [roundEven]
    split_ifs <;> omega
  rw [roundDouble, ← div_le_iff₀ hpos, hdiv]
  exact_mod_cast hfloor.trans hround

namespace Double

instance : LinearOrder Double := LinearOrder.lift' val fun _ _ h => Double.ext h

instance : Zero Double := ⟨⟨0, by exact_mod_cast representable_natCast (Nat.zero_le _)⟩⟩

instance : Add Double := ⟨fun a b => ⟨roundDouble (a.val + b.val), representable_roundDouble _⟩⟩

instance : NatCast Double := ⟨fun n => ⟨roundDouble n, representable_roundDouble _⟩⟩

theorem val_strictMono : StrictMono val := fun _ _ h => h

theorem val_zero : (0 : Double).val = 0 := rfl

/-- A sum that is representable is exact. -/
theorem val_add {a b : Double} (h : Representable (a.val + b.val)) : (a + b).val = a.val + b.val :=
  roundDouble_eq_self h

theorem val_natCast {n : ℕ} (h : n ≤ 2 ^ 53) : (n : Double).val = n :=
  roundDouble_eq_self (representable_natCast h)

theorem natCast_pos {n : ℕ} (hn : 0 < n) (h : n ≤ 2 ^ 53) : (0 : Double) < n := by
  rw [← val_strictMono.lt_iff_lt, val_natCast h, val_zero]
  exact_mod_cast hn

end Double

end Ns2
