import Mathlib.Algebra.Order.Group.Nat
import Mathlib.Tactic.Common

/-! The bitmap of `routealgo`: entries of some bits, in words that are used up to `BITS_ULONG`. A
word is a `u_long` of `w` bits. A failed assertion and a word out of the map give no result. -/

namespace Ns2.RouteAlgo

open Nat

def bitsUlong : ℕ := 32

/-- If there is one word, it is kept in place of the pointer to the words. -/
structure BitMap (w : ℕ) where
  size : ℕ
  bpe : ℕ
  epw : ℕ
  words : List (BitVec w)

namespace BitMap

variable {w : ℕ}
variable {m bpe i value : ℕ} {v : ℕ → ℕ}

def new (w size bitsPerEntry : ℕ) : BitMap w :=
  let epw := bitsUlong / bitsPerEntry
  ⟨size, bitsPerEntry, epw, List.replicate ((size + epw - 1) / epw) 0⟩

/-- The loop of `FindBPE`, from the bit below. -/
def findBPEFrom (m : ℕ) : ℕ → ℕ
  | 0 => 0
  | bpe + 1 => if m.testBit bpe then bpe + 1 else findBPEFrom m bpe

/-- How many bits an entry needs. -/
def findBPE (m : ℕ) : ℕ := findBPEFrom m 32

def validate (b : BitMap w) (which : ℕ) : Option Unit := if which < b.size then some () else none

def getWord (b : BitMap w) (which : ℕ) : Option (BitVec w) := do
  b.validate which
  b.words[which / b.epw]?

def getShiftCount (b : BitMap w) (which : ℕ) : Option ℕ := do
  b.validate which
  let ind := which / b.epw
  let left := which - ind * b.epw
  some (left * b.bpe)

/-- `m` is a `long`, which is shifted with its sign. -/
def getBitMask (b : BitMap w) (which : ℕ) : Option (BitVec w) := do
  let m := (0x80000000#w).sshiftRight (b.bpe - 1)
  let c ← b.getShiftCount which
  some (m >>> (32 - (c + b.bpe)))

def set (which value : ℕ) (b : BitMap w) : Option (BitMap w) := do
  let word ← b.getWord which
  let mask ← b.getBitMask which
  let shift ← b.getShiftCount which
  let word := word &&& ~~~mask ||| BitVec.ofNat w value <<< shift
  some { b with words := b.words.set (which / b.epw) word }

def get (b : BitMap w) (which : ℕ) : Option ℕ := do
  let word ← b.getWord which
  let mask ← b.getBitMask which
  let shift ← b.getShiftCount which
  some ((word &&& mask) >>> shift).toNat

theorem lt_findBPEFrom {n : ℕ} (h : m < 2 ^ n) : m < 2 ^ findBPEFrom m n := by
  induction n with
  | zero => exact h
  | succ n ih =>
    rw [findBPEFrom]
    split_ifs with hbit
    · exact h
    · refine ih (lt_pow_two_of_testBit m fun i hi => ?_)
      rcases eq_or_lt_of_le hi with rfl | hlt
      · simpa using hbit
      · exact Nat.testBit_lt_two_pow (h.trans_le (Nat.pow_le_pow_right Nat.two_pos hlt))

theorem findBPEFrom_le (m n : ℕ) : findBPEFrom m n ≤ n := by
  induction n with
  | zero => exact le_rfl
  | succ n ih =>
    rw [findBPEFrom]
    split_ifs
    · exact le_rfl
    · exact ih.trans (le_succ n)

theorem lt_findBPE (h : m < 2 ^ 32) : m < 2 ^ findBPE m := lt_findBPEFrom h

theorem findBPE_le (m : ℕ) : findBPE m ≤ 32 := findBPEFrom_le m 32

theorem findBPE_pos (h : m < 2 ^ 32) (hm : 0 < m) : 0 < findBPE m := by
  by_contra hz
  have hlt := lt_findBPE h
  rw [Nat.eq_zero_of_not_pos hz, pow_zero] at hlt
  omega

/-- The bits of the mask of an entry: all, but only one if a `u_long` is wider than its sign. -/
def maskBits (w bpe : ℕ) : ℕ := if w = 32 then bpe else 1

theorem getLsbD_sign {j : ℕ} (hw : w = 32 ∨ w = 64) : (0x80000000#w).getLsbD j = decide (j = 31) := by
  rw [BitVec.getLsbD_ofNat, show 0x80000000 = 2 ^ 31 by rfl, testBit_two_pow]
  by_cases hj : j = 31
  · subst hj
    rcases hw with rfl | rfl <;> rfl
  · simp [hj, Ne.symm hj]

theorem getLsbD_mask {c : ℕ} (hw : w = 32 ∨ w = 64) (hbpe : 0 < bpe) (hc : c + bpe ≤ 32) :
    (((0x80000000#w).sshiftRight (bpe - 1)) >>> (32 - (c + bpe))).getLsbD i =
      decide (c ≤ i ∧ i < c + maskBits w bpe) := by
  rw [BitVec.getLsbD_ushiftRight, BitVec.getLsbD_sshiftRight, getLsbD_sign hw,
    BitVec.msb_eq_getLsbD_last, getLsbD_sign hw, maskBits]
  rw [Bool.eq_iff_iff]
  rcases hw with rfl | rfl
  · simp only [Bool.and_eq_true, Bool.not_eq_true', decide_eq_false_iff_not, decide_eq_true_eq,
      if_true]
    split_ifs with h <;> simp <;> omega
  · simp only [Bool.and_eq_true, Bool.not_eq_true', decide_eq_false_iff_not, decide_eq_true_eq]
    split_ifs with h <;> simp <;> omega

/-- The words are enough for the entries. -/
structure WellFormed (b : BitMap w) : Prop where
  width : w = 32 ∨ w = 64
  pos : 0 < b.bpe
  le : b.bpe ≤ 32
  epw : b.epw = 32 / b.bpe
  words : ∀ j < b.size, j / b.epw < b.words.length

/-- The place of an entry in its word. -/
def shift (b : BitMap w) (j : ℕ) : ℕ := j % b.epw * b.bpe

/-- Bit `x` of entry `j`. -/
def bit (b : BitMap w) (j x : ℕ) : Bool := ((b.words[j / b.epw]?).getD 0).getLsbD (b.shift j + x)

variable {b : BitMap w} {j k : ℕ}

theorem WellFormed.epw_pos (h : b.WellFormed) : 0 < b.epw := by
  rw [h.epw]
  exact div_pos h.le h.pos

theorem WellFormed.shift_le (h : b.WellFormed) (j : ℕ) : b.shift j + b.bpe ≤ 32 := by
  have hlt := Nat.mod_lt j h.epw_pos
  calc b.shift j + b.bpe = (j % b.epw + 1) * b.bpe := by rw [shift, Nat.add_mul, Nat.one_mul]
    _ ≤ b.epw * b.bpe := Nat.mul_le_mul_right _ hlt
    _ ≤ 32 := by rw [h.epw]; exact Nat.div_mul_le_self 32 b.bpe

theorem shift_disjoint (hjk : j ≠ k) (hword : j / b.epw = k / b.epw) :
    b.shift j + b.bpe ≤ b.shift k ∨ b.shift k + b.bpe ≤ b.shift j := by
  have hmod : j % b.epw ≠ k % b.epw := fun h => hjk <| by
    rw [← div_add_mod j b.epw, ← div_add_mod k b.epw, hword, h]
  have hmul {x y : ℕ} (h : x < y) : x * b.bpe + b.bpe ≤ y * b.bpe := by
    rw [← succ_mul]
    exact Nat.mul_le_mul_right _ h
  exact (lt_or_gt_of_ne hmod).imp hmul hmul

theorem getShiftCount_eq (hj : j < b.size) : b.getShiftCount j = some (b.shift j) := by
  rw [getShiftCount, validate, if_pos hj, shift, mod_eq_sub_div_mul]
  rfl

theorem getBitMask_eq (hj : j < b.size) : b.getBitMask j =
    some (((0x80000000#w).sshiftRight (b.bpe - 1)) >>> (32 - (b.shift j + b.bpe))) := by
  rw [getBitMask, getShiftCount_eq hj]
  rfl

theorem WellFormed.getWord_eq (h : b.WellFormed) (hj : j < b.size) :
    b.getWord j = some ((b.words[j / b.epw]?).getD 0) := by
  rw [getWord, validate, if_pos hj, List.getElem?_eq_getElem (h.words j hj)]
  rfl

/-- The entries before `k` hold the values `v`, and the others are zero. -/
structure Holds (b : BitMap w) (v : ℕ → ℕ) (k : ℕ) : Prop extends b.WellFormed where
  lt : ∀ j < k, v j < 2 ^ b.bpe
  bits : ∀ j < b.size, ∀ x < b.bpe, b.bit j x = (decide (j < k) && (v j).testBit x)

theorem holds_new (hw : w = 32 ∨ w = 64) (v : ℕ → ℕ) (size : ℕ) (hpos : 0 < bpe) (hle : bpe ≤ 32) :
    (new w size bpe).Holds v 0 := by
  have hepw : 0 < 32 / bpe := div_pos hle hpos
  refine ⟨⟨hw, hpos, hle, rfl, fun j hj => ?_⟩, fun j hj => absurd hj (not_lt_zero j), ?_⟩
  · have hceil := lt_div_mul_add (a := size + 32 / bpe - 1) hepw
    dsimp only [new, bitsUlong] at hj ⊢
    rw [List.length_replicate, div_lt_iff_lt_mul hepw]
    omega
  · intro j _ x _
    have hzero : ((new w size bpe).words[j / (new w size bpe).epw]?).getD 0 = 0 := by
      rw [new, List.getElem?_replicate]
      split_ifs <;> rfl
    rw [bit, hzero]
    simp

/-- The word with a new value of an entry. -/
def newWord (b : BitMap w) (k value : ℕ) : BitVec w :=
  (b.words[k / b.epw]?).getD 0 &&&
      ~~~(((0x80000000#w).sshiftRight (b.bpe - 1)) >>> (32 - (b.shift k + b.bpe))) |||
    BitVec.ofNat w value <<< b.shift k

theorem WellFormed.set_eq (h : b.WellFormed) (hk : k < b.size) : b.set k value =
    some { b with words := b.words.set (k / b.epw) (b.newWord k value) } := by
  rw [BitMap.set, h.getWord_eq hk, getBitMask_eq hk, getShiftCount_eq hk]
  rfl

theorem maskBits_le (hpos : 0 < b.bpe) : maskBits w b.bpe ≤ b.bpe := by
  rw [maskBits]
  split_ifs <;> omega

/-- The bits of the entry are those of the value, where there were none, and the others stay. -/
theorem WellFormed.getLsbD_newWord (h : b.WellFormed) (hvalue : value < 2 ^ b.bpe) :
    (b.newWord k value).getLsbD i =
      (((b.words[k / b.epw]?).getD 0).getLsbD i &&
          !decide (b.shift k ≤ i ∧ i < b.shift k + maskBits w b.bpe) ||
        decide (b.shift k ≤ i) && value.testBit (i - b.shift k)) := by
  have hle := h.shift_le k
  have hw : 32 ≤ w := by rcases h.width with rfl | rfl <;> decide
  rw [newWord, BitVec.getLsbD_or, BitVec.getLsbD_and, BitVec.getLsbD_not,
    getLsbD_mask h.width h.pos hle, BitVec.getLsbD_shiftLeft, BitVec.getLsbD_ofNat]
  by_cases hi : i < w
  · have hi' : i - b.shift k < w := (sub_le _ _).trans_lt hi
    simp only [hi, hi', decide_true, Bool.true_and, ← decide_not, not_lt]
  · have htest : value.testBit (i - b.shift k) = false :=
      Nat.testBit_lt_two_pow (hvalue.trans_le (Nat.pow_le_pow_right Nat.two_pos (by omega)))
    simp [hi, htest, BitVec.getLsbD_of_ge _ i (not_lt.1 hi)]

theorem Holds.set (h : b.Holds v k) (hk : k < b.size) (hv : v k < 2 ^ b.bpe) :
    ∃ b', b.set k (v k) = some b' ∧ b'.Holds v (k + 1) ∧ b'.size = b.size ∧ b'.bpe = b.bpe := by
  refine ⟨_, h.set_eq hk, ⟨⟨h.width, h.pos, h.le, h.epw, fun j hj => ?_⟩, fun j hj => ?_,
    fun j hj x hx => ?_⟩, rfl, rfl⟩
  · rw [List.length_set]
    exact h.words j hj
  · rcases eq_or_lt_of_le (le_of_lt_succ hj) with rfl | hlt
    · exact hv
    · exact h.lt j hlt
  · have hold := h.bits j hj x hx
    rw [bit] at hold
    change (((b.words.set (k / b.epw) (b.newWord k (v k)))[j / b.epw]?).getD 0).getLsbD
      (b.shift j + x) = _
    change x < b.bpe at hx
    by_cases hword : k / b.epw = j / b.epw
    · rw [← hword, List.getElem?_set_self (h.words k hk), Option.getD_some, h.getLsbD_newWord hv,
        hword, hold]
      by_cases hjk : j = k
      · simp [hjk]
      · have hbefore : decide (j < k + 1) = decide (j < k) := decide_eq_decide.2 (by omega)
        rw [hbefore]
        rcases shift_disjoint hjk hword.symm with hdis | hdis
        · have hlt : ¬b.shift k ≤ b.shift j + x := by omega
          simp [hlt]
        · have hmask := maskBits_le h.pos
          have hout : ¬b.shift j + x < b.shift k + maskBits w b.bpe := by omega
          have htest : (v k).testBit (b.shift j + x - b.shift k) = false :=
            Nat.testBit_lt_two_pow (hv.trans_le (Nat.pow_le_pow_right Nat.two_pos (by omega)))
          simp [hout, htest]
    · have hjk : j ≠ k := fun hjk => hword (by rw [hjk])
      have hbefore : decide (j < k + 1) = decide (j < k) := decide_eq_decide.2 (by omega)
      rw [List.getElem?_set_ne hword, hold, hbefore]

theorem Holds.get (h : b.Holds v k) (hj : j < k) (hsize : j < b.size) :
    b.get j = some (v j % 2 ^ maskBits w b.bpe) := by
  have hle := h.shift_le j
  rw [BitMap.get, h.getWord_eq hsize, getBitMask_eq hsize, getShiftCount_eq hsize]
  refine congrArg some (eq_of_testBit_eq fun x => ?_)
  rw [BitVec.testBit_toNat, BitVec.getLsbD_ushiftRight, BitVec.getLsbD_and,
    getLsbD_mask h.width h.pos hle, testBit_mod_two_pow]
  have hmask := maskBits_le h.pos
  by_cases hx : x < maskBits w b.bpe
  · have hbit := h.bits j hsize x (hx.trans_le hmask)
    rw [bit] at hbit
    rw [hbit]
    simp [hj, hx]
  · simp [hx]

end BitMap

end Ns2.RouteAlgo
