import Ns2.Nix.LongVecRound

/-! `NixVec`: fields of bits, in one word or in an array of them. A word is an `unsigned long` of
32 bits; the numbers of bits are taken not to overflow. The bits of a `NixVec`: a field is
appended, and the same one is extracted at its place. With 32 bits a `LongVec` has the same
words. -/

namespace Ns2

abbrev Nix := BitVec 32

/-- `NIX_NONE`. -/
def nixNone : Nix := 0xffffffff

/-- `NIX_BPW`. -/
abbrev nixBpw : ℕ := 32

/-- `m_pNV`, the only word itself or a pointer to the words. -/
inductive NixStore where
  | word (w : Nix)
  | array (ws : List Nix)

structure NixVec where
  pNV : NixStore
  used : ℕ
  alth : ℕ

namespace NixVec

def init : NixVec := ⟨.word 0, 0, 0⟩

/-- `m_pNV` as a word; the bits of a pointer are not known. -/
def asWord (v : NixVec) : Nix :=
  match v.pNV with
  | .word w => w
  | .array _ => 0

/-- `m_pNV` as a pointer, with nothing behind a word. -/
def asArray (v : NixVec) : List Nix :=
  match v.pNV with
  | .word _ => []
  | .array ws => ws

/-- The number of bits that are allocated. -/
def lth (v : NixVec) : ℕ := if v.alth = 0 then nixBpw else ((v.alth - 1) / nixBpw + 1) * nixBpw

def orAt (i : ℕ) (bits : Nix) (ws : List Nix) : List Nix := ws.modify i (· ||| bits)

/-- The field `p` of `n` bits is added. -/
def add (p : Nix) (n : ℕ) (v : NixVec) : NixVec :=
  if n = 0 then v
  else
    let newused := v.used + n
    let store :=
      if newused > v.lth then
        let newlth := v.lth + nixBpw
        let pNew := (if v.lth = nixBpw then [v.asWord] else v.asArray) ++ [0]
        if v.used = v.lth then
          let shift : ℤ := nixBpw - v.used + (newlth - 32) - n
          NixStore.array (orAt (v.used / nixBpw) (p <<< shift.toNat) pNew)
        else
          let left := v.lth - v.used
          NixStore.array (orAt (v.used / nixBpw + 1) (p <<< (nixBpw - (n - left)))
            (orAt (v.used / nixBpw) (p >>> (n - left)) pNew))
      else
        let shift : ℤ := nixBpw - v.used + (v.lth - 32) - n
        let newbits := p <<< shift.toNat
        if v.lth = nixBpw then .word (v.asWord ||| newbits)
        else .array (orAt (v.used / nixBpw) newbits v.asArray)
    ⟨store, newused, if newused > v.alth then newused else v.alth⟩

/-- The next `n` bits behind the `used` ones, and how many are used then. -/
def extract (n used : ℕ) (v : NixVec) : Nix × ℕ :=
  let word := used / nixBpw
  let bit := used - word * nixBpw
  let m : Nix := 0x80000000
  if used + n > v.alth then (nixNone, used)
  else
    let w := if v.lth = nixBpw then v.asWord else v.asArray.getD word 0
    if bit + n ≤ nixBpw then
      let u := m.sshiftRight (n - 1) >>> bit
      ((w &&& u) >>> (nixBpw - bit - n), used + n)
    else
      let t := nixBpw - bit
      let u := m.sshiftRight (t - 1) >>> bit
      let w := w &&& u
      let t := n - t
      (w <<< t ||| v.asArray.getD (word + 1) 0 >>> (nixBpw - t), used + n)

def getBitl (l : Nix) : ℕ := LongVec.getBitl l

def reset (v : NixVec) : NixVec := { v with used := 0 }

end NixVec

open List

namespace NixVec

variable {v : NixVec} {p : Nix} {n used i j : ℕ}
variable {ws : List Nix} {k left : ℕ} {l : Nix}
variable {bits : Nix} {b : ℕ → Bool} {lv : LongVec 32}

/-- The words of the vector, wherever they are. -/
def words (v : NixVec) : List Nix := if v.lth = nixBpw then [v.asWord] else v.asArray

/-- The bit `i` of a sequence of words, the highest bit of each first. -/
def bitAt (ws : List Nix) (i : ℕ) : Bool := (ws.getD (i / 32) 0).getMsbD (i % 32)

/-- The value fits in `n` bits. -/
def FitsIn (p : Nix) (n : ℕ) : Prop := 0 < n ∧ n ≤ 32 ∧ ∀ i < 32 - n, p.getMsbD i = false

/-- A vector to which all that is used was added: there are words for the bits, and no bit is set
behind them. -/
structure Fresh (v : NixVec) : Prop where
  used : v.used = v.alth
  length : v.words.length * 32 = v.lth
  clear : ∀ i, v.used ≤ i → bitAt v.words i = false

theorem bitAt_orAt (hk : k < ws.length) :
    bitAt (orAt k bits ws) i =
      (bitAt ws i || (decide (i / 32 = k) && bits.getMsbD (i % 32))) := by
  unfold bitAt orAt
  rw [getD_eq_getElem?_getD, getD_eq_getElem?_getD, getElem?_modify]
  by_cases h : i / 32 = k
  · subst h
    simp [getElem?_eq_getElem hk]
  · simp [h, Ne.symm h]

theorem bitAt_append : bitAt (ws ++ [0]) i = bitAt ws i := by
  rw [bitAt, LongVec.getD_append_zero, bitAt]

theorem lth_mod (v : NixVec) : v.lth % 32 = 0 := by
  unfold lth nixBpw
  split_ifs
  · rfl
  · exact Nat.mul_mod_left _ _

theorem alth_le_lth (v : NixVec) : v.alth ≤ v.lth := by
  unfold lth nixBpw
  split_ifs <;> omega

theorem lth_lt (v : NixVec) : v.lth < v.alth + 32 ∨ v.alth = 0 ∧ v.lth = 32 := by
  unfold lth nixBpw
  split_ifs <;> omega

theorem lth_pos (v : NixVec) : 32 ≤ v.lth := by
  unfold lth nixBpw
  split_ifs <;> omega

theorem lth_eq {l : ℕ} (hl : l % 32 = 0) (h : v.alth ≤ l) (h' : l < v.alth + 32)
    (hpos : 0 < v.alth) : v.lth = l := by
  unfold lth nixBpw
  rw [if_neg hpos.ne']
  omega

theorem shift_eq {used l : ℕ} (h : used + n ≤ l) :
    ((nixBpw : ℤ) - used + ((l : ℤ) - 32) - n).toNat = l - used - n := by
  unfold nixBpw
  omega

theorem add_used (hn : 0 < n) : (v.add p n).used = v.used + n := by
  unfold add
  rw [if_neg hn.ne']

theorem add_alth (h : v.used = v.alth) (hn : 0 < n) : (v.add p n).alth = v.used + n := by
  unfold add
  rw [if_neg hn.ne']
  exact if_pos (by omega)

theorem add_lth (h : v.used = v.alth) (hp : FitsIn p n) :
    (v.add p n).lth = if v.used + n > v.lth then v.lth + 32 else v.lth := by
  have halth := add_alth (p := p) h hp.1
  have hmod := v.lth_mod
  have hle := v.alth_le_lth
  have hlt := v.lth_lt
  obtain ⟨hn, hn', -⟩ := hp
  split_ifs with hgrow
  · refine lth_eq (by omega) ?_ ?_ ?_ <;> rw [halth] <;> omega
  · refine lth_eq hmod ?_ ?_ ?_ <;> rw [halth] <;> omega

theorem words_of_word {w : Nix} (h : v.pNV = .word w) (hl : v.lth = 32) : v.words = [w] := by
  unfold words asWord
  rw [h]
  exact if_pos hl

theorem words_of_array (h : v.pNV = .array ws) (hl : v.lth ≠ 32) : v.words = ws := by
  unfold words asArray
  rw [h]
  exact if_neg hl

theorem add_words (h : v.used = v.alth) (hp : FitsIn p n) : (v.add p n).words =
    if v.used + n > v.lth then
      if v.used = v.lth then orAt (v.used / 32) (p <<< (32 - n)) (v.words ++ [0])
      else orAt (v.used / 32 + 1) (p <<< (32 - (n - (v.lth - v.used))))
        (orAt (v.used / 32) (p >>> (n - (v.lth - v.used))) (v.words ++ [0]))
    else orAt (v.used / 32) (p <<< (v.lth - v.used - n)) v.words := by
  have hlth := add_lth h hp
  obtain ⟨hn, hn', -⟩ := hp
  have hpos := v.lth_pos
  have hle := v.alth_le_lth
  have hpNV : (v.add p n).pNV = _ := congrArg NixVec.pNV (if_neg hn.ne')
  dsimp only at hpNV
  have hold : (if v.lth = 32 then [v.asWord] else v.asArray) = v.words := rfl
  by_cases hgrow : v.used + n > v.lth
  · rw [if_pos hgrow] at hlth hpNV ⊢
    rw [hold] at hpNV
    by_cases hfull : v.used = v.lth
    · rw [if_pos hfull] at hpNV ⊢
      rw [words_of_array hpNV (by omega)]
      have hshift : ((nixBpw : ℤ) - v.used + (((v.lth + nixBpw : ℕ) : ℤ) - 32) - n).toNat = 32 - n := by
        have hle : v.used + n ≤ v.lth + 32 := by omega
        exact (shift_eq hle).trans (by omega)
      rw [hshift]
    · rw [if_neg hfull] at hpNV ⊢
      rw [words_of_array hpNV (by omega)]
  · rw [if_neg hgrow] at hlth hpNV ⊢
    rw [shift_eq (by omega)] at hpNV
    by_cases h32 : v.lth = 32
    · rw [if_pos h32] at hpNV
      rw [words_of_word hpNV (by omega)]
      have hi : v.used / 32 = 0 := by omega
      rw [hi, ← hold, if_pos h32]
      rfl
    · rw [if_neg h32] at hpNV
      rw [words_of_array hpNV (by omega), ← hold, if_neg h32]

theorem getMsbD_shiftLeft_field (hp : FitsIn p n) (hk : k + n ≤ 32) :
    (p <<< (32 - k - n)).getMsbD i =
      (decide (k ≤ i ∧ i < k + n) && p.getMsbD (32 - n + (i - k))) := by
  obtain ⟨-, -, hclear⟩ := hp
  rw [BitVec.getMsbD_shiftLeft]
  by_cases hki : k ≤ i
  · have hidx : i + (32 - k - n) = 32 - n + (i - k) := by omega
    rw [hidx]
    by_cases hin : i < k + n
    · simp [hki, hin]
    · rw [BitVec.getMsbD_of_ge _ _ (by omega)]
      simp
  · rw [hclear _ (by omega)]
    simp [hki]

theorem getMsbD_ushiftRight_field (hp : FitsIn p n) (hl : left < n) (hi : i < 32) :
    (p >>> (n - left)).getMsbD i =
      (decide (32 - left ≤ i) && p.getMsbD (32 - n + (i - (32 - left)))) := by
  obtain ⟨-, hn, hclear⟩ := hp
  rw [BitVec.getMsbD_ushiftRight]
  by_cases hli : 32 - left ≤ i
  · have hidx : i - (n - left) = 32 - n + (i - (32 - left)) := by omega
    have hnot : ¬i < n - left := by omega
    rw [hidx]
    simp [hi, hli, hnot]
  · by_cases hin : i < n - left
    · simp [hli, hin]
    · rw [hclear _ (by omega)]
      simp [hli]

theorem getMsbD_shiftLeft_rest (hn : n ≤ 32) (hl : left < n) :
    (p <<< (32 - (n - left))).getMsbD i =
      (decide (i < n - left) && p.getMsbD (32 - n + (left + i))) := by
  rw [BitVec.getMsbD_shiftLeft]
  have hidx : i + (32 - (n - left)) = 32 - n + (left + i) := by omega
  rw [hidx]
  by_cases hin : i < n - left
  · simp [hin]
  · rw [BitVec.getMsbD_of_ge _ _ (by omega)]
    simp

theorem field_in_word (h : used % 32 + n ≤ 32) :
    (decide (i / 32 = used / 32) && (decide (used % 32 ≤ i % 32 ∧ i % 32 < used % 32 + n) &&
      b (i % 32 - used % 32))) = (decide (used ≤ i ∧ i < used + n) && b (i - used)) := by
  by_cases hin : used ≤ i ∧ i < used + n
  · have hword : i / 32 = used / 32 := by omega
    have hbit : used % 32 ≤ i % 32 ∧ i % 32 < used % 32 + n := by omega
    have hidx : i % 32 - used % 32 = i - used := by omega
    simp [hin, hword, hbit, hidx]
  · by_cases hword : i / 32 = used / 32
    · have hbit : ¬(used % 32 ≤ i % 32 ∧ i % 32 < used % 32 + n) := by omega
      simp [hin, hbit]
    · simp [hin, hword]

/-- The places of a field that goes on in the next word, `left` of them in the first. -/
theorem field_in_words (hleft : used % 32 + left = 32) (hl : left < n) (hn : n ≤ 32) :
    (decide (i / 32 = used / 32) && (decide (32 - left ≤ i % 32) && b (i % 32 - (32 - left))) ||
      decide (i / 32 = used / 32 + 1) && (decide (i % 32 < n - left) && b (left + i % 32))) =
      (decide (used ≤ i ∧ i < used + n) && b (i - used)) := by
  by_cases hword : i / 32 = used / 32
  · have hnext : ¬i / 32 = used / 32 + 1 := by omega
    by_cases hin : used ≤ i
    · have hidx : i % 32 - (32 - left) = i - used := by omega
      have hbit : 32 - left ≤ i % 32 := by omega
      have hend : i < used + n := by omega
      simp [hword, hidx, hbit, hin, hend]
    · have hbit : ¬32 - left ≤ i % 32 := by omega
      simp [hword, hbit, hin]
  · by_cases hnext : i / 32 = used / 32 + 1
    · have hin : used ≤ i := by omega
      by_cases hend : i < used + n
      · have hidx : left + i % 32 = i - used := by omega
        have hbit : i % 32 < n - left := by omega
        simp [hnext, hidx, hbit, hin, hend]
      · have hbit : ¬i % 32 < n - left := by omega
        simp [hnext, hbit, hend]
    · have hin : ¬(used ≤ i ∧ i < used + n) := by omega
      simp [hword, hnext, hin]

theorem Fresh.bitAt_add (h : Fresh v) (hp : FitsIn p n) : bitAt (v.add p n).words i =
    (bitAt v.words i ||
      (decide (v.used ≤ i ∧ i < v.used + n) && p.getMsbD (32 - n + (i - v.used)))) := by
  have hlen := h.length
  have hmod := v.lth_mod
  have hle : v.used ≤ v.lth := h.used.trans_le v.alth_le_lth
  have hlt := v.lth_lt
  rw [← h.used] at hlt
  rw [add_words h.used hp]
  obtain ⟨hn, hn', -⟩ := id hp
  split_ifs with hgrow hfull
  · have hshift : 32 - n = 32 - v.used % 32 - n := by omega
    rw [bitAt_orAt (by rw [length_append, length_singleton]; omega), bitAt_append]
    rw [hshift, getMsbD_shiftLeft_field hp (by omega), ← hshift]
    rw [field_in_word (b := fun j => p.getMsbD (32 - n + j)) (by omega)]
  · rw [bitAt_orAt (by simp [orAt]; omega), bitAt_orAt (by simp; omega), bitAt_append]
    rw [getMsbD_ushiftRight_field hp (by omega) (by omega),
      getMsbD_shiftLeft_rest hn' (by omega), Bool.or_assoc]
    rw [field_in_words (b := fun j => p.getMsbD (32 - n + j)) (by omega) (by omega) hn']
  · have hshift : v.lth - v.used - n = 32 - v.used % 32 - n := by omega
    rw [bitAt_orAt (by omega), hshift, getMsbD_shiftLeft_field hp (by omega)]
    rw [field_in_word (b := fun j => p.getMsbD (32 - n + j)) (by omega)]

theorem length_orAt : (orAt k bits ws).length = ws.length :=
  length_modify _ _ _

theorem Fresh.add (h : Fresh v) (hp : FitsIn p n) : Fresh (v.add p n) := by
  refine ⟨?_, ?_, fun i hi => ?_⟩
  · rw [add_used hp.1, add_alth h.used hp.1]
  · rw [add_words h.used hp, add_lth h.used hp]
    have hlen := h.length
    split_ifs <;> simp only [length_orAt, length_append, length_singleton] <;> omega
  · rw [add_used hp.1] at hi
    have hout : ¬(v.used ≤ i ∧ i < v.used + n) := by omega
    rw [h.bitAt_add hp, h.clear i (by omega)]
    simp [hout]

theorem bitAt_zero : bitAt [0] i = false := by
  unfold bitAt
  rcases i / 32 with - | k <;> simp

theorem Fresh.init : Fresh init :=
  ⟨rfl, rfl, fun _ _ => bitAt_zero⟩

/-- The mask of `n` bits from the bit `k` on. -/
def mask (n k : ℕ) : Nix := (0x80000000 : Nix).sshiftRight (n - 1) >>> k

theorem getMsbD_top : (0x80000000 : Nix).getMsbD i = decide (i = 0) := by
  rcases i with - | i
  · rfl
  · unfold BitVec.getMsbD
    by_cases hi : i + 1 < 32
    · have htop : ¬32 - 1 - (i + 1) = 31 := by omega
      rw [show (0x80000000 : Nix) = BitVec.twoPow 32 31 by rfl, BitVec.getLsbD_twoPow]
      simp
      omega
    · simp [hi]

theorem getMsbD_mask (hn : 0 < n) (hi : i < 32) :
    (mask n k).getMsbD i = decide (k ≤ i ∧ i < k + n) := by
  unfold mask
  rw [BitVec.getMsbD_ushiftRight, BitVec.getMsbD_sshiftRight, getMsbD_top]
  have hmsb : (0x80000000 : Nix).msb = true := rfl
  rw [hmsb]
  by_cases hk : k ≤ i
  · have hi' : i - k < 32 := by omega
    have hnot : ¬i < k := by omega
    by_cases hlt : i - k < n - 1
    · have hlt' : i < k + n := by omega
      simp [hi, hi', hk, hnot, hlt, hlt']
    · have heq : i - k - (n - 1) = 0 ↔ i < k + n := by omega
      simp only [hi, hi', hk, hnot, hlt, heq, true_and, if_false, decide_true, decide_false,
        Bool.not_false, Bool.true_and]
  · have hlt : i < k := by omega
    simp [hk, hlt]

theorem extract_eq (hn : 0 < n) (hn' : n ≤ 32) (h : used + n ≤ v.alth) : v.extract n used =
    (if used % 32 + n ≤ 32 then
      (v.words.getD (used / 32) 0 &&& mask n (used % 32)) >>> (32 - used % 32 - n)
    else (v.words.getD (used / 32) 0 &&& mask (32 - used % 32) (used % 32)) <<< (n - (32 - used % 32)) |||
      v.words.getD (used / 32 + 1) 0 >>> (32 - (n - (32 - used % 32))), used + n) := by
  have hle := v.alth_le_lth
  have hbit : used - used / 32 * 32 = used % 32 := by omega
  unfold extract
  dsimp only [nixBpw]
  rw [if_neg (by omega), hbit]
  have hword : (if v.lth = 32 then v.asWord else v.asArray.getD (used / 32) 0) =
      v.words.getD (used / 32) 0 := by
    unfold words
    split_ifs
    · have hzero : used / 32 = 0 := by omega
      rw [hzero]
      rfl
    · rfl
  rw [hword]
  split_ifs with hone
  · rfl
  · have hlth : ¬v.lth = 32 := by omega
    have harr : v.words = v.asArray := if_neg hlth
    rw [harr]
    rfl

theorem getMsbD_extract (hn : 0 < n) (hn' : n ≤ 32) (h : used + n ≤ v.alth) (hi : i < 32) :
    (v.extract n used).1.getMsbD i =
      (decide (32 - n ≤ i) && bitAt v.words (used + (i - (32 - n)))) := by
  rw [extract_eq hn hn' h]
  dsimp only
  unfold bitAt
  split_ifs with hone
  · rw [BitVec.getMsbD_ushiftRight, BitVec.getMsbD_and]
    by_cases hin : 32 - n ≤ i
    · have hword : (used + (i - (32 - n))) / 32 = used / 32 := by omega
      have hidx : (used + (i - (32 - n))) % 32 = i - (32 - used % 32 - n) := by omega
      have hmask : used % 32 ≤ i - (32 - used % 32 - n) ∧
          i - (32 - used % 32 - n) < used % 32 + n := by omega
      have hshift : ¬i < 32 - used % 32 - n := by omega
      rw [hword, hidx, getMsbD_mask hn (by omega)]
      simp [hi, hin, hmask, hshift]
    · by_cases hshift : i < 32 - used % 32 - n
      · simp [hin, hshift]
      · rw [getMsbD_mask hn (by omega)]
        have hmask : ¬(used % 32 ≤ i - (32 - used % 32 - n) ∧
          i - (32 - used % 32 - n) < used % 32 + n) := by omega
        simp [hin, hmask]
  · rw [BitVec.getMsbD_or, BitVec.getMsbD_shiftLeft, BitVec.getMsbD_ushiftRight,
      BitVec.getMsbD_and]
    generalize hrest : n - (32 - used % 32) = rest
    by_cases hfst : i + rest < 32
    · have hshift : i < 32 - rest := by omega
      rw [getMsbD_mask (by omega) hfst]
      by_cases hin : 32 - n ≤ i
      · have hword : (used + (i - (32 - n))) / 32 = used / 32 := by omega
        have hidx : (used + (i - (32 - n))) % 32 = i + rest := by omega
        have hmask : used % 32 ≤ i + rest ∧ i + rest < used % 32 + (32 - used % 32) := by omega
        rw [hword, hidx]
        simp [hin, hmask, hshift]
      · have hmask : ¬(used % 32 ≤ i + rest ∧ i + rest < used % 32 + (32 - used % 32)) := by omega
        simp [hin, hmask, hshift]
    · have hword : (used + (i - (32 - n))) / 32 = used / 32 + 1 := by omega
      have hidx : (used + (i - (32 - n))) % 32 = i - (32 - rest) := by omega
      have hshift : ¬i < 32 - rest := by omega
      have hin : 32 - n ≤ i := by omega
      rw [hword, hidx, BitVec.getMsbD_of_ge _ _ (by omega)]
      simp [hi, hin, hshift]

theorem extract_field (hp : FitsIn p n) (h : used + n ≤ v.alth)
    (hbits : ∀ j < n, bitAt v.words (used + j) = p.getMsbD (32 - n + j)) :
    v.extract n used = (p, used + n) := by
  obtain ⟨hn, hn', hclear⟩ := hp
  refine Prod.ext (BitVec.eq_of_getMsbD_eq fun i hi => ?_) (by rw [extract_eq hn hn' h])
  rw [getMsbD_extract hn hn' h hi]
  by_cases hin : 32 - n ≤ i
  · have hidx : 32 - n + (i - (32 - n)) = i := by omega
    rw [hbits _ (by omega), hidx]
    simp [hin]
  · rw [hclear i (by omega)]
    simp [hin]

theorem getBitl_eq (l : Nix) : getBitl l = LongVec.bitLength l.toNat :=
  (LongVec.getBitl_eq_iff (Or.inl rfl) l).2 l.isLt

theorem getBitl_pos (l : Nix) : 0 < getBitl l := by
  rw [getBitl_eq, LongVec.bitLength]
  split_ifs with h
  · exact Nat.one_pos
  · exact Nat.size_pos.2 (Nat.pos_of_ne_zero h)

theorem getBitl_le (l : Nix) : getBitl l ≤ 32 := by
  rw [getBitl_eq]
  exact LongVec.bitLength_le l.isLt (by decide)

theorem lt_getBitl (l : Nix) : l.toNat < 2 ^ getBitl l := by
  rw [getBitl_eq, LongVec.bitLength]
  split_ifs with h
  · rw [h]
    decide
  · exact Nat.lt_size_self _

theorem fitsIn_getBitl {p : Nix} (h : p.toNat ≤ l.toNat) : FitsIn p (getBitl l) := by
  refine ⟨getBitl_pos l, getBitl_le l, fun i hi => ?_⟩
  have hlt : p.toNat < 2 ^ (32 - 1 - i) :=
    (h.trans_lt (lt_getBitl l)).trans_le (Nat.pow_le_pow_right (by decide) (by omega))
  rw [BitVec.getMsbD_eq_getLsbD]
  have hclear : p.getLsbD (32 - 1 - i) = false := Nat.testBit_lt_two_pow hlt
  rw [hclear, Bool.and_false]

theorem lth_eq_words (v : NixVec) : v.lth = 32 * LongVec.wordsFor v.alth := by
  unfold lth nixBpw LongVec.wordsFor
  split_ifs <;> omega

/-- While its counts do not wrap, the vector with longs of 32 bits gets the same words. -/
theorem longVec_add (h : v.used = v.alth) (hp : FitsIn p n) (hlv : lv.Full v.words v.used)
    (hroom : v.used + n + 32 ≤ 2 ^ 32) :
    ∃ lv', lv.add p (BitVec.ofNat 32 n) = some lv' ∧ lv'.Full (v.add p n).words (v.used + n) := by
  obtain ⟨hpos, hle, -⟩ := id hp
  have hlth := v.lth_eq_words
  rw [← h] at hlth
  have hlen := hlv.length
  have hwords := hlv.length
  unfold LongVec.wordsFor at hwords
  have hn := LongVec.toNat_length (Or.inl rfl : 32 = 32 ∨ 32 = 64) hle
  rw [add_words h hp]
  refine hlv.add_of_store hn hpos hroom ?_ ?_
  · unfold LongVec.wordsFor
    split_ifs <;> simp only [length_orAt, length_append, length_singleton] <;> omega
  · split_ifs with hgrow hfull
    · have hshift : 32 - n = 32 * (v.used / 32 + 1) - (v.used + n) := by omega
      rw [hlv.newStore_next (Or.inl rfl) hn hle hpos (by omega) hroom, hshift]
      rfl
    · have hfst : n - (v.lth - v.used) = v.used + n - 32 * (v.used / 32 + 1) := by omega
      have hsnd : 32 - (v.used + n - 32 * (v.used / 32 + 1)) =
          32 * (v.used / 32 + 2) - (v.used + n) := by omega
      rw [hlv.newStore_split (Or.inl rfl) hn hle (by omega) (by omega) hroom, hfst, hsnd]
      rfl
    · have hshift : v.lth - v.used - n = 32 * (v.used / 32 + 1) - (v.used + n) := by omega
      rw [hlv.newStore_inside (Or.inl rfl) hn hle hpos (by omega), hshift]
      rfl

theorem longVec_extract (hlv : lv.Stores v.words v.alth) (hused : lv.used.toNat = used)
    (hn : 0 < n) (hn' : n ≤ 32) (h : used + n ≤ v.alth) : lv.extract (BitVec.ofNat 32 n) =
      some ((v.extract n used).1, { lv with used := lv.used + BitVec.ofNat 32 n }) := by
  have hrest : n - (32 - used % 32) = used % 32 + n - 32 := by omega
  rw [hlv.extract_eq (Or.inl rfl) hused (LongVec.toNat_length (Or.inl rfl) hn') hn' hn h,
    extract_eq hn hn' h, hrest]
  split_ifs
  · rfl
  · have hnext : 32 - (used % 32 + n - 32) = 64 - used % 32 - n := by omega
    rw [hnext]
    rfl
end NixVec

end Ns2
