import Mathlib.Algebra.BigOperators.Group.List.Basic
import Ns2.Nix.LongVec

/-! What `Extract` makes of the words, and when it gives the fields back. With longer words the
mask of a field is its last bit only. -/

namespace Ns2.LongVec

open List Option Nat Bool

variable {W : ℕ} {v : LongVec W} {ws : List (BitVec W)} {U E T i j k m : ℕ} {f : Field}
  {l l₁ l₂ fields : List Field} {n p : BitVec W}

def total (fields : List Field) : ℕ := (fields.map Field.length).sum

/-- The word `k` of the fields from the bit `U` on. -/
def packed : ℕ → List Field → ℕ → BitVec W
  | _, [], _ => 0
  | U, f :: fields, k =>
    part (BitVec.ofNat W f.value) (U + f.length) k ||| packed (U + f.length) fields k

@[simp] theorem total_nil : total [] = 0 := rfl

@[simp] theorem total_cons : total (f :: l) = f.length + total l := sum_cons

@[simp] theorem total_append : total (l₁ ++ l₂) = total l₁ + total l₂ := by
  rw [total, map_append, List.sum_append_nat]
  rfl

theorem packed_append :
    (packed U (l₁ ++ l₂) k : BitVec W) = packed U l₁ k ||| packed (U + total l₁) l₂ k := by
  induction l₁ generalizing U with
  | nil => exact BitVec.zero_or.symm
  | cons f l ih =>
    rw [cons_append, packed, packed, ih, total_cons, add_assoc, BitVec.or_assoc]

theorem getLsbD_part : (part p E k).getLsbD j =
    (decide (32 * k < E ∧ j < W ∧ 32 * (k + 1) ≤ j + E) && p.getLsbD (j + E - 32 * (k + 1))) := by
  unfold part
  split_ifs with hk hE
  · rw [BitVec.getLsbD_shiftLeft]
    by_cases hj : 32 * (k + 1) ≤ j + E
    · have hidx : j - (32 * (k + 1) - E) = j + E - 32 * (k + 1) := by omega
      have hnot : ¬j < 32 * (k + 1) - E := by omega
      simp [hk, hj, hnot, hidx]
    · have hlt : j < 32 * (k + 1) - E := by omega
      simp [hj, hlt]
  · rw [BitVec.getLsbD_ushiftRight]
    have hidx : E - 32 * (k + 1) + j = j + E - 32 * (k + 1) := by omega
    have hj : 32 * (k + 1) ≤ j + E := by omega
    rw [hidx]
    by_cases hW : j < W
    · simp [hk, hj, hW]
    · rw [BitVec.getLsbD_of_ge _ _ (by omega)]
      simp
  · simp [hk]

theorem packed_before (hl : U + total l ≤ T) (hk : T ≤ 32 * k ∨ j + T < 32 * (k + 1)) :
    (packed U l k : BitVec W).getLsbD j = false := by
  induction l generalizing U with
  | nil => exact BitVec.getLsbD_zero
  | cons f l ih =>
    rw [total_cons, ← add_assoc] at hl
    have hnot : ¬(32 * k < U + f.length ∧ j < W ∧ 32 * (k + 1) ≤ j + (U + f.length)) := by omega
    rw [packed, BitVec.getLsbD_or, ih hl, getLsbD_part, decide_eq_false hnot]
    rfl

section Width

variable (hW : W = 32 ∨ W = 64)

include hW

theorem getLsbD_value (hi : f.length ≤ i) : (BitVec.ofNat W f.value).getLsbD i = false := by
  rw [BitVec.getLsbD, toNat_value hW]
  exact Nat.testBit_lt_two_pow (f.lt.trans_le (Nat.pow_le_pow_right (by decide) hi))

theorem packed_behind (hk : 32 * (k + 1) ≤ j + U) :
    (packed U l k : BitVec W).getLsbD j = false := by
  induction l generalizing U with
  | nil => exact BitVec.getLsbD_zero
  | cons f l ih =>
    rw [packed, BitVec.getLsbD_or, ih (by omega), getLsbD_part, getLsbD_value hW (by omega),
      Bool.and_false]
    rfl

theorem getLsbD_packed (hfields : fields = l₁ ++ f :: l₂)
    (hj : 32 * (k + 1) ≤ j + (total l₁ + f.length))
    (hk : total l₁ ≤ 32 * k ∨ j + total l₁ < 32 * (k + 1)) :
    (packed 0 fields k : BitVec W).getLsbD j =
      (part (BitVec.ofNat W f.value) (total l₁ + f.length) k).getLsbD j := by
  subst hfields
  rw [packed_append, packed, BitVec.getLsbD_or, BitVec.getLsbD_or, zero_add,
    packed_before (zero_add _).le hk, packed_behind hW hj, Bool.or_false, Bool.false_or]

theorem Full.addAll (h : Full v ws U) (hb : U + total fields + 32 ≤ 2 ^ W) :
    ∃ v' ws', addAll fields v = some v' ∧ Full v' ws' (U + total fields) ∧
      ∀ k, ws'.getD k 0 = ws.getD k 0 ||| packed U fields k := by
  induction fields generalizing v ws U with
  | nil => exact ⟨v, ws, rfl, h, fun k => BitVec.or_zero.symm⟩
  | cons f fields ih =>
    rw [total_cons, ← add_assoc] at hb ⊢
    obtain ⟨v₁, ws₁, hadd, hfull, hget⟩ := h.add hW f (by omega)
    obtain ⟨v₂, ws₂, hall, hfull', hget'⟩ := ih hfull hb
    refine ⟨v₂, ws₂, ?_, hfull', fun k => ?_⟩
    · rw [LongVec.addAll, foldlM_cons, hadd]
      exact hall
    · rw [hget', hget, packed, BitVec.or_assoc]

theorem Full.addAll_none (h : Full v ws U) (hb : 2 ^ W < U + total fields + 32) :
    LongVec.addAll fields v = none := by
  induction fields generalizing v ws U with
  | nil =>
    have hbound := h.bound
    rw [total_nil] at hb
    omega
  | cons f fields ih =>
    rw [total_cons, ← add_assoc] at hb
    rw [LongVec.addAll, foldlM_cons]
    by_cases hnew : U + f.length + 32 ≤ 2 ^ W
    · obtain ⟨v₁, ws₁, hadd, hfull, -⟩ := h.add hW f hnew
      rw [hadd]
      exact ih hfull hb
    · rw [h.add_none hW f (by omega)]
      rfl

theorem Full.init : Full (init : LongVec W) [0] 0 := by
  refine ⟨⟨rfl, ?_, rfl, rfl⟩, rfl⟩
  rcases hW with rfl | rfl <;> decide

omit hW in
/-- The mask of `n` bits from the bit `k` on, as the code makes it. -/
def mask (W n k : ℕ) : BitVec W := (0x80000000 : BitVec W).sshiftRight (n - 1) >>> k

theorem getLsbD_sign : (0x80000000 : BitVec W).getLsbD i = decide (i = 31) := by
  have hsign : (0x80000000 : BitVec W) = BitVec.twoPow W 31 := by
    rcases hW with rfl | rfl <;> rfl
  rw [hsign, BitVec.getLsbD_twoPow]
  have hlt : 31 < W := le_width hW
  simp [hlt, eq_comm]

theorem getLsbD_mask (hm : 0 < m) (hk : k + m ≤ 32) : (mask W m k).getLsbD j =
    if W = 32 then decide (32 - k - m ≤ j ∧ j < 32 - k) else decide (j = 32 - k - m) := by
  unfold mask
  rw [BitVec.getLsbD_ushiftRight, BitVec.getLsbD_sshiftRight, getLsbD_sign hW]
  rcases hW with rfl | rfl
  · have hmsb : (0x80000000 : BitVec 32).msb = true := rfl
    have hbit : (if m - 1 + (k + j) < 32 then decide (m - 1 + (k + j) = 31) else true) =
        decide (31 ≤ m - 1 + (k + j)) := by
      split_ifs with h
      · rw [decide_eq_decide]
        omega
      · rw [eq_comm, decide_eq_true_eq]
        omega
    rw [hmsb, hbit, if_pos rfl, ← decide_not, ← decide_and, decide_eq_decide]
    omega
  · have hmsb : (0x80000000 : BitVec 64).msb = false := rfl
    have hbit : (if m - 1 + (k + j) < 64 then decide (m - 1 + (k + j) = 31) else false) =
        decide (m - 1 + (k + j) = 31) := by
      split_ifs with h
      · rfl
      · rw [eq_comm, decide_eq_false_iff_not]
        omega
    rw [hmsb, hbit, if_neg (by decide), ← decide_not, ← decide_and, decide_eq_decide]
    omega

theorem pred_toNat (hn : n.toNat = m) (hpos : 0 < m) : (n - 1).toNat = m - 1 := by
  rcases hW with rfl | rfl <;> bv_omega

theorem bpw_sub_toNat (hn : n.toNat = m) (hm : m ≤ 32) : (bpw - n).toNat = 32 - m := by
  have hle : n ≤ bpw := by
    rw [BitVec.le_def, hn, toNat_bpw hW]
    exact hm
  rw [BitVec.toNat_sub_of_le hle, toNat_bpw hW, hn]

theorem sar_of_lt (h : n.toNat < 32) : sar p n = some (p.sshiftRight n.toNat) :=
  if_pos (h.trans_le (le_width hW))

theorem Stores.extract_eq (h : Stores v ws T) (hU : v.used.toNat = U) (hn : n.toNat = m)
    (hm : m ≤ 32) (hpos : 0 < m) (hend : U + m ≤ T) : v.extract n =
      some (if U % 32 + m ≤ 32 then
        (ws.getD (U / 32) 0 &&& mask W m (U % 32)) >>> (32 - U % 32 - m)
      else (ws.getD (U / 32) 0 &&& mask W (32 - U % 32) (U % 32)) <<< (U % 32 + m - 32) |||
        ws.getD (U / 32 + 1) 0 >>> (64 - U % 32 - m), { v with used := v.used + n }) := by
  have hbound := h.bound
  have hlen := h.length
  have hword : (v.used / bpw).toNat = U / 32 := by rw [word_toNat hW, hU]
  have hbit : (v.used - v.used / bpw * bpw).toNat = U % 32 := by
    unfold bpw at hword ⊢
    rcases hW with rfl | rfl <;> bv_omega
  have hmore : ¬v.used + n > v.alth := by
    rw [gt_iff_lt, BitVec.lt_def, h.alth, BitVec.toNat_add, hU, hn, mod_eq_of_lt (by omega)]
    omega
  have hgetD : ∀ k < ws.length, ws[k]? = some (ws.getD k 0) := fun k hk => by
    rw [getD_eq_getElem?_getD, getElem?_eq_getElem hk]
    rfl
  have hwordAt : v.wordAt (v.used / bpw) = some (ws.getD (U / 32) 0) := by
    unfold wordAt
    by_cases hT : T ≤ 32
    · have hzero : U / 32 = 0 := by omega
      rw [if_pos ((h.lth_eq_iff hW).2 hT), h.word hT, hzero]
    · rw [if_neg (fun heq => hT ((h.lth_eq_iff hW).1 heq)), h.array (by omega), bind_some,
        hword, hgetD]
      rw [hlen, wordsFor]
      omega
  unfold extract
  dsimp only
  rw [if_neg hmore, hwordAt, bind_eq_bind, bind_some]
  generalize v.used - v.used / bpw * bpw = bit at hbit
  have hsum : (bit + n).toNat = U % 32 + m := by rcases hW with rfl | rfl <;> bv_omega
  have ht : (bpw - bit).toNat = 32 - U % 32 := bpw_sub_toNat hW hbit (by omega)
  by_cases hone : U % 32 + m ≤ 32
  · have hle : bit + n ≤ bpw := by
      rw [BitVec.le_def, hsum, toNat_bpw hW]
      exact hone
    have hn' : (n - 1).toNat = m - 1 := pred_toNat hW hn hpos
    have hfits : n ≤ bpw - bit := by
      rw [BitVec.le_def, hn, ht]
      omega
    have hshift : (bpw - bit - n).toNat = 32 - U % 32 - m := by
      rw [BitVec.toNat_sub_of_le hfits, ht, hn]
    rw [if_pos hle, if_pos hone, sar_of_lt hW (by omega), hn',
      bind_some, shr_of_lt hW (by omega), hbit, bind_some,
      shr_of_lt hW (by omega), hshift]
    rfl
  · have hle : ¬bit + n ≤ bpw := by
      rw [BitVec.le_def, hsum, toNat_bpw hW]
      exact hone
    have ht' : (bpw - bit - 1).toNat = 32 - U % 32 - 1 := pred_toNat hW ht (by omega)
    have hover : bpw - bit ≤ n := by
      rw [BitVec.le_def, hn, ht]
      omega
    have hrest : (n - (bpw - bit)).toNat = U % 32 + m - 32 := by
      rw [BitVec.toNat_sub_of_le hover, hn, ht]
      omega
    have hrest' : (n - (bpw - bit) - 1).toNat = U % 32 + m - 32 - 1 :=
      pred_toNat hW hrest (by omega)
    have hshift : (bpw - (n - (bpw - bit))).toNat = 64 - U % 32 - m := by
      rw [bpw_sub_toNat hW hrest (by omega)]
      omega
    have hnext : (v.used / bpw + 1).toNat = U / 32 + 1 := by rw [next_toNat hW, hU]
    have hlt : U / 32 + 1 < ws.length := by
      rw [hlen, wordsFor]
      omega
    rw [if_neg hle, if_neg hone, sar_of_lt hW (by omega), ht',
      bind_some, shr_of_lt hW (by omega), hbit, bind_some,
      shl_of_lt hW (by omega), hrest, bind_some,
      sar_of_lt hW (by omega), bind_some, h.array (by omega),
      bind_some, hnext, hgetD _ hlt, bind_some,
      shr_of_lt hW (by omega), hshift]
    rfl

/-- What comes out at the place of a field. -/
def got (W : ℕ) (f : Field) (U : ℕ) : ℕ :=
  if W = 64 ∧ U % 32 + f.length ≤ 32 then f.value % 2 else f.value

def gotFrom (W : ℕ) : ℕ → List Field → List (BitVec W)
  | _, [] => []
  | U, f :: fields => BitVec.ofNat W (got W f U) :: gotFrom W (U + f.length) fields

/-- The bits of the field at `U` in the words. -/
def Holds (ws : List (BitVec W)) (f : Field) (U : ℕ) : Prop :=
  ∀ k j, 32 * (k + 1) ≤ j + (U + f.length) → (U ≤ 32 * k ∨ j + U < 32 * (k + 1)) →
    (ws.getD k 0).getLsbD j = (part (BitVec.ofNat W f.value) (U + f.length) k).getLsbD j

theorem extract_in_word (hf : Holds ws f U) (hone : U % 32 + f.length ≤ 32) :
    (ws.getD (U / 32) 0 &&& mask W f.length (U % 32)) >>> (32 - U % 32 - f.length) =
      BitVec.ofNat W (got W f U) := by
  have hpos := f.pos
  refine BitVec.eq_of_getLsbD_eq fun i hi => ?_
  have hword : i < f.length → (ws.getD (U / 32) 0).getLsbD (32 - U % 32 - f.length + i) =
      (BitVec.ofNat W f.value).getLsbD i := by
    intro hin
    have hidx : 32 - U % 32 - f.length + i + (U + f.length) - 32 * (U / 32 + 1) = i := by omega
    have hplace : 32 * (U / 32) < U + f.length ∧ 32 - U % 32 - f.length + i < W ∧
        32 * (U / 32 + 1) ≤ 32 - U % 32 - f.length + i + (U + f.length) := by
      have hle := le_width hW
      omega
    rw [hf _ _ (by omega) (by omega), getLsbD_part, decide_eq_true hplace, hidx, Bool.true_and]
  rw [BitVec.getLsbD_ushiftRight, BitVec.getLsbD_and, getLsbD_mask hW hpos hone]
  rcases id hW with rfl | rfl
  · rw [if_pos rfl, got, if_neg (by omega)]
    by_cases hin : i < f.length
    · have hmask : 32 - U % 32 - f.length ≤ 32 - U % 32 - f.length + i ∧
          32 - U % 32 - f.length + i < 32 - U % 32 := by omega
      rw [hword hin, decide_eq_true hmask, Bool.and_true]
    · have hmask : ¬(32 - U % 32 - f.length ≤ 32 - U % 32 - f.length + i ∧
          32 - U % 32 - f.length + i < 32 - U % 32) := by omega
      rw [getLsbD_value hW (by omega), decide_eq_false hmask, Bool.and_false]
  · rw [if_neg (by decide), got, if_pos ⟨rfl, hone⟩, BitVec.getLsbD_ofNat]
    by_cases hzero : i = 0
    · subst hzero
      have hmask : 32 - U % 32 - f.length + 0 = 32 - U % 32 - f.length := rfl
      rw [hword hpos, decide_eq_true hmask, Bool.and_true, BitVec.getLsbD_ofNat, testBit_zero,
        testBit_zero, mod_mod]
    · have hmask : ¬32 - U % 32 - f.length + i = 32 - U % 32 - f.length := by omega
      have hbit : (f.value % 2).testBit i = false := by
        refine Nat.testBit_lt_two_pow ((Nat.mod_lt _ (by decide)).trans_le ?_)
        exact le_self_pow hzero 2
      rw [decide_eq_false hmask, Bool.and_false, hbit, Bool.and_false]

theorem extract_in_words (hf : Holds ws f U) (htwo : ¬U % 32 + f.length ≤ 32) :
    (ws.getD (U / 32) 0 &&& mask W (32 - U % 32) (U % 32)) <<< (U % 32 + f.length - 32) |||
      ws.getD (U / 32 + 1) 0 >>> (64 - U % 32 - f.length) = BitVec.ofNat W (got W f U) := by
  have hle := f.le
  have hwidth := le_width hW
  have hgot : got W f U = f.value := if_neg fun h => htwo h.2
  have hsplit := div_add_mod U 32
  have hbit := Nat.mod_lt U (y := 32) (by decide)
  rw [hgot]
  generalize U / 32 = word at hsplit ⊢
  generalize U % 32 = bit at hsplit hbit htwo ⊢
  refine BitVec.eq_of_getLsbD_eq fun i hi => ?_
  have hfirst : ∀ i < 32 - bit, (ws.getD word 0).getLsbD i =
      (BitVec.ofNat W f.value).getLsbD (i + (bit + f.length - 32)) := by
    intro i hin
    have hidx : i + (U + f.length) - 32 * (word + 1) = i + (bit + f.length - 32) := by omega
    have hplace : 32 * word < U + f.length ∧ i < W ∧
        32 * (word + 1) ≤ i + (U + f.length) := by omega
    rw [hf _ _ (by omega) (by omega), getLsbD_part, decide_eq_true hplace, hidx, Bool.true_and]
  have hsecond : (ws.getD (word + 1) 0).getLsbD (64 - bit - f.length + i) =
      (decide (64 - bit - f.length + i < W) && (BitVec.ofNat W f.value).getLsbD i) := by
    have hidx : 64 - bit - f.length + i + (U + f.length) - 32 * (word + 1 + 1) = i := by omega
    have hplace : (32 * (word + 1) < U + f.length ∧ 64 - bit - f.length + i < W ∧
        32 * (word + 1 + 1) ≤ 64 - bit - f.length + i + (U + f.length)) ↔
        64 - bit - f.length + i < W := by omega
    rw [hf _ _ (by omega) (by omega), getLsbD_part, hidx, decide_eq_decide.2 hplace]
  rw [BitVec.getLsbD_or, BitVec.getLsbD_shiftLeft, BitVec.getLsbD_and, BitVec.getLsbD_ushiftRight,
    hsecond, getLsbD_mask hW (by omega) (by omega)]
  rcases lt_or_ge i (bit + f.length - 32) with hlow | hhigh
  · have hplace : 64 - bit - f.length + i < W := by omega
    rw [decide_eq_true hlow, decide_eq_true hplace]
    simp
  rcases lt_or_ge i f.length with hin | hout
  · have hidx : i - (bit + f.length - 32) + (bit + f.length - 32) = i := by omega
    rw [hfirst _ (by omega), hidx]
    rcases hW with rfl | rfl
    · have hmask : 32 - bit - (32 - bit) ≤ i - (bit + f.length - 32) ∧
          i - (bit + f.length - 32) < 32 - bit := by omega
      have hplace : ¬64 - bit - f.length + i < 32 := by omega
      rw [if_pos rfl, decide_eq_true hmask, decide_eq_false hplace, decide_eq_true hi,
        decide_eq_false (not_lt.2 hhigh)]
      simp
    · have hplace : 64 - bit - f.length + i < 64 := by omega
      rw [if_neg (by decide), decide_eq_true hplace]
      cases (BitVec.ofNat 64 f.value).getLsbD i <;> simp
  · have hmask : (if W = 32 then decide (32 - bit - (32 - bit) ≤ i - (bit + f.length - 32) ∧
        i - (bit + f.length - 32) < 32 - bit)
        else decide (i - (bit + f.length - 32) = 32 - bit - (32 - bit))) = false := by
      split_ifs
      · rw [decide_eq_false_iff_not]
        omega
      · rw [decide_eq_false_iff_not]
        omega
    rw [hmask, getLsbD_value hW hout]
    simp

theorem Stores.extract (h : Stores v ws T) (hU : v.used.toNat = U) (hend : U + f.length ≤ T)
    (hf : Holds ws f U) : ∃ v', v.extract (BitVec.ofNat W f.length) =
      some (BitVec.ofNat W (got W f U), v') ∧ Stores v' ws T ∧ v'.used.toNat = U + f.length := by
  have hbound := h.bound
  have hn : (BitVec.ofNat W f.length).toNat = f.length := toNat_length hW f.le
  refine ⟨{ v with used := v.used + BitVec.ofNat W f.length }, ?_,
    ⟨h.alth, h.bound, h.length, h.pNV⟩, ?_⟩
  · rw [h.extract_eq hW hU hn f.le f.pos hend]
    split_ifs with hone
    · rw [extract_in_word hW hf hone]
    · rw [extract_in_words hW hf hone]
  · rw [BitVec.toNat_add, hU, hn, mod_eq_of_lt (by omega)]

omit hW in
theorem Full.extract (h : Full v ws U) (hn : n.toNat = m) (hm : 0 < m) (hend : U + m < 2 ^ W) :
    v.extract n = some (none32, v) := by
  refine if_pos ?_
  rw [gt_iff_lt, BitVec.lt_def, BitVec.toNat_add, h.alth, h.used, hn, mod_eq_of_lt hend]
  omega

theorem Full.extract_wrap (h : Full v ws U) (hU : U + 32 = 2 ^ W) :
    v.extract (BitVec.ofNat W 32) = none := by
  have hn : (BitVec.ofNat W 32).toNat = 32 := toNat_length hW (le_refl 32)
  have hmod : 2 ^ W % 32 = 0 ∧ 2 ^ 32 ≤ 2 ^ W := by rcases hW with rfl | rfl <;> decide
  have hmore : ¬v.used + BitVec.ofNat W 32 > v.alth := by
    rw [gt_iff_lt, BitVec.lt_def, BitVec.toNat_add, h.used, hn, hU, mod_self]
    omega
  have hlen := h.length
  have hout : ws[(v.used / bpw).toNat]? = none := by
    rw [getElem?_eq_none_iff, hlen, word_toNat hW, h.used, wordsFor]
    omega
  have hwordAt : v.wordAt (v.used / bpw) = none := by
    rw [wordAt, if_neg (fun heq => absurd ((h.lth_eq_iff hW).1 heq) (by omega)),
      h.array (by omega), bind_some, hout]
  unfold LongVec.extract
  dsimp only
  rw [if_neg hmore, hwordAt]
  rfl

theorem Stores.extractAll (h : Stores v ws (total fields)) (hfields : fields = l₁ ++ l₂)
    (hget : ∀ k, ws.getD k 0 = packed 0 fields k) (hU : v.used.toNat = total l₁) :
    ∃ v', LongVec.extractAll l₂ v = some (gotFrom W (total l₁) l₂, v') ∧
      Stores v' ws (total fields) ∧ v'.used.toNat = total fields := by
  induction l₂ generalizing v l₁ with
  | nil =>
    rw [append_nil] at hfields
    exact ⟨v, rfl, h, hU.trans (congrArg total hfields.symm)⟩
  | cons f l₂ ih =>
    have hend : total l₁ + f.length ≤ total fields := by
      rw [hfields, total_append, total_cons]
      omega
    have hf : Holds ws f (total l₁) := fun k j hj hk => by
      rw [hget, getLsbD_packed hW hfields hj hk]
    obtain ⟨v₁, hone, hstores, hused⟩ := h.extract hW hU hend hf
    have hlast : total (l₁ ++ [f]) = total l₁ + f.length := total_append
    rw [← hlast] at hused
    obtain ⟨v₂, hall, hrest⟩ := ih hstores (by simpa using hfields) hused
    refine ⟨v₂, ?_, hrest⟩
    rw [LongVec.extractAll, hone, bind_eq_bind, bind_some]
    dsimp only
    rw [hall, hlast]
    rfl

theorem got_lt (f : Field) (U : ℕ) : got W f U < 2 ^ W := by
  have hlt := (toNat_value hW f).symm.trans_lt (BitVec.isLt _)
  unfold got
  split_ifs
  · exact (mod_le _ _).trans_lt hlt
  · exact hlt

theorem gotFrom_eq_iff : gotFrom W U l = l.map (fun f => BitVec.ofNat W f.value) ↔
    ∀ l₁ f l₂, l = l₁ ++ f :: l₂ → got W f (U + total l₁) = f.value := by
  induction l generalizing U with
  | nil =>
    refine iff_of_true rfl fun l₁ f l₂ hnil => ?_
    exact absurd hnil.symm (append_ne_nil_of_right_ne_nil _ (cons_ne_nil _ _))
  | cons f l ih =>
    have hhead : BitVec.ofNat W (got W f U) = BitVec.ofNat W f.value ↔ got W f U = f.value := by
      rw [← BitVec.toNat_inj, toNat_value hW, BitVec.toNat_ofNat, mod_eq_of_lt (got_lt hW f U)]
    rw [gotFrom, map_cons, cons_eq_cons, hhead, ih]
    refine ⟨?_, fun h => ⟨h [] f l rfl, fun l₁ g l₂ heq => ?_⟩⟩
    · rintro ⟨hf, hl⟩ l₁ g l₂ heq
      cases l₁ with
      | nil =>
        obtain ⟨rfl, -⟩ := cons_eq_cons.1 heq
        exact hf
      | cons x l₁ =>
        obtain ⟨rfl, heq'⟩ := cons_eq_cons.1 heq
        rw [total_cons, ← add_assoc]
        exact hl l₁ g l₂ heq'
    · have hcons := h (f :: l₁) g l₂ (congrArg _ heq)
      rw [total_cons, ← add_assoc] at hcons
      exact hcons

omit hW in
theorem got_eq_iff : got W f U = f.value ↔
    (W = 64 → f.value < 2 ∨ 32 < U % 32 + f.length) := by
  unfold got
  split_ifs with h
  · omega
  · refine iff_of_true rfl fun h64 => Or.inr ?_
    by_contra hle
    exact h ⟨h64, by omega⟩

omit hW in
theorem bit_clear_iff (hi : i < W) {l : BitVec W} :
    (1 : BitVec W) <<< i &&& l ≠ 0 ↔ l.toNat.testBit i = true := by
  have hone : ∀ j, ((1 : BitVec W) <<< i).getLsbD j = decide (i = j) := fun j => by
    have hpow : (1 : BitVec W) <<< i = BitVec.twoPow W i := rfl
    rw [hpow, BitVec.getLsbD_twoPow, decide_eq_true hi, Bool.true_and]
  refine ⟨fun hne => ?_, fun hbit hzero => ?_⟩
  · by_contra hclear
    refine hne (BitVec.eq_of_getLsbD_eq fun j hj => ?_)
    rw [BitVec.getLsbD_and, hone]
    by_cases hij : i = j
    · subst hij
      exact (and_eq_false_iff.2 (Or.inr (eq_false_iff.2 hclear))).trans
        BitVec.getLsbD_zero.symm
    · rw [decide_eq_false hij]
      exact BitVec.getLsbD_zero.symm
  · have hget : ((1 : BitVec W) <<< i &&& l).getLsbD i = true := by
      rw [BitVec.getLsbD_and, hone, decide_eq_true rfl, Bool.true_and]
      exact hbit
    rw [hzero, BitVec.ofNat_eq_ofNat, BitVec.getLsbD_zero] at hget
    cases hget

omit hW in
theorem bitLength_le {x : ℕ} (hx : x < 2 ^ m) (hm : 0 < m) : bitLength x ≤ m := by
  unfold bitLength
  split_ifs
  · exact hm
  · exact Nat.size_le.2 hx

omit hW in
theorem lt_bitLength {x : ℕ} (hx : 2 ^ m ≤ x) : m < bitLength x := by
  unfold bitLength
  rw [if_neg (Nat.two_pow_pos m |>.trans_le hx).ne']
  exact Nat.lt_size.2 hx

omit hW in
theorem highBit_eq {l : BitVec W} {h : ℕ} (hh : h < W) :
    highBit l h = bitLength (l.toNat % 2 ^ (h + 1)) := by
  induction h with
  | zero =>
    have htwo : l.toNat % 2 ^ (0 + 1) = 0 ∨ l.toNat % 2 ^ (0 + 1) = 1 := mod_two_eq_zero_or_one _
    rcases htwo with hzero | hone
    · rw [hzero]
      rfl
    · rw [hone]
      rfl
  | succ h ih =>
    rw [highBit, mod_pow_succ, ← toNat_testBit]
    split_ifs with hbit
    · have hset := (bit_clear_iff hh).1 hbit
      have hlt := Nat.mod_lt l.toNat (Nat.two_pow_pos (h + 1))
      rw [hset, toNat_true, Nat.mul_one]
      have hpow : 2 ^ (h + 1 + 1) = 2 ^ (h + 1) + 2 ^ (h + 1) := by rw [Nat.pow_succ, Nat.mul_two]
      refine le_antisymm ?_ (bitLength_le ?_ (succ_pos _))
      · exact lt_bitLength (le_add_left _ _)
      · omega
    · have hclear : l.toNat.testBit (h + 1) = false :=
        eq_false_iff.2 fun hset => hbit ((bit_clear_iff hh).2 hset)
      rw [hclear, toNat_false, mul_zero, add_zero]
      exact ih (by omega)

theorem mod_of_low {l : BitVec W} (hlow : l &&& 0xffff0000 = 0) :
    l.toNat % 2 ^ 32 = l.toNat % 2 ^ 16 := by
  refine eq_of_testBit_eq fun i => ?_
  rw [testBit_mod_two_pow, testBit_mod_two_pow]
  by_cases hi : i < 32 ∧ 16 ≤ i
  · have hones : ∀ k < 32, 16 ≤ k → (0xffff0000 : BitVec W).getLsbD k = true := by
      rcases hW with rfl | rfl <;> decide
    have hget : (l &&& 0xffff0000).getLsbD i = false := by
      rw [hlow]
      exact BitVec.getLsbD_zero
    rw [BitVec.getLsbD_and, hones i hi.1 hi.2, Bool.and_true] at hget
    have hclear : l.toNat.testBit i = false := hget
    rw [hclear, Bool.and_false, Bool.and_false]
  · have hsame : i < 32 ↔ i < 16 := by omega
    rw [decide_eq_decide.2 hsame]

theorem getBitl_eq (l : BitVec W) : getBitl l = bitLength (l.toNat % 2 ^ 32) := by
  have hne : ¬(0xffffff00 : BitVec W) = 0 := by rcases hW with rfl | rfl <;> decide
  have hwidth := le_width hW
  unfold getBitl
  dsimp only
  rw [if_neg hne]
  split_ifs with hlow hnone
  · exact absurd BitVec.and_zero hnone
  · rw [highBit_eq (by omega), mod_of_low hW hlow]
  · rw [highBit_eq (by omega)]

theorem getBitl_eq_iff (l : BitVec W) : getBitl l = bitLength l.toNat ↔ l.toNat < 2 ^ 32 := by
  rw [getBitl_eq hW]
  refine ⟨fun heq => ?_, fun hlt => by rw [mod_eq_of_lt hlt]⟩
  by_contra hge
  have hlong : 32 < bitLength l.toNat := lt_bitLength (not_lt.1 hge)
  have hshort : bitLength (l.toNat % 2 ^ 32) ≤ 32 :=
    bitLength_le (Nat.mod_lt _ (Nat.two_pow_pos 32)) (by decide)
  omega

theorem roundTrips_iff_fields : RoundTrips W fields ↔ total fields + 32 < 2 ^ W ∧
    ∀ l₁ f l₂, fields = l₁ ++ f :: l₂ →
      W = 64 → f.value < 2 ∨ 32 < total l₁ % 32 + f.length := by
  have hinit := Full.init hW
  have hgot := gotFrom_eq_iff hW (U := 0) (l := fields)
  simp only [zero_add, got_eq_iff] at hgot
  by_cases hroom : total fields + 32 ≤ 2 ^ W
  · have hsum : 0 + total fields + 32 ≤ 2 ^ W := by omega
    obtain ⟨v, ws, hadd, hfull, hget⟩ := hinit.addAll hW hsum
    rw [zero_add] at hfull
    have hget' : ∀ k, ws.getD k 0 = packed 0 fields k := fun k => by
      have hzero : ([0] : List (BitVec W)).getD k 0 = 0 := by
        cases k <;> rfl
      rw [hget, hzero]
      exact BitVec.zero_or
    have hreset : v.reset.Stores ws (total fields) :=
      ⟨hfull.alth, hfull.bound, hfull.length, hfull.pNV⟩
    have hfields : fields = [] ++ fields := rfl
    obtain ⟨w, hall, hstores, hused⟩ := hreset.extractAll hW hfields hget' rfl
    have hlast : w.Full ws (total fields) := ⟨hstores, hused⟩
    rw [← hgot]
    refine ⟨?_, ?_⟩
    · rintro ⟨v', w', hadd', hall', hmore⟩
      obtain rfl := some.inj (hadd.symm.trans hadd')
      have hpair := Prod.mk.inj (some.inj (hall.symm.trans hall'))
      refine ⟨lt_of_le_of_ne hroom fun hwrap => ?_, hpair.1⟩
      have hnone := hmore 32 (by decide) (le_refl 32)
      rw [← hpair.2, hlast.extract_wrap hW hwrap] at hnone
      cases hnone
    · rintro ⟨hlt, heq⟩
      refine ⟨v, w, hadd, ?_, fun n hpos hle => ?_⟩
      · rw [hall, ← heq]
        rfl
      · rw [hlast.extract (toNat_length hW hle) hpos (by omega)]
        rfl
  · refine iff_of_false ?_ fun h => hroom h.1.le
    rintro ⟨v, w, hadd, -⟩
    rw [hinit.addAll_none hW (by omega)] at hadd
    cases hadd

end Width

/-- With longs of 32 bits the fields come out as they went in while the counts do not wrap. With
longs of 64 bits those do that go on in the next word, and the values 0 and 1. -/
theorem roundTrips_and_getBitl_iff (m : LongModel) (fields : List Field) (l : BitVec m.bits) :
    (RoundTrips m.bits fields ↔ total fields + 32 < 2 ^ m.bits ∧
      ∀ l₁ f l₂, fields = l₁ ++ f :: l₂ →
        m = .lp64 → f.value < 2 ∨ 32 < total l₁ % 32 + f.length) ∧
    (getBitl l = bitLength l.toNat ↔ l.toNat < 2 ^ 32) := by
  have hm : m.bits = 64 ↔ m = .lp64 := by cases m <;> decide
  refine ⟨?_, getBitl_eq_iff m.bits_eq l⟩
  rw [roundTrips_iff_fields m.bits_eq]
  simp only [hm]

/-- The 12 bits of the class's own test, and a number of 33 bits, in words of 64. -/
theorem not_roundTrips_lp64 : ¬RoundTrips 64 [⟨0xfe0, 12, by decide, by decide, by decide⟩] ∧
    getBitl (0x100000000 : BitVec 64) ≠ bitLength 0x100000000 := by
  refine ⟨fun h => ?_, by decide⟩
  obtain ⟨-, hfields⟩ := (roundTrips_iff_fields (Or.inr rfl)).1 h
  have hkept := hfields [] _ [] rfl rfl
  rcases hkept with hsmall | hsplit
  · exact absurd hsmall (by decide)
  · exact absurd hsplit (by decide)

end Ns2.LongVec
