import Mathlib.Algebra.Ring.Nat
import Mathlib.Data.Nat.Size
import Mathlib.Order.Basic
import Mathlib.Tactic.Common

/-! `NixVec` over an `unsigned long` of any width: the words have more bits than `NIX_BPW` where a
`long` has 64. The counts of bits wrap, and `none` is a shift by the width or more, or an access
outside an array. The words that `Add` makes of the fields. With longer words a field that goes on
in the next word leaves its first bits above the bit 31 of that word. -/

namespace Ns2

/-- The `long`s the code is compiled with. -/
inductive LongModel where
  | ilp32
  | lp64
deriving DecidableEq

def LongModel.bits : LongModel → ℕ
  | .ilp32 => 32
  | .lp64 => 64

/-- `m_pNV`, the only word itself or a pointer to the words. -/
inductive LongStore (W : ℕ) where
  | word (w : BitVec W)
  | array (ws : List (BitVec W))

structure LongVec (W : ℕ) where
  pNV : LongStore W
  used : BitVec W
  alth : BitVec W

namespace LongVec

variable {W : ℕ}

def init : LongVec W := ⟨.word 0, 0, 0⟩

/-- `NIX_NONE`. -/
def none32 : BitVec W := 0xffffffff

/-- `NIX_BPW`. -/
def bpw : BitVec W := 32

def shl (w k : BitVec W) : Option (BitVec W) := if k.toNat < W then some (w <<< k) else none

def shr (w k : BitVec W) : Option (BitVec W) := if k.toNat < W then some (w >>> k) else none

/-- `>>` of a `long`. -/
def sar (m k : BitVec W) : Option (BitVec W) := if k.toNat < W then some (m.sshiftRight k.toNat) else none

/-- `m_pNV` as a word. -/
def asWord (v : LongVec W) : Option (BitVec W) :=
  match v.pNV with
  | .word w => some w
  | .array _ => none

/-- `m_pNV` as a pointer. -/
def asArray (v : LongVec W) : Option (List (BitVec W)) :=
  match v.pNV with
  | .word _ => none
  | .array ws => some ws

/-- `Lth`. -/
def lth (v : LongVec W) : BitVec W := if v.alth = 0 then bpw else ((v.alth - 1) / bpw + 1) * bpw

/-- `m_pNV[i] |= bits`. -/
def orAt (i bits : BitVec W) (ws : List (BitVec W)) : Option (List (BitVec W)) :=
  if i.toNat < ws.length then some (ws.modify i.toNat (· ||| bits)) else none

/-- The words that `pNew` gets from the vector. -/
def oldWords (v : LongVec W) : Option (List (BitVec W)) :=
  if v.lth = bpw then v.asWord.map fun w => [w] else v.asArray

/-- `pNew`, for the old words and one more. -/
def pNew (newlth : BitVec W) (v : LongVec W) : Option (List (BitVec W)) := do
  let old ← v.oldWords
  if old.length + 1 = (newlth / bpw).toNat then some (old ++ [0]) else none

/-- The words with the `n` bits of `p`. -/
def newStore (p n : BitVec W) (v : LongVec W) : Option (LongStore W) :=
  if v.used + n > v.lth then do
    let newlth := v.lth + bpw
    let pNew ← v.pNew newlth
    if v.used = v.lth then do
      let newbits ← shl p (bpw - v.used + (newlth - 32) - n)
      (orAt (v.used / bpw) newbits pNew).map .array
    else do
      let left := v.lth - v.used
      let newbits ← shr p (n - left)
      let pNew ← orAt (v.used / bpw) newbits pNew
      let newbits ← shl p (bpw - (n - left))
      (orAt (v.used / bpw + 1) newbits pNew).map .array
  else do
    let newbits ← shl p (bpw - v.used + (v.lth - 32) - n)
    if v.lth = bpw then v.asWord.map fun w => .word (w ||| newbits)
    else do
      let ws ← v.asArray
      (orAt (v.used / bpw) newbits ws).map .array

/-- `Add` of the `n` bits of `p`. -/
def add (p n : BitVec W) (v : LongVec W) : Option (LongVec W) :=
  if n = 0 then some v
  else
    let newused := v.used + n
    (v.newStore p n).map fun store =>
      ⟨store, newused, if newused > v.alth then newused else v.alth⟩

def wordAt (word : BitVec W) (v : LongVec W) : Option (BitVec W) :=
  if v.lth = bpw then v.asWord else v.asArray.bind fun ws => ws[word.toNat]?

/-- `Extract` of the next `n` bits. -/
def extract (n : BitVec W) (v : LongVec W) : Option (BitVec W × LongVec W) :=
  let word := v.used / bpw
  let bit := v.used - word * bpw
  let m : BitVec W := 0x80000000
  if v.used + n > v.alth then some (none32, v)
  else do
    let w ← v.wordAt word
    if bit + n ≤ bpw then do
      let u ← sar m (n - 1)
      let u ← shr u bit
      let w ← shr (w &&& u) (bpw - bit - n)
      some (w, { v with used := v.used + n })
    else do
      let t := bpw - bit
      let u ← sar m (t - 1)
      let u ← shr u bit
      let t := n - t
      let w ← shl (w &&& u) t
      -- the mask for the second word is not used
      let _ ← sar m (t - 1)
      let next ← v.asArray.bind fun ws => ws[(word + 1).toNat]?
      let next ← shr next (bpw - t)
      some (w ||| next, { v with used := v.used + n })

def reset (v : LongVec W) : LongVec W := { v with used := 0 }

/-- The search for the highest bit from `h` down. -/
def highBit (l : BitVec W) : ℕ → ℕ
  | 0 => 1
  | h + 1 => if (1 : BitVec W) <<< (h + 1) &&& l ≠ 0 then h + 1 + 1 else highBit l h

/-- `GetBitl`. In the inner condition `==` binds more tightly than `&`. -/
def getBitl (l : BitVec W) : ℕ :=
  let isZero : BitVec W := if (0xffffff00 : BitVec W) = 0 then 1 else 0
  highBit l (if l &&& 0xffff0000 = 0 then (if l &&& isZero ≠ 0 then 7 else 15) else 31)

/-- A value and the number of bits it is given. -/
structure Field where
  value : ℕ
  length : ℕ
  pos : 0 < length
  le : length ≤ 32
  lt : value < 2 ^ length

/-- The fields are added in order. -/
def addAll (fields : List Field) (v : LongVec W) : Option (LongVec W) :=
  fields.foldlM (fun v f => v.add (BitVec.ofNat W f.value) (BitVec.ofNat W f.length)) v

/-- Fields of the same lengths are extracted in order. -/
def extractAll : List Field → LongVec W → Option (List (BitVec W) × LongVec W)
  | [], v => some ([], v)
  | f :: fields, v => do
    let (p, v) ← v.extract (BitVec.ofNat W f.length)
    let (ps, v) ← extractAll fields v
    some (p :: ps, v)

/-- The values come out as they went in, and then nothing more. -/
def RoundTrips (W : ℕ) (fields : List Field) : Prop :=
  ∃ v w : LongVec W, addAll fields init = some v ∧
    extractAll fields v.reset = some (fields.map fun f => BitVec.ofNat W f.value, w) ∧
    ∀ n, 0 < n → n ≤ 32 → (w.extract (BitVec.ofNat W n)).map Prod.fst = some none32

/-- The number of bits of `l`, 1 for 0. -/
def bitLength (l : ℕ) : ℕ := if l = 0 then 1 else l.size

end LongVec

open List Option

theorem LongModel.bits_eq (m : LongModel) : m.bits = 32 ∨ m.bits = 64 := by
  cases m
  · exact Or.inl rfl
  · exact Or.inr rfl

namespace LongVec

variable {W : ℕ} {v : LongVec W} {ws : List (BitVec W)} {U E j k m : ℕ} {f : Field}
  {u l n p bits : BitVec W}

/-- The number of words for `U` bits. -/
def wordsFor (U : ℕ) : ℕ := max 1 ((U + 31) / 32)

/-- What the field `p` that ends before the bit `E` adds to the word `k`. -/
def part (p : BitVec W) (E k : ℕ) : BitVec W :=
  if 32 * k < E then
    if E ≤ 32 * (k + 1) then p <<< (32 * (k + 1) - E) else p >>> (E - 32 * (k + 1))
  else 0

/-- `m_pNV` for the words of `U` bits. -/
def storeOf (ws : List (BitVec W)) (U : ℕ) : LongStore W :=
  if U ≤ 32 then .word (ws.getD 0 0) else .array ws

/-- The words of a vector of `U` bits. -/
structure Stores (v : LongVec W) (ws : List (BitVec W)) (U : ℕ) : Prop where
  alth : v.alth.toNat = U
  bound : U + 32 ≤ 2 ^ W
  length : ws.length = wordsFor U
  pNV : v.pNV = storeOf ws U

/-- All the bits of the vector are used. -/
structure Full (v : LongVec W) (ws : List (BitVec W)) (U : ℕ) : Prop extends Stores v ws U where
  used : v.used.toNat = U

theorem part_of_end_le (h : E ≤ 32 * k) : part p E k = 0 := if_neg (by omega)

theorem getD_modify {i : ℕ} (hi : i < ws.length) :
    (ws.modify i (· ||| bits)).getD k 0 = ws.getD k 0 ||| if k = i then bits else 0 := by
  rw [getD_eq_getElem?_getD, getD_eq_getElem?_getD, getElem?_modify]
  by_cases h : k = i
  · subst h
    simp [getElem?_eq_getElem hi]
  · simp [h, Ne.symm h]

theorem getD_append_zero : (ws ++ [0]).getD k 0 = ws.getD k 0 := by
  rw [getD_eq_getElem?_getD, getD_eq_getElem?_getD]
  rcases lt_trichotomy k ws.length with h | h | h
  · rw [getElem?_append_left h]
  · rw [getElem?_append_right h.ge, h, Nat.sub_self, getElem?_eq_none le_rfl]
    rfl
  · rw [getElem?_eq_none (by simp; omega), getElem?_eq_none h.le]

theorem Stores.word (h : Stores v ws U) (hU : U ≤ 32) : v.asWord = some (ws.getD 0 0) := by
  rw [asWord, h.pNV, storeOf, if_pos hU]

theorem Stores.array (h : Stores v ws U) (hU : 32 < U) : v.asArray = some ws := by
  rw [asArray, h.pNV, storeOf, if_neg (by omega)]

theorem orAt_of_lt (h : u.toNat < ws.length) :
    orAt u bits ws = some (ws.modify u.toNat (· ||| bits)) := if_pos h

section Width

variable (hW : W = 32 ∨ W = 64)

include hW

theorem le_width : 32 ≤ W := by
  rcases hW with rfl | rfl <;> decide

theorem toNat_bpw : (bpw : BitVec W).toNat = 32 := by
  rcases hW with rfl | rfl <;> rfl

theorem toNat_value (f : Field) : (BitVec.ofNat W f.value).toNat = f.value := by
  rw [BitVec.toNat_ofNat]
  refine Nat.mod_eq_of_lt (f.lt.trans_le (Nat.pow_le_pow_right (by decide) ?_))
  exact f.le.trans (le_width hW)

theorem toNat_length (hn : j ≤ 32) : (BitVec.ofNat W j).toNat = j := by
  rw [BitVec.toNat_ofNat]
  refine Nat.mod_eq_of_lt ?_
  rcases hW with rfl | rfl <;> omega

theorem lth_toNat (h : v.alth.toNat = U) (hU : U + 32 ≤ 2 ^ W) :
    v.lth.toNat = 32 * wordsFor U := by
  subst h
  unfold lth bpw wordsFor
  rcases hW with rfl | rfl
  · split_ifs with h
    · simp [h]
    · have hne : v.alth.toNat ≠ 0 := fun hzero => h (BitVec.eq_of_toNat_eq hzero)
      simp only [BitVec.toNat_mul, BitVec.toNat_add, BitVec.toNat_udiv, BitVec.toNat_sub]
      simp
      omega
  · split_ifs with h
    · simp [h]
    · have hne : v.alth.toNat ≠ 0 := fun hzero => h (BitVec.eq_of_toNat_eq hzero)
      simp only [BitVec.toNat_mul, BitVec.toNat_add, BitVec.toNat_udiv, BitVec.toNat_sub]
      simp
      omega

theorem Stores.lth (h : Stores v ws U) : v.lth.toNat = 32 * wordsFor U :=
  lth_toNat hW h.alth h.bound

theorem Stores.lth_eq_iff (h : Stores v ws U) : v.lth = bpw ↔ U ≤ 32 := by
  rw [← BitVec.toNat_inj, h.lth hW, toNat_bpw hW, wordsFor]
  omega

theorem shift_toNat (h : u.toNat + n.toNat ≤ l.toNat) (hn : n.toNat ≤ 32) (hl : 32 ≤ l.toNat) :
    (bpw - u + (l - 32) - n).toNat = l.toNat - u.toNat - n.toNat := by
  unfold bpw
  rcases hW with rfl | rfl <;> bv_omega

theorem word_toNat : (u / bpw).toNat = u.toNat / 32 := by
  rw [BitVec.toNat_udiv, toNat_bpw hW]

theorem next_toNat : (u / bpw + 1).toNat = u.toNat / 32 + 1 := by
  have hword := word_toNat hW (u := u)
  rcases hW with rfl | rfl <;> bv_omega

theorem shl_of_lt (h : u.toNat < 32) : shl p u = some (p <<< u.toNat) :=
  if_pos (h.trans_le (le_width hW))

theorem shr_of_lt (h : u.toNat < 32) : shr p u = some (p >>> u.toNat) :=
  if_pos (h.trans_le (le_width hW))

theorem part_of_le_start (h : 32 * (k + 1) + f.length ≤ E) :
    part (BitVec.ofNat W f.value) E k = 0 := by
  have hpos := f.pos
  unfold part
  rw [if_pos (by omega), if_neg (by omega)]
  refine BitVec.eq_of_toNat_eq ?_
  rw [BitVec.toNat_ushiftRight, toNat_value hW, Nat.shiftRight_eq_div_pow, BitVec.ofNat_eq_ofNat,
    BitVec.toNat_zero]
  refine Nat.div_eq_of_lt (f.lt.trans_le (Nat.pow_le_pow_right (by decide) ?_))
  omega

theorem part_in_word (hend : U + f.length ≤ 32 * (U / 32 + 1)) :
    part (BitVec.ofNat W f.value) (U + f.length) k =
      if k = U / 32 then BitVec.ofNat W f.value <<< (32 * (U / 32 + 1) - (U + f.length)) else 0 := by
  have hpos := f.pos
  rcases lt_trichotomy k (U / 32) with hk | rfl | hk
  · rw [if_neg (by omega), part_of_le_start hW (by omega)]
  · rw [if_pos rfl, part, if_pos (by omega), if_pos hend]
  · rw [if_neg (by omega), part_of_end_le (by omega)]

theorem part_in_words (hend : 32 * (U / 32 + 1) < U + f.length) :
    part (BitVec.ofNat W f.value) (U + f.length) k =
      (if k = U / 32 then BitVec.ofNat W f.value >>> (U + f.length - 32 * (U / 32 + 1)) else 0) |||
        if k = U / 32 + 1 then
          BitVec.ofNat W f.value <<< (32 * (U / 32 + 2) - (U + f.length)) else 0 := by
  have hle := f.le
  rcases lt_trichotomy k (U / 32) with hk | rfl | hk
  · rw [if_neg (by omega), if_neg (by omega), part_of_le_start hW (by omega), BitVec.or_self]
  · rw [if_pos rfl, if_neg (by omega), part, if_pos (by omega), if_neg (by omega)]
    exact BitVec.or_zero.symm
  · rw [if_neg (by omega)]
    by_cases hnext : k = U / 32 + 1
    · subst hnext
      rw [if_pos rfl, part, if_pos (by omega), if_pos (by omega)]
      exact BitVec.zero_or.symm
    · rw [if_neg hnext, part_of_end_le (by omega), BitVec.or_self]

theorem Stores.oldWords (h : Stores v ws U) : v.oldWords = some ws := by
  have hlen := h.length
  unfold LongVec.oldWords
  by_cases hU : U ≤ 32
  · have hone : ws.length = 1 := by
      rw [hlen, wordsFor]
      omega
    obtain ⟨w, rfl⟩ := length_eq_one_iff.1 hone
    rw [if_pos ((h.lth_eq_iff hW).2 hU), h.word hU]
    rfl
  · rw [if_neg (fun heq => hU ((h.lth_eq_iff hW).1 heq)), h.array (by omega)]

theorem Stores.pNew (h : Stores v ws U) (hnew : 32 * wordsFor U + 32 < 2 ^ W) :
    v.pNew (v.lth + bpw) = some (ws ++ [0]) := by
  have hlth := h.lth hW
  unfold LongVec.pNew
  rw [h.oldWords hW, bind_eq_bind, bind_some, if_pos]
  rw [word_toNat hW, BitVec.toNat_add, toNat_bpw hW, hlth, Nat.mod_eq_of_lt hnew, h.length]
  omega

theorem Stores.pNew_wrap (h : Stores v ws U) (hwrap : 32 * wordsFor U + 32 = 2 ^ W) :
    v.pNew (v.lth + bpw) = none := by
  have hlth := h.lth hW
  unfold LongVec.pNew
  rw [h.oldWords hW, bind_eq_bind, bind_some, if_neg]
  rw [word_toNat hW, BitVec.toNat_add, toNat_bpw hW, hlth, hwrap, Nat.mod_self]
  omega

theorem Full.grows_iff (h : Full v ws U) (hn : U + n.toNat < 2 ^ W) :
    v.used + n > v.lth ↔ U + n.toNat > 32 * wordsFor U := by
  rw [gt_iff_lt, BitVec.lt_def, h.lth hW, BitVec.toNat_add, h.used, Nat.mod_eq_of_lt hn]

section

variable (h : Full v ws U) (hn : n.toNat = m) (hm : m ≤ 32)
include h hn hm

theorem Full.newStore_inside (hpos : 0 < m) (hend : U + m ≤ 32 * wordsFor U) : v.newStore p n =
      some (storeOf (ws.modify (U / 32) (· ||| p <<< (32 * (U / 32 + 1) - (U + m))))
        (U + m)) := by
  subst hn
  have hlth := h.lth hW
  have hlen := h.length
  have hbound : 32 * wordsFor U < 2 ^ W := hlth ▸ v.lth.isLt
  have hwords : wordsFor U = U / 32 + 1 ∧ U ≠ 32 := by
    unfold wordsFor at hend ⊢
    omega
  have hshift : (bpw - v.used + (v.lth - 32) - n).toNat = 32 * (U / 32 + 1) - (U + n.toNat) := by
    rw [shift_toNat hW (by rw [h.used, hlth]; exact hend) hm (by omega), h.used, hlth]
    omega
  have hword : (v.used / bpw).toNat = U / 32 := by rw [word_toNat hW, h.used]
  unfold newStore
  rw [if_neg (by rw [h.grows_iff hW (by omega)]; omega), shl_of_lt hW (by omega),
    bind_eq_bind, bind_some, hshift]
  by_cases hone : U ≤ 32
  · have hzero : U / 32 = 0 := by omega
    rw [if_pos ((h.lth_eq_iff hW).2 hone), h.word hone, storeOf, if_pos (by omega),
      getD_modify (by omega), if_pos hzero.symm]
    rfl
  · rw [if_neg (fun heq => hone ((h.lth_eq_iff hW).1 heq)), h.array (by omega),
      bind_eq_bind, bind_some, orAt_of_lt (by omega), hword, storeOf,
      if_neg (by omega)]
    rfl

theorem Full.newStore_next (hpos : 0 < m)
    (hU : U = 32 * wordsFor U) (hnew : U + m + 32 ≤ 2 ^ W) : v.newStore p n =
      some (storeOf ((ws ++ [0]).modify (U / 32)
        (· ||| p <<< (32 * (U / 32 + 1) - (U + m)))) (U + m)) := by
  subst hn
  have hlth := h.lth hW
  have hlen := h.length
  have hroom : 32 * wordsFor U + 32 < 2 ^ W := by omega
  have hone : 0 < wordsFor U := by
    unfold wordsFor
    omega
  have hnewlth : (v.lth + bpw).toNat = U + 32 := by
    rw [BitVec.toNat_add, hlth, toNat_bpw hW, Nat.mod_eq_of_lt hroom, ← hU]
  have hshift : (bpw - v.used + (v.lth + bpw - 32) - n).toNat =
      32 * (U / 32 + 1) - (U + n.toNat) := by
    rw [shift_toNat hW (by rw [h.used, hnewlth]; omega) hm (by omega), h.used, hnewlth]
    omega
  have hword : (v.used / bpw).toNat = U / 32 := by rw [word_toNat hW, h.used]
  have hused : v.used = v.lth := by
    rw [← BitVec.toNat_inj, h.used, hlth]
    exact hU
  have hlt : (v.used / bpw).toNat < (ws ++ [0]).length := by
    rw [length_append, length_singleton, hword]
    omega
  unfold newStore
  dsimp only
  rw [if_pos (by rw [h.grows_iff hW (by omega)]; omega), h.pNew hW hroom, bind_eq_bind,
    bind_some, if_pos hused, shl_of_lt hW (by omega), bind_eq_bind,
    bind_some, hshift, orAt_of_lt hlt, hword, storeOf, if_neg (by omega)]
  rfl

theorem Full.newStore_split (hU : U < 32 * wordsFor U)
    (hend : 32 * wordsFor U < U + m) (hnew : U + m + 32 ≤ 2 ^ W) : v.newStore p n =
      some (storeOf (((ws ++ [0]).modify (U / 32)
        (· ||| p >>> (U + m - 32 * (U / 32 + 1)))).modify (U / 32 + 1)
        (· ||| p <<< (32 * (U / 32 + 2) - (U + m)))) (U + m)) := by
  subst hn
  have hlth := h.lth hW
  have hlen := h.length
  have hroom : 32 * wordsFor U + 32 < 2 ^ W := by omega
  have hwords : wordsFor U = U / 32 + 1 := by
    unfold wordsFor at hU hend ⊢
    omega
  have hword : (v.used / bpw).toNat = U / 32 := by rw [word_toNat hW, h.used]
  have hnext : (v.used / bpw + 1).toNat = U / 32 + 1 := by rw [next_toNat hW, h.used]
  have hused : v.used ≠ v.lth := by
    rw [Ne, ← BitVec.toNat_inj, h.used, hlth]
    omega
  have hleft : (v.lth - v.used).toNat = 32 * (U / 32 + 1) - U := by
    rw [BitVec.toNat_sub_of_le (by rw [BitVec.le_def, h.used, hlth]; omega), h.used, hlth, hwords]
  have hrest : (n - (v.lth - v.used)).toNat = U + n.toNat - 32 * (U / 32 + 1) := by
    rw [BitVec.toNat_sub_of_le (by rw [BitVec.le_def, hleft]; omega), hleft]
    omega
  have hshift : (bpw - (n - (v.lth - v.used))).toNat = 32 * (U / 32 + 2) - (U + n.toNat) := by
    rw [BitVec.toNat_sub_of_le (by rw [BitVec.le_def, hrest, toNat_bpw hW]; omega), hrest,
      toNat_bpw hW]
    omega
  have hlt : (v.used / bpw).toNat < (ws ++ [0]).length := by
    rw [length_append, length_singleton, hword]
    omega
  have hlt' : (v.used / bpw + 1).toNat < ((ws ++ [0]).modify (U / 32)
      (· ||| p >>> (U + n.toNat - 32 * (U / 32 + 1)))).length := by
    rw [length_modify, length_append, length_singleton, hnext]
    omega
  unfold newStore
  dsimp only
  rw [if_pos (by rw [h.grows_iff hW (by omega)]; omega), h.pNew hW hroom, bind_eq_bind,
    bind_some, if_neg hused, shr_of_lt hW (by omega), bind_eq_bind,
    bind_some, hrest, orAt_of_lt hlt, hword, bind_some, shl_of_lt hW (by omega),
    bind_some, hshift, orAt_of_lt hlt', hnext, storeOf, if_neg (by omega)]
  rfl

end

omit hW in
theorem Full.add_of_store {ws' : List (BitVec W)} (h : Full v ws U) (hn : n.toNat = m) (hpos : 0 < m)
    (hnew : U + m + 32 ≤ 2 ^ W) (hlen : ws'.length = wordsFor (U + m))
    (hstore : v.newStore p n = some (storeOf ws' (U + m))) :
    ∃ v', v.add p n = some v' ∧ Full v' ws' (U + m) := by
  subst hn
  have hused : (v.used + n).toNat = U + n.toNat := by
    rw [BitVec.toNat_add, h.used, Nat.mod_eq_of_lt (by omega)]
  have hmore : v.used + n > v.alth := by
    rw [gt_iff_lt, BitVec.lt_def, hused, h.alth]
    omega
  have hne : n ≠ 0 := by
    intro hzero
    rw [hzero] at hpos
    exact absurd hpos (by simp)
  refine ⟨⟨storeOf ws' (U + n.toNat), v.used + n, v.used + n⟩, ?_, ⟨hused, hnew, hlen, rfl⟩, hused⟩
  rw [LongVec.add, if_neg hne, hstore, map_some, if_pos hmore]

theorem Full.add (h : Full v ws U) (f : Field) (hnew : U + f.length + 32 ≤ 2 ^ W) :
    ∃ v' ws', v.add (BitVec.ofNat W f.value) (BitVec.ofNat W f.length) = some v' ∧
      Full v' ws' (U + f.length) ∧
      ∀ k, ws'.getD k 0 = ws.getD k 0 ||| part (BitVec.ofNat W f.value) (U + f.length) k := by
  have hlen := h.length
  have hpos := f.pos
  have hle := f.le
  have hn : (BitVec.ofNat W f.length).toNat = f.length := toNat_length hW hle
  by_cases hgrow : U + f.length ≤ 32 * wordsFor U
  · have hwords : wordsFor U = U / 32 + 1 ∧ wordsFor (U + f.length) = wordsFor U := by
      unfold wordsFor at hgrow ⊢
      omega
    have hstore := h.newStore_inside hW (p := BitVec.ofNat W f.value) hn hle hpos hgrow
    obtain ⟨v', hadd, hfull⟩ := h.add_of_store hn hpos hnew (by simp; omega) hstore
    refine ⟨v', _, hadd, hfull, fun k => ?_⟩
    rw [getD_modify (by omega), part_in_word hW (by omega)]
  have hmore : wordsFor (U + f.length) = wordsFor U + 1 ∧ U ≤ 32 * wordsFor U ∧
      (U = 32 * wordsFor U ∨ wordsFor U = U / 32 + 1) := by
    unfold wordsFor at hgrow ⊢
    omega
  by_cases hnext : U = 32 * wordsFor U
  · have hstore := h.newStore_next hW (p := BitVec.ofNat W f.value) hn hle hpos hnext hnew
    obtain ⟨v', hadd, hfull⟩ := h.add_of_store hn hpos hnew (by simp; omega) hstore
    refine ⟨v', _, hadd, hfull, fun k => ?_⟩
    rw [getD_modify (by simp; omega), getD_append_zero, part_in_word hW (by omega)]
  · have hstore := h.newStore_split hW (p := BitVec.ofNat W f.value) hn hle (by omega) (by omega) hnew
    obtain ⟨v', hadd, hfull⟩ := h.add_of_store hn hpos hnew (by simp; omega) hstore
    refine ⟨v', _, hadd, hfull, fun k => ?_⟩
    rw [getD_modify (by simp; omega), getD_modify (by simp; omega), getD_append_zero,
      BitVec.or_assoc, part_in_words hW (by omega)]

theorem Full.add_none (h : Full v ws U) (f : Field) (hnew : 2 ^ W < U + f.length + 32) :
    v.add (BitVec.ofNat W f.value) (BitVec.ofNat W f.length) = none := by
  have hbound := h.bound
  have hpos := f.pos
  have hle := f.le
  have hn : (BitVec.ofNat W f.length).toNat = f.length := toNat_length hW hle
  generalize BitVec.ofNat W f.length = n at hn
  have hmod : 2 ^ W % 32 = 0 ∧ 2 ^ 32 ≤ 2 ^ W := by rcases hW with rfl | rfl <;> decide
  have hwords : 32 * wordsFor U + 32 = 2 ^ W := by
    unfold wordsFor
    omega
  have hne : n ≠ 0 := by
    intro hzero
    rw [hzero] at hn
    exact absurd hn (by simp; omega)
  rw [LongVec.add, if_neg hne, map_eq_none_iff]
  unfold newStore
  dsimp only
  by_cases hend : U + f.length < 2 ^ W
  · -- the new length is 0
    have hgrows : v.used + n > v.lth := by
      rw [h.grows_iff hW (by omega)]
      omega
    rw [if_pos hgrows, h.pNew_wrap hW hwords]
    rfl
  · -- the count of the used bits is 0, and the shift goes below 0
    have hgrows : ¬v.used + n > v.lth := by
      have hzero : (v.used + n).toNat = 0 := by
        have hsum : U + f.length = 2 ^ W := by omega
        rw [BitVec.toNat_add, h.used, hn, hsum, Nat.mod_self]
      rw [gt_iff_lt, BitVec.lt_def, hzero]
      omega
    have hshift : ¬(bpw - v.used + (v.lth - 32) - n).toNat < W := by
      have hused := h.used
      have hlth := h.lth hW
      unfold bpw
      rcases hW with rfl | rfl <;> bv_omega
    rw [if_neg hgrows, shl, if_neg hshift]
    rfl

end Width

end LongVec

end Ns2
