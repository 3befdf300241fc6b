import Mathlib.Data.List.Lex
import Ns2.Diffusion.AttributeCodec

/-! How attributes are compared, and the order of their values. -/

namespace Ns2

open List

/-- `memcmp`: the difference of the first bytes that are not the same. -/
def memcmp : ℕ → List UInt8 → List UInt8 → ℤ
  | n + 1, x :: xs, y :: ys => if x = y then memcmp n xs ys else x.toNat - y.toNat
  | _, _, _ => 0

/-- `strncmp`. -/
def strncmp : ℕ → List UInt8 → List UInt8 → ℤ
  | n + 1, x :: xs, y :: ys =>
    if x = y ∧ x ≠ 0 then strncmp n xs ys else x.toNat - y.toNat
  | _, _, _ => 0

/-- `strcmp`. -/
def strcmp : List UInt8 → List UInt8 → ℤ
  | x :: xs, y :: ys => if x = y ∧ x ≠ 0 then strcmp xs ys else x.toNat - y.toNat
  | _, _ => 0

/-- The place in the order of the numbers that bits of floating point have, with an exponent of `e`
bits and a fraction of `f` bits; `none` is not a number. -/
def floatOrder (e f bits : ℕ) : Option ℤ :=
  let magnitude := bits % 2 ^ (e + f)
  if magnitude > (2 ^ e - 1) * 2 ^ f then none
  else if bits / 2 ^ (e + f) = 0 then some magnitude
  else some (-magnitude)

/-- A comparison of floating point, which is false if one is not a number. -/
def floatTest (cmp : ℤ → ℤ → Bool) : Option ℤ → Option ℤ → Bool
  | some x, some y => cmp x y
  | _, _ => false

namespace NRAttribute

def isOp : UInt8 := 0
def leOp : UInt8 := 1
def geOp : UInt8 := 2
def ltOp : UInt8 := 3
def gtOp : UInt8 := 4
def eqOp : UInt8 := 5
def neOp : UInt8 := 6
def eqAnyOp : UInt8 := 7

/-- `*(int32_t *) val_`. -/
def int32Val (a : NRAttribute) : ℤ := toInt (leVal a.val)

/-- `*(float *) val_`. -/
def float32Val (a : NRAttribute) : Option ℤ := floatOrder 8 23 (leVal a.val)

/-- `*(double *) val_`. -/
def float64Val (a : NRAttribute) : Option ℤ := floatOrder 11 52 (leVal a.val)

def isSameKey (a b : NRAttribute) : Bool := a.type = b.type ∧ a.key = b.key

/-- `isEQ`; `none` is an abort. -/
def isEQ (a b : NRAttribute) : Option Bool :=
  if ¬a.isSameKey b then none
  else if a.type = int32Type then some (a.int32Val = b.int32Val)
  else if a.type = float32Type then some (floatTest (· = ·) a.float32Val b.float32Val)
  else if a.type = float64Type then some (floatTest (· = ·) a.float64Val b.float64Val)
  else if a.type = stringType then
    some (if a.getLen ≠ b.getLen then false else strncmp a.getLen a.val b.val = 0)
  else if a.type = blobType then
    some (if a.getLen ≠ b.getLen then false else memcmp a.getLen a.val b.val = 0)
  else none

def isGT (a b : NRAttribute) : Option Bool :=
  if ¬a.isSameKey b then none
  else if a.type = int32Type then some (a.int32Val > b.int32Val)
  else if a.type = float32Type then some (floatTest (· > ·) a.float32Val b.float32Val)
  else if a.type = float64Type then some (floatTest (· > ·) a.float64Val b.float64Val)
  else if a.type = stringType then some (strncmp (min a.getLen b.getLen) a.val b.val ≠ 0)
  else if a.type = blobType then
    let cmp := memcmp (min a.getLen b.getLen) a.val b.val
    some (cmp > 0 ∨ cmp = 0 ∧ a.getLen > b.getLen)
  else none

def isGE (a b : NRAttribute) : Option Bool :=
  if ¬a.isSameKey b then none
  else if a.type = int32Type then some (a.int32Val ≥ b.int32Val)
  else if a.type = float32Type then some (floatTest (· ≥ ·) a.float32Val b.float32Val)
  else if a.type = float64Type then some (floatTest (· ≥ ·) a.float64Val b.float64Val)
  else if a.type = stringType then some (strcmp a.val b.val ≥ 0)
  else if a.type = blobType then some (memcmp (min a.getLen b.getLen) a.val b.val ≥ 0)
  else none

def isNE (a b : NRAttribute) : Option Bool := (a.isEQ b).map not

def isLT (a b : NRAttribute) : Option Bool := (a.isGE b).map not

def isLE (a b : NRAttribute) : Option Bool := (a.isGT b).map not

/-- The bytes as numbers. -/
def digits (bs : List UInt8) : List ℤ := bs.map fun b => b.toNat

/-- The value of an attribute in the order of its type: a number is one digit, and a string does not
have its terminator. A floating point value that is not a number has no place in the order. -/
def value (a : NRAttribute) : Option (List ℤ) :=
  if a.type = int32Type then some [a.int32Val]
  else if a.type = float32Type then a.float32Val.map fun x => [x]
  else if a.type = float64Type then a.float64Val.map fun x => [x]
  else if a.type = stringType then some (digits (a.val.takeWhile (· ≠ 0)))
  else some (digits a.val)

/-- The values are equal. -/
def Same (a b : NRAttribute) : Prop := ∃ x ∈ a.value, ∃ y ∈ b.value, x = y

/-- The value of `a` is less. -/
def Less (a b : NRAttribute) : Prop := ∃ x ∈ a.value, ∃ y ∈ b.value, x < y

/-- `a` is the beginning of the longer value of `b`. -/
def ProperPrefix (a b : NRAttribute) : Prop := a.val <+: b.val ∧ a.getLen < b.getLen

instance decidableSame (a b : NRAttribute) : Decidable (Same a b) :=
  inferInstanceAs (Decidable (∃ x ∈ a.value, ∃ y ∈ b.value, x = y))

instance decidableLess (a b : NRAttribute) : Decidable (Less a b) :=
  inferInstanceAs (Decidable (∃ x ∈ a.value, ∃ y ∈ b.value, x < y))

instance decidableProperPrefix (a b : NRAttribute) : Decidable (ProperPrefix a b) :=
  inferInstanceAs (Decidable (a.val <+: b.val ∧ a.getLen < b.getLen))

end NRAttribute

open NRAttribute (digits)

section Bytes

variable {xs ys : List UInt8} {x y : ℤ}

theorem singleton_lt_singleton_iff : [x] < [y] ↔ x < y := by
  simp [cons_lt_cons_iff]

theorem digit_inj {b c : UInt8} : (b.toNat : ℤ) = c.toNat ↔ b = c := by
  rw [Nat.cast_inj, UInt8.toNat_inj]

theorem digits_inj : digits xs = digits ys ↔ xs = ys :=
  map_inj_right fun _ _ => digit_inj.1

theorem memcmp_swap (n : ℕ) (xs ys : List UInt8) : memcmp n ys xs = -memcmp n xs ys := by
  induction n generalizing xs ys with
  | zero => rfl
  | succ n ih =>
    cases xs with
    | nil => cases ys <;> rfl
    | cons x xs =>
      cases ys with
      | nil => rfl
      | cons y ys =>
        rw [memcmp, memcmp]
        by_cases h : x = y
        · rw [if_pos h, if_pos h.symm, ih]
        · rw [if_neg h, if_neg (Ne.symm h)]
          omega

theorem memcmp_eq_zero_iff : memcmp (min xs.length ys.length) xs ys = 0 ↔ xs <+: ys ∨ ys <+: xs := by
  induction xs generalizing ys with
  | nil => simp [memcmp]
  | cons x xs ih =>
    cases ys with
    | nil => simp [memcmp]
    | cons y ys =>
      rw [length_cons, length_cons, Nat.succ_min_succ, memcmp, cons_prefix_cons,
        cons_prefix_cons]
      by_cases h : x = y
      · simp [h, ih]
      · have hdigit := mt digit_inj.1 h
        rw [if_neg h]
        simp only [h, Ne.symm h, false_and, or_self, iff_false]
        omega

theorem digits_lt_iff : digits xs < digits ys ↔
    memcmp (min xs.length ys.length) xs ys < 0 ∨ xs <+: ys ∧ xs.length < ys.length := by
  induction xs generalizing ys with
  | nil => cases ys <;> simp [digits, memcmp]
  | cons x xs ih =>
    cases ys with
    | nil => simp [digits, memcmp]
    | cons y ys =>
      rw [length_cons, length_cons, Nat.succ_min_succ, memcmp, cons_prefix_cons]
      simp only [digits, map_cons, cons_lt_cons_iff] at ih ⊢
      by_cases h : x = y
      · simp [h, ih]
      · have hdigit := mt digit_inj.1 h
        rw [if_neg h]
        simp only [h, hdigit, false_and, or_false]
        omega

theorem memcmp_length_eq_zero_iff (h : xs.length = ys.length) :
    memcmp xs.length xs ys = 0 ↔ xs = ys := by
  have hiff := @memcmp_eq_zero_iff xs ys
  rw [h, min_self, ← h] at hiff
  rw [hiff]
  constructor
  · rintro (hp | hp)
    · exact hp.eq_of_length h
    · exact (hp.eq_of_length h.symm).symm
  · rintro rfl
    exact .inl (prefix_refl xs)

theorem strcmp_eq_strncmp {n : ℕ} (hxs : (0 : UInt8) ∉ xs) (hn : min xs.length ys.length < n) :
    strncmp n (xs ++ [0]) (ys ++ [0]) = strcmp (xs ++ [0]) (ys ++ [0]) := by
  induction n generalizing xs ys with
  | zero => omega
  | succ n ih =>
    cases xs with
    | nil => cases ys <;> simp [strncmp, strcmp]
    | cons x xs =>
      obtain ⟨hx, hxs⟩ := not_or.1 (mt mem_cons.2 hxs)
      cases ys with
      | nil => simp [strncmp, strcmp, Ne.symm hx]
      | cons y ys =>
        rw [length_cons, length_cons, Nat.succ_min_succ] at hn
        rw [cons_append, cons_append, strncmp, strcmp, ih hxs (by omega)]

theorem strcmp_swap (xs ys : List UInt8) : strcmp ys xs = -strcmp xs ys := by
  induction xs generalizing ys with
  | nil => cases ys <;> rfl
  | cons x xs ih =>
    cases ys with
    | nil => rfl
    | cons y ys =>
      rw [strcmp, strcmp]
      by_cases h : x = y ∧ x ≠ 0
      · obtain ⟨rfl, hx⟩ := h
        rw [if_pos ⟨rfl, hx⟩, if_pos ⟨rfl, hx⟩, ih]
      · have h' : ¬(y = x ∧ y ≠ 0) := fun hyx => h ⟨hyx.1.symm, hyx.1 ▸ hyx.2⟩
        rw [if_neg h, if_neg h']
        omega

theorem strcmp_neg_iff (hxs : (0 : UInt8) ∉ xs) (hys : (0 : UInt8) ∉ ys) :
    strcmp (xs ++ [0]) (ys ++ [0]) < 0 ↔ digits xs < digits ys := by
  induction xs generalizing ys with
  | nil =>
    cases ys with
    | nil => simp [strcmp, digits]
    | cons y ys =>
      obtain ⟨hy, -⟩ := not_or.1 (mt mem_cons.2 hys)
      have hy' : y.toNat ≠ 0 := fun h => hy (UInt8.toNat_inj.1 h.symm)
      simp [strcmp, digits]
      omega
  | cons x xs ih =>
    obtain ⟨hx, hxs⟩ := not_or.1 (mt mem_cons.2 hxs)
    cases ys with
    | nil => simp [strcmp, digits, Ne.symm hx]
    | cons y ys =>
      obtain ⟨hy, hys⟩ := not_or.1 (mt mem_cons.2 hys)
      rw [cons_append, cons_append, strcmp]
      simp only [digits, map_cons, cons_lt_cons_iff] at ih ⊢
      by_cases h : x = y
      · simp [h, Ne.symm hy, ih hxs hys]
      · have hdigit := mt digit_inj.1 h
        rw [if_neg fun h' => h h'.1]
        omega

theorem strcmp_eq_zero_iff (hxs : (0 : UInt8) ∉ xs) (hys : (0 : UInt8) ∉ ys) :
    strcmp (xs ++ [0]) (ys ++ [0]) = 0 ↔ xs = ys := by
  have hlt := strcmp_neg_iff hxs hys
  have hgt := strcmp_neg_iff hys hxs
  rw [strcmp_swap] at hgt
  rw [← digits_inj]
  rcases lt_trichotomy (digits xs) (digits ys) with h | h | h
  · exact iff_of_false (by have := hlt.2 h; omega) h.ne
  · have h₁ := mt hlt.1 h.not_lt
    have h₂ := mt hgt.1 h.not_gt
    exact iff_of_true (by omega) h
  · exact iff_of_false (by have := hgt.2 h; omega) h.ne'

end Bytes

namespace NRAttribute

variable {a b : NRAttribute}

theorem Made.forms (h : a.Made) : a.type = int32Type ∨ a.type = float32Type ∨ a.type = float64Type ∨
    (a.type = stringType ∧ ∃ cs, (0 : UInt8) ∉ cs ∧ a.val = cs ++ [0]) ∨ a.type = blobType := by
  cases h with
  | int32 key op val => exact .inl rfl
  | float32 key op val => exact .inr (.inl rfl)
  | float64 key op val => exact .inr (.inr (.inl rfl))
  | string key op cs a hcs ha =>
    exact .inr (.inr (.inr (.inl ⟨(string_eq ha).2.1, cs, hcs, (string_eq ha).2.2.2⟩)))
  | blob key op bs a ha => exact .inr (.inr (.inr (.inr (blob_eq ha).2.1)))

theorem Made.string_val (h : a.Made) (hs : a.type = stringType) :
    ∃ cs, (0 : UInt8) ∉ cs ∧ a.val = cs ++ [0] := by
  rcases h.forms with hf | hf | hf | ⟨-, hcs⟩ | hf
  · exact absurd (hf.symm.trans hs) (by decide)
  · exact absurd (hf.symm.trans hs) (by decide)
  · exact absurd (hf.symm.trans hs) (by decide)
  · exact hcs
  · exact absurd (hf.symm.trans hs) (by decide)

theorem takeWhile_terminated {cs : List UInt8} (h : (0 : UInt8) ∉ cs) :
    (cs ++ [0]).takeWhile (· ≠ 0) = cs := by
  rw [takeWhile_append_of_pos]
  · simp
  · intro c hc
    have hc0 : c ≠ 0 := ne_of_mem_of_not_mem hc h
    simpa using hc0

section Value

variable {x y : List ℤ} {m n : Option ℤ}

theorem same_iff (hx : a.value = some x) (hy : b.value = some y) : Same a b ↔ x = y := by
  simp [Same, hx, hy, eq_comm]

theorem less_iff (hx : a.value = some x) (hy : b.value = some y) : Less a b ↔ x < y := by
  simp [Less, hx, hy]

theorem same_iff_number (hm : a.value = m.map fun x => [x]) (hn : b.value = n.map fun x => [x]) :
    Same a b ↔ floatTest (· = ·) m n = true := by
  cases m <;> cases n <;> simp [Same, hm, hn, floatTest, eq_comm]

theorem less_iff_number (hm : a.value = m.map fun x => [x]) (hn : b.value = n.map fun x => [x]) :
    Less b a ↔ floatTest (· > ·) m n = true := by
  cases m <;> cases n <;> simp [Less, hm, hn, floatTest, singleton_lt_singleton_iff]

theorem floatTest_ge (m n : Option ℤ) :
    floatTest (· ≥ ·) m n = (floatTest (· > ·) m n || floatTest (· = ·) m n) := by
  cases m with
  | none => rfl
  | some x =>
    cases n with
    | none => rfl
    | some y => simp [floatTest, le_iff_lt_or_eq, eq_comm]

theorem value_int32 (h : a.type = int32Type) : a.value = (some a.int32Val).map fun x => [x] :=
  if_pos h

theorem value_float32 (h : a.type = float32Type) : a.value = a.float32Val.map fun x => [x] := by
  rw [value, h]
  rfl

theorem value_float64 (h : a.type = float64Type) : a.value = a.float64Val.map fun x => [x] := by
  rw [value, h]
  rfl

theorem value_string {cs : List UInt8} (h : a.type = stringType) (hcs : (0 : UInt8) ∉ cs)
    (hval : a.val = cs ++ [0]) : a.value = some (digits cs) := by
  rw [value, h, hval, takeWhile_terminated hcs]
  rfl

theorem value_blob (h : a.type = blobType) : a.value = some (digits a.val) := by
  rw [value, h]
  rfl

end Value

/-- What `isEQ`, `isGT` and `isGE` say of two attributes of one key and type. -/
structure Compares (a b : NRAttribute) : Prop where
  eq : a.isEQ b = some (decide (Same a b))
  gt : a.isGT b = some (decide (Less b a ∨ a.type = stringType ∧ Less a b))
  ge : a.isGE b = some (decide (Less b a ∨ Same a b ∨ a.type = blobType ∧ ProperPrefix a b))

theorem isSameKey_iff : a.isSameKey b = true ↔ a.type = b.type ∧ a.key = b.key := by
  simp [isSameKey]

theorem compares_number {m n : Option ℤ} (hm : a.value = m.map fun x => [x])
    (hn : b.value = n.map fun x => [x]) (hs : a.type ≠ stringType) (hb : a.type ≠ blobType)
    (heq : a.isEQ b = some (floatTest (· = ·) m n)) (hgt : a.isGT b = some (floatTest (· > ·) m n))
    (hge : a.isGE b = some (floatTest (· ≥ ·) m n)) : Compares a b := by
  have hsame := same_iff_number hm hn
  have hless := less_iff_number hm hn
  constructor
  · simp [heq, hsame]
  · simp [hgt, hless, hs]
  · simp [hge, hsame, hless, hb, floatTest_ge]

theorem compares_string (hkey : a.isSameKey b = true) (ha : a.Made) (hb : b.Made)
    (htype : a.type = stringType) : Compares a b := by
  have htype' : b.type = stringType := (isSameKey_iff.1 hkey).1.symm.trans htype
  obtain ⟨cs, hcs, hval⟩ := ha.string_val htype
  obtain ⟨ds, hds, hval'⟩ := hb.string_val htype'
  have hsame := same_iff (value_string htype hcs hval) (value_string htype' hds hval')
  have hless := less_iff (value_string htype hcs hval) (value_string htype' hds hval')
  have hgreater := less_iff (value_string htype' hds hval') (value_string htype hcs hval)
  have hneg := strcmp_neg_iff hcs hds
  have hzero := strcmp_eq_zero_iff hcs hds
  have hlen : a.getLen = cs.length + 1 := by rw [getLen, hval, length_append]; rfl
  have hlen' : b.getLen = ds.length + 1 := by rw [getLen, hval', length_append]; rfl
  rw [digits_inj, ← hzero] at hsame
  rw [← hneg] at hless
  rw [← strcmp_neg_iff hds hcs, strcmp_swap] at hgreater
  have hcmp {n : ℕ} (hn : min cs.length ds.length < n) :
      strncmp n a.val b.val = strcmp (cs ++ [0]) (ds ++ [0]) := by
    rw [hval, hval', strcmp_eq_strncmp hcs hn]
  constructor
  · have heq : a.isEQ b = some (if a.getLen ≠ b.getLen then false
        else strncmp a.getLen a.val b.val = 0) := by
      rw [isEQ, hkey, htype]
      rfl
    rw [heq, hcmp (by omega)]
    split_ifs with hne
    · have hlen : cs ≠ ds := fun h => hne (by rw [hlen, hlen', h])
      simp [hsame, hzero, hlen]
    · simp [hsame]
  · have hgt : a.isGT b = some (decide (strncmp (min a.getLen b.getLen) a.val b.val ≠ 0)) := by
      rw [isGT, hkey, htype]
      rfl
    rw [hgt, hcmp (by omega), Option.some_inj, decide_eq_decide, hless, hgreater]
    simp only [htype, true_and]
    omega
  · have hge : a.isGE b = some (decide (strcmp a.val b.val ≥ 0)) := by
      rw [isGE, hkey, htype]
      rfl
    have hblob : stringType ≠ blobType := by decide
    rw [hge, hval, hval', Option.some_inj, decide_eq_decide, hsame, hgreater]
    simp only [htype, hblob, false_and, or_false]
    omega

theorem compares_blob (hkey : a.isSameKey b = true) (htype : a.type = blobType) : Compares a b := by
  have htype' : b.type = blobType := (isSameKey_iff.1 hkey).1.symm.trans htype
  have hsame := same_iff (value_blob htype) (value_blob htype')
  have hgreater := less_iff (value_blob htype') (value_blob htype)
  have hlt := @digits_lt_iff a.val b.val
  have hzero := @memcmp_eq_zero_iff a.val b.val
  rw [digits_inj] at hsame
  rw [digits_lt_iff, memcmp_swap, min_comm] at hgreater
  constructor
  · have heq : a.isEQ b = some (if a.getLen ≠ b.getLen then false
        else memcmp a.getLen a.val b.val = 0) := by
      rw [isEQ, hkey, htype]
      rfl
    rw [heq]
    split_ifs with hne
    · have hval : a.val ≠ b.val := fun h => hne (congrArg List.length h)
      simp [hsame, hval]
    · rw [Option.some_inj, decide_eq_decide, hsame]
      exact memcmp_length_eq_zero_iff (not_not.1 hne)
  · have hgt : a.isGT b = some (decide (memcmp (min a.getLen b.getLen) a.val b.val > 0 ∨
        memcmp (min a.getLen b.getLen) a.val b.val = 0 ∧ a.getLen > b.getLen)) := by
      rw [isGT, hkey, htype]
      rfl
    have hstring : blobType ≠ stringType := by decide
    rw [hgt, Option.some_inj, decide_eq_decide, hgreater]
    simp only [htype, hstring, false_and, or_false]
    refine or_congr (by unfold getLen; omega) (and_congr_left fun hlen => ?_)
    refine hzero.trans (or_iff_right fun hpre => ?_)
    exact absurd hpre.length_le (Nat.not_le_of_lt hlen)
  · have hge : a.isGE b = some (decide (memcmp (min a.getLen b.getLen) a.val b.val ≥ 0)) := by
      rw [isGE, hkey, htype]
      rfl
    rw [hge, Option.some_inj, decide_eq_decide, hsame, hgreater]
    simp only [htype, true_and]
    constructor
    · intro h
      rcases lt_or_eq_of_le h with hpos | heq
      · exact .inl (.inl (neg_neg_of_pos hpos))
      · rcases hzero.1 heq.symm with hpre | hpre
        · rcases lt_or_eq_of_le hpre.length_le with hlen | hlen
          · exact .inr (.inr ⟨hpre, hlen⟩)
          · exact .inr (.inl (hpre.eq_of_length hlen))
        · rcases lt_or_eq_of_le hpre.length_le with hlen | hlen
          · exact .inl (.inr ⟨hpre, hlen⟩)
          · exact .inr (.inl (hpre.eq_of_length hlen).symm)
    · rintro ((hneg | ⟨hpre, -⟩) | heq | ⟨hpre, -⟩)
      · exact (neg_neg_iff_pos.1 hneg).le
      · exact (hzero.2 (.inr hpre)).ge
      · exact (hzero.2 (.inl (heq ▸ prefix_refl _))).ge
      · exact (hzero.2 (.inl hpre)).ge

theorem compares (ha : a.Made) (hb : b.Made) (hkey : a.isSameKey b = true) : Compares a b := by
  have hk : ¬¬a.isSameKey b = true := not_not_intro hkey
  have htype := (isSameKey_iff.1 hkey).1
  rcases ha.forms with h | h | h | ⟨h, -⟩ | h
  · refine compares_number (value_int32 h) (value_int32 (htype.symm.trans h)) ?_ ?_ ?_ ?_ ?_
    · rw [h]; decide
    · rw [h]; decide
    · rw [isEQ, if_neg hk, if_pos h, floatTest]
    · rw [isGT, if_neg hk, if_pos h, floatTest]
    · rw [isGE, if_neg hk, if_pos h, floatTest]
  · have h₁ : a.type ≠ int32Type := by rw [h]; decide
    refine compares_number (value_float32 h) (value_float32 (htype.symm.trans h)) ?_ ?_ ?_ ?_ ?_
    · rw [h]; decide
    · rw [h]; decide
    · rw [isEQ, if_neg hk, if_neg h₁, if_pos h]
    · rw [isGT, if_neg hk, if_neg h₁, if_pos h]
    · rw [isGE, if_neg hk, if_neg h₁, if_pos h]
  · have h₁ : a.type ≠ int32Type := by rw [h]; decide
    have h₂ : a.type ≠ float32Type := by rw [h]; decide
    refine compares_number (value_float64 h) (value_float64 (htype.symm.trans h)) ?_ ?_ ?_ ?_ ?_
    · rw [h]; decide
    · rw [h]; decide
    · rw [isEQ, if_neg hk, if_neg h₁, if_neg h₂, if_pos h]
    · rw [isGT, if_neg hk, if_neg h₁, if_neg h₂, if_pos h]
    · rw [isGE, if_neg hk, if_neg h₁, if_neg h₂, if_pos h]
  · exact compares_string hkey ha hb h
  · exact compares_blob hkey h

theorem isEQ_of_not_isSameKey (h : ¬a.isSameKey b = true) : a.isEQ b = none := if_pos h

theorem isGT_of_not_isSameKey (h : ¬a.isSameKey b = true) : a.isGT b = none := if_pos h

theorem isGE_of_not_isSameKey (h : ¬a.isSameKey b = true) : a.isGE b = none := if_pos h

end NRAttribute

end Ns2
