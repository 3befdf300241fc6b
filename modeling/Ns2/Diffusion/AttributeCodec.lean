import Mathlib.Algebra.BigOperators.Group.List.Basic
import Mathlib.Tactic.Ring
import Ns2.Lib.Buffer

/-! Attributes of directed diffusion, and their records in a packet. The host is little-endian,
and floating point values are their bits. Attributes are unpacked from a packet as they were
packed in it. -/

namespace Ns2

/-- The conversion to `int`. -/
def toInt (n : ℤ) : ℤ := n.bmod (2 ^ 32)

/-- The bytes in network order that `htonl` and `htons` leave in memory. -/
def htonBytes (w n : ℕ) : List UInt8 := (leBytes w n).reverse

def ntohVal (bs : List UInt8) : ℕ := leVal bs.reverse

/-- `val` is what `val_` points at, of `len_` bytes; `len_` is an `int16_t`. -/
structure NRAttribute where
  key : UInt32
  type : UInt8
  op : UInt8
  val : List UInt8
  fits : val.length < 2 ^ 15

namespace NRAttribute

def int32Type : UInt8 := 0
def float32Type : UInt8 := 1
def float64Type : UInt8 := 2
def stringType : UInt8 := 3
def blobType : UInt8 := 4

def getLen (a : NRAttribute) : ℕ := a.val.length

/-- `NRSimpleAttribute<int>`. -/
def int32 (key : UInt32) (op : UInt8) (val : UInt32) : NRAttribute :=
  ⟨key, int32Type, op, leBytes 4 val.toNat, by rw [length_leBytes]; decide⟩

/-- `NRSimpleAttribute<float>`. -/
def float32 (key : UInt32) (op : UInt8) (val : UInt32) : NRAttribute :=
  ⟨key, float32Type, op, leBytes 4 val.toNat, by rw [length_leBytes]; decide⟩

/-- `NRSimpleAttribute<double>`. -/
def float64 (key : UInt32) (op : UInt8) (val : UInt64) : NRAttribute :=
  ⟨key, float64Type, op, leBytes 8 val.toNat, by rw [length_leBytes]; decide⟩

/-- `NRSimpleAttribute<char *>`, where the string and its terminator fit. -/
def string (key : UInt32) (op : UInt8) (cs : List UInt8) : Option NRAttribute :=
  if h : (cs ++ [0]).length < 2 ^ 15 then some ⟨key, stringType, op, cs ++ [0], h⟩ else none

/-- `NRSimpleAttribute<void *>`, where the bytes fit. -/
def blob (key : UInt32) (op : UInt8) (bs : List UInt8) : Option NRAttribute :=
  if h : bs.length < 2 ^ 15 then some ⟨key, blobType, op, bs, h⟩ else none

end NRAttribute

/-- `sizeof(struct hdr_diff)`. -/
def sizeofHdrDiff : ℕ := 24

/-- The padding of a value, which avoids bus errors. -/
def padding (len : ℕ) : ℕ := if len % 4 ≠ 0 then 4 - len % 4 else 0

/-- The record of a value: a `PackedAttribute` up to `val_`, the value and the padding. -/
def recordSize (len : ℕ) : ℕ := 12 - 4 + len + padding len

def calculateSize (vec : List NRAttribute) : ℤ :=
  vec.foldl (fun total a => toInt (total + recordSize a.getLen)) 0

/-- The size in bytes of the array of `int`; `none` if there is none of that size. -/
def allocateBuffer (vec : List NRAttribute) : Option ℕ :=
  let len := toInt (calculateSize vec + sizeofHdrDiff)
  if len < 0 then none else some (4 * (1 + len.toNat / 4))

/-- The bytes that are assigned to the fields of a `PackedAttribute` at `pos`. -/
def packedFields (a : NRAttribute) (pos : ℕ) : List (ℕ × List UInt8) :=
  [(pos, htonBytes 4 a.key.toNat), (pos + 4, [a.type]), (pos + 5, [a.op]),
    (pos + 6, htonBytes 2 a.getLen)] ++
  if a.getLen > 0 then
    [(pos + 8, if a.type = NRAttribute.int32Type then htonBytes 4 (leVal a.val) else a.val)]
  else []

def packAttr (a : NRAttribute) (pos : ℕ) (b : Buffer) : Option Buffer :=
  (packedFields a pos).foldlM (fun b f => b.store f.1 f.2) b

def packFrom : List NRAttribute → ℕ → ℤ → Buffer → Option (Buffer × ℤ)
  | [], _, total, b => some (b, total)
  | a :: vec, pos, total, b => do
    let b ← packAttr a pos b
    packFrom vec (pos + recordSize a.getLen) (toInt (total + recordSize a.getLen)) b

/-- The packet and the total length. -/
def packAttrs (vec : List NRAttribute) (start : ℕ) (b : Buffer) : Option (Buffer × ℤ) :=
  packFrom vec start 0 b

/-- The attribute of the record at `pos`, if its type is known; `none` where a byte out of the packet
is read, or a value does not fit. -/
def unpackAttr (b : Buffer) (pos : ℕ) : Option (Option NRAttribute) := do
  let type ← b.load (pos + 4) 1
  let key ← b.load pos 4
  let op ← b.load (pos + 5) 1
  let key := UInt32.ofNat (ntohVal key)
  let op := op.headD 0
  if type = [NRAttribute.int32Type] then
    let val ← b.load (pos + 8) 4
    some (NRAttribute.int32 key op (UInt32.ofNat (ntohVal val)))
  else if type = [NRAttribute.float32Type] then
    let val ← b.load (pos + 8) 4
    some (NRAttribute.float32 key op (UInt32.ofNat (leVal val)))
  else if type = [NRAttribute.float64Type] then
    let val ← b.load (pos + 8) 8
    some (NRAttribute.float64 key op (UInt64.ofNat (leVal val)))
  else if type = [NRAttribute.stringType] then
    let cs ← b.loadString (b.size - (pos + 8)) (pos + 8)
    let a ← NRAttribute.string key op cs
    some a
  else if type = [NRAttribute.blobType] then
    let len ← b.load (pos + 6) 2
    let bs ← b.load (pos + 8) (ntohVal len)
    let a ← NRAttribute.blob key op bs
    some a
  else some none

def unpackFrom (b : Buffer) : ℕ → ℕ → Option (List NRAttribute)
  | 0, _ => some []
  | numAttr + 1, pos => do
    let a ← unpackAttr b pos
    let len ← b.load (pos + 6) 2
    let vec ← unpackFrom b numAttr (pos + recordSize (ntohVal len))
    some (a.toList ++ vec)

def unpackAttrs (b : Buffer) (numAttr : ℕ) : Option (List NRAttribute) :=
  unpackFrom b numAttr sizeofHdrDiff

open List Option

namespace NRAttribute

/-- The attributes of the five types. -/
inductive Made : NRAttribute → Prop
  | int32 (key : UInt32) (op : UInt8) (val : UInt32) : Made (int32 key op val)
  | float32 (key : UInt32) (op : UInt8) (val : UInt32) : Made (float32 key op val)
  | float64 (key : UInt32) (op : UInt8) (val : UInt64) : Made (float64 key op val)
  | string (key : UInt32) (op : UInt8) (cs : List UInt8) (a : NRAttribute)
    (hcs : (0 : UInt8) ∉ cs) (ha : string key op cs = some a) : Made a
  | blob (key : UInt32) (op : UInt8) (bs : List UInt8) (a : NRAttribute)
    (ha : blob key op bs = some a) : Made a

variable {a : NRAttribute}

/-- The bytes of the value in a record. -/
def payload (a : NRAttribute) : List UInt8 :=
  if a.type = int32Type then htonBytes 4 (leVal a.val) else a.val

theorem string_eq {key : UInt32} {op : UInt8} {cs : List UInt8} (h : string key op cs = some a) :
    a.key = key ∧ a.type = stringType ∧ a.op = op ∧ a.val = cs ++ [0] := by
  unfold string at h
  split_ifs at h
  obtain rfl := some.inj h
  exact ⟨rfl, rfl, rfl, rfl⟩

theorem blob_eq {key : UInt32} {op : UInt8} {bs : List UInt8} (h : blob key op bs = some a) :
    a.key = key ∧ a.type = blobType ∧ a.op = op ∧ a.val = bs := by
  unfold blob at h
  split_ifs at h
  obtain rfl := some.inj h
  exact ⟨rfl, rfl, rfl, rfl⟩

theorem payload_of_ne (h : a.type ≠ int32Type) : a.payload = a.val := if_neg h

end NRAttribute

theorem length_htonBytes (w n : ℕ) : (htonBytes w n).length = w := by
  rw [htonBytes, length_reverse, length_leBytes]

theorem ntohVal_htonBytes {w n : ℕ} (h : n < 256 ^ w) : ntohVal (htonBytes w n) = n := by
  rw [ntohVal, htonBytes, reverse_reverse, leVal_leBytes h]

theorem NRAttribute.Made.length_payload {a : NRAttribute} (h : a.Made) :
    a.payload.length = a.getLen := by
  unfold getLen
  cases h with
  | int32 key op val => exact (length_htonBytes 4 _).trans (length_leBytes 4 _).symm
  | float32 key op val => rfl
  | float64 key op val => rfl
  | string key op cs a hcs ha =>
    rw [payload_of_ne]
    rw [(string_eq ha).2.1]
    decide
  | blob key op bs a ha =>
    rw [payload_of_ne]
    rw [(blob_eq ha).2.1]
    decide

/-- The record of an attribute is in the packet at `pos`. -/
structure Stored (b : Buffer) (pos : ℕ) (a : NRAttribute) : Prop where
  key : b.Has pos (htonBytes 4 a.key.toNat)
  type : b.Has (pos + 4) [a.type]
  op : b.Has (pos + 5) [a.op]
  len : b.Has (pos + 6) (htonBytes 2 a.getLen)
  val : b.Has (pos + 8) a.payload

variable {b b' : Buffer} {pos lo hi : ℕ} {a : NRAttribute} {vec : List NRAttribute} {total : ℤ}

theorem Stored.frame (h : Stored b pos a) (hlen : a.payload.length = a.getLen)
    (hw : Buffer.Within lo hi b b') (hd : pos + 8 + a.getLen ≤ lo) : Stored b' pos a := by
  refine ⟨h.key.frame hw ?_, h.type.frame hw ?_, h.op.frame hw ?_, h.len.frame hw ?_,
    h.val.frame hw ?_⟩
  · rw [length_htonBytes]
    omega
  · rw [length_singleton]
    omega
  · rw [length_singleton]
    omega
  · rw [length_htonBytes]
    omega
  · rw [hlen]
    omega

theorem packedFields_eq (a : NRAttribute) (pos : ℕ) :
    packedFields a pos = [(pos, htonBytes 4 a.key.toNat), (pos + 4, [a.type]),
      (pos + 5, [a.op]), (pos + 6, htonBytes 2 a.getLen)] ++
        if a.getLen > 0 then [(pos + 8, a.payload)] else [] := rfl

theorem packedFields_pairwise (a : NRAttribute) (pos : ℕ) :
    (packedFields a pos).Pairwise fun f g => f.1 + f.2.length ≤ g.1 := by
  rw [packedFields_eq]
  split_ifs <;> simp [length_htonBytes]

theorem packedFields_within (hlen : a.payload.length = a.getLen) :
    ∀ f ∈ packedFields a pos, pos ≤ f.1 ∧ f.1 + f.2.length ≤ pos + 8 + a.getLen := by
  rw [packedFields_eq]
  split_ifs <;> simp [length_htonBytes, hlen] <;> omega

theorem packAttr_spec (pos : ℕ) (b : Buffer) (hlen : a.payload.length = a.getLen)
    (h : pos + 8 + a.getLen ≤ b.size) :
    ∃ b', packAttr a pos b = some b' ∧ Buffer.Within pos (pos + 8 + a.getLen) b b' ∧
      Stored b' pos a := by
  obtain ⟨b', hb', hw, hhas⟩ := Buffer.exists_stores
    (packedFields_pairwise a pos) (packedFields_within hlen) h
  rw [packedFields_eq] at hhas
  have hval : b'.Has (pos + 8) a.payload := by
    rcases Nat.eq_zero_or_pos a.getLen with hz | hpos
    · rw [length_eq_zero_iff.1 (hlen.trans hz)]
      refine ⟨?_, fun i x hx => nomatch hx⟩
      rw [hw.size, length_nil]
      omega
    · exact hhas _ (mem_append_right _ (by rw [if_pos hpos]; exact mem_singleton_self _))
  rw [forall_mem_append] at hhas
  simp only [forall_mem_cons] at hhas
  obtain ⟨⟨hkey, htype, hop, hlen', -⟩, -⟩ := hhas
  exact ⟨b', hb', hw, hkey, htype, hop, hlen', hval⟩

theorem NRAttribute.getLen_lt (a : NRAttribute) : a.getLen < 256 ^ 2 := a.fits.trans (by decide)

theorem Stored.len_load (h : Stored b pos a) :
    b.load (pos + 6) 2 = some (htonBytes 2 a.getLen) := by
  have := h.len.load
  rwa [length_htonBytes] at this

theorem Stored.val_load (h : Stored b pos a) (hlen : a.payload.length = a.getLen) :
    b.load (pos + 8) a.getLen = some a.payload := by
  have := h.val.load
  rwa [hlen] at this

theorem Stored.unpackAttr (h : Stored b pos a) (ha : a.Made) : unpackAttr b pos = some (some a) := by
  have htype : b.load (pos + 4) 1 = some [a.type] := h.type.load
  have hop : b.load (pos + 5) 1 = some [a.op] := h.op.load
  have hkey := h.key.load
  rw [length_htonBytes] at hkey
  have hk : UInt32.ofNat (ntohVal (htonBytes 4 a.key.toNat)) = a.key := by
    rw [ntohVal_htonBytes a.key.toNat_lt, UInt32.ofNat_toNat]
  have hval := h.val_load ha.length_payload
  unfold Ns2.unpackAttr
  rw [htype, hkey, hop]
  simp only [bind_eq_bind, bind_some, hk, headD_cons]
  cases ha with
  | int32 key op val =>
    have hval' : b.load (pos + 8) 4 = some (htonBytes 4 (leVal (leBytes 4 val.toNat))) := hval
    have ht : (NRAttribute.int32 key op val).type = NRAttribute.int32Type := rfl
    rw [ht, if_pos rfl, hval', leVal_leBytes val.toNat_lt]
    simp only [bind_some]
    rw [ntohVal_htonBytes val.toNat_lt, UInt32.ofNat_toNat]
    rfl
  | float32 key op val =>
    have hval' : b.load (pos + 8) 4 = some (leBytes 4 val.toNat) := hval
    have ht : (NRAttribute.float32 key op val).type = NRAttribute.float32Type := rfl
    rw [ht, if_neg (by decide), if_pos rfl, hval']
    simp only [bind_some]
    rw [leVal_leBytes val.toNat_lt, UInt32.ofNat_toNat]
    rfl
  | float64 key op val =>
    have hval' : b.load (pos + 8) 8 = some (leBytes 8 val.toNat) := hval
    have ht : (NRAttribute.float64 key op val).type = NRAttribute.float64Type := rfl
    rw [ht, if_neg (by decide), if_neg (by decide), if_pos rfl, hval']
    simp only [bind_some]
    rw [leVal_leBytes val.toNat_lt, UInt64.ofNat_toNat]
    rfl
  | string key op cs a hcs ha =>
    obtain ⟨rfl, ht, rfl, hv⟩ := NRAttribute.string_eq ha
    have hstr : b.Has (pos + 8) (cs ++ [0]) := by
      rw [← hv, ← NRAttribute.payload_of_ne (by rw [ht]; decide)]
      exact h.val
    have hload := hstr.loadString hcs (b.size - (pos + 8)) (by
      have := hstr.1
      rw [length_append, length_singleton] at this
      omega)
    rw [ht, if_neg (by decide), if_neg (by decide), if_neg (by decide), if_pos rfl, hload]
    simp only [bind_some, ha]
  | blob key op bs a ha =>
    obtain ⟨rfl, ht, rfl, hv⟩ := NRAttribute.blob_eq ha
    have hload := h.val_load (NRAttribute.Made.blob _ _ _ _ ha).length_payload
    rw [NRAttribute.payload_of_ne (by rw [ht]; decide), hv] at hload
    rw [ht, if_neg (by decide), if_neg (by decide), if_neg (by decide), if_neg (by decide),
      if_pos rfl, h.len_load]
    simp only [bind_some]
    rw [ntohVal_htonBytes a.getLen_lt, hload]
    simp only [bind_some, ha]

/-- The size of the records of a vector of attributes. -/
def recordsSize (vec : List NRAttribute) : ℕ := (vec.map fun a => recordSize a.getLen).sum

theorem toInt_add (m n : ℤ) : toInt (toInt m + n) = toInt (m + n) := Int.bmod_add_bmod ..

theorem toInt_of_lt {n : ℕ} (h : n < 2 ^ 31) : toInt n = n := by
  exact Int.bmod_eq_of_le (by omega) (by omega)

theorem foldl_calculateSize (vec : List NRAttribute) (n : ℤ) :
    vec.foldl (fun total a => toInt (total + recordSize a.getLen)) (toInt n) =
      toInt (n + recordsSize vec) := by
  induction vec generalizing n with
  | nil => simp [recordsSize]
  | cons a vec ih =>
    rw [foldl_cons, toInt_add, ih]
    simp only [recordsSize, map_cons, sum_cons, Nat.cast_add, Int.add_assoc]

theorem calculateSize_eq (vec : List NRAttribute) : calculateSize vec = toInt (recordsSize vec) := by
  have := foldl_calculateSize vec 0
  rwa [zero_add] at this

theorem le_recordSize (len : ℕ) : 8 + len ≤ recordSize len := by
  unfold recordSize
  omega

/-- The records of a vector of attributes are in the packet from `pos` on. -/
def AllStored (b : Buffer) : ℕ → List NRAttribute → Prop
  | _, [] => True
  | pos, a :: vec => Stored b pos a ∧ AllStored b (pos + recordSize a.getLen) vec

theorem packFrom_spec (pos : ℕ) (total : ℤ) (hvec : ∀ a ∈ vec, a.Made)
    (h : pos + recordsSize vec ≤ b.size) :
    ∃ b', packFrom vec pos (toInt total) b = some (b', toInt (total + recordsSize vec)) ∧
      Buffer.Within pos (pos + recordsSize vec) b b' ∧ AllStored b' pos vec := by
  induction vec generalizing pos total b with
  | nil => exact ⟨b, by simp [packFrom, recordsSize], Buffer.Within.refl _ _ _, trivial⟩
  | cons a vec ih =>
    rw [forall_mem_cons] at hvec
    have hsize : recordsSize (a :: vec) = recordSize a.getLen + recordsSize vec := by
      simp [recordsSize]
    have hle := le_recordSize a.getLen
    obtain ⟨b₁, hb₁, hw₁, h₁⟩ := packAttr_spec pos b hvec.1.length_payload (by omega)
    obtain ⟨b', hb', hw', h'⟩ := ih (pos + recordSize a.getLen)
      (total + recordSize a.getLen) hvec.2 (by rw [hw₁.size]; omega)
    refine ⟨b', ?_, ?_, ?_, h'⟩
    · unfold packFrom
      rw [hb₁, toInt_add]
      simp only [bind_eq_bind, bind_some]
      rw [hb', hsize, Nat.cast_add, add_assoc]
    · exact (hw₁.mono le_rfl (by omega)).trans (hw'.mono (by omega) (by omega))
    · exact h₁.frame hvec.1.length_payload hw' (by omega)

theorem unpackFrom_spec (hvec : ∀ a ∈ vec, a.Made) (h : AllStored b pos vec) :
    unpackFrom b vec.length pos = some vec := by
  induction vec generalizing pos with
  | nil => rfl
  | cons a vec ih =>
    rw [forall_mem_cons] at hvec
    have hrest := ih hvec.2 h.2
    rw [length_cons]
    unfold unpackFrom
    rw [h.1.unpackAttr hvec.1, h.1.len_load]
    simp only [bind_eq_bind, bind_some]
    rw [ntohVal_htonBytes a.getLen_lt, hrest]
    rfl

/-- Packing fills `calculateSize` bytes behind the header of the buffer, and unpacking gives the
attributes back, as long as an `int` can hold the size. -/
theorem unpackAttrs_packAttrs (hvec : ∀ a ∈ vec, a.Made)
    (hsize : recordsSize vec + sizeofHdrDiff < 2 ^ 31) (bytes : ℕ → UInt8) :
    calculateSize vec = recordsSize vec ∧
      ∃ size b', allocateBuffer vec = some size ∧
        packAttrs vec sizeofHdrDiff ⟨size, bytes⟩ = some (b', calculateSize vec) ∧
        b'.size = size ∧
        (∀ i, i < sizeofHdrDiff ∨ sizeofHdrDiff + calculateSize vec ≤ i → b'.bytes i = bytes i) ∧
        unpackAttrs b' vec.length = some vec := by
  have hcalc : calculateSize vec = recordsSize vec := by
    rw [calculateSize_eq, toInt_of_lt (by omega)]
  refine ⟨hcalc, ?_⟩
  have hlen : toInt (calculateSize vec + sizeofHdrDiff) = (recordsSize vec + sizeofHdrDiff : ℕ) := by
    rw [hcalc, ← Nat.cast_add, toInt_of_lt hsize]
  have halloc : allocateBuffer vec = some (4 * (1 + (recordsSize vec + sizeofHdrDiff) / 4)) := by
    unfold allocateBuffer
    rw [hlen]
    exact if_neg (by omega)
  obtain ⟨b', hb', hw, hstored⟩ := packFrom_spec sizeofHdrDiff 0
    (b := ⟨4 * (1 + (recordsSize vec + sizeofHdrDiff) / 4), bytes⟩) hvec (by dsimp only; omega)
  refine ⟨_, b', halloc, ?_, hw.size, fun i hi => hw.bytes i (by omega),
    unpackFrom_spec hvec hstored⟩
  rw [zero_add, ← calculateSize_eq] at hb'
  exact hb'

/-- Values of every length modulo 4, and an empty one. -/
def sampleAttrs : List NRAttribute :=
  [.int32 1001 0 10010, ⟨1503, NRAttribute.stringType, 5, [97, 98, 0], by decide⟩,
    ⟨2001, NRAttribute.blobType, 0, [], by decide⟩, .float64 1501 1 0x3ff0000000000000,
    ⟨2010, NRAttribute.blobType, 0, [1, 0, 2, 0, 3], by decide⟩, .float32 2002 7 0x7fc00000,
    ⟨1500, NRAttribute.blobType, 6, [9, 9], by decide⟩]

theorem unpackAttrs_packAttrs_sample : ∃ size b', allocateBuffer sampleAttrs = some size ∧
    packAttrs sampleAttrs sizeofHdrDiff ⟨size, fun _ => 0xff⟩ =
      some (b', calculateSize sampleAttrs) ∧
    unpackAttrs b' 7 = some sampleAttrs := by
  have hmade : ∀ a ∈ sampleAttrs, a.Made := by
    unfold sampleAttrs
    simp only [forall_mem_cons]
    refine ⟨.int32 _ _ _, .string 1503 5 [97, 98] _ (by decide) rfl, .blob 2001 0 [] _ rfl,
      .float64 _ _ _, .blob 2010 0 [1, 0, 2, 0, 3] _ rfl, .float32 _ _ _, .blob 1500 6 [9, 9] _ rfl,
      fun a ha => absurd ha not_mem_nil⟩
  obtain ⟨-, size, b', halloc, hpack, -, -, hunpack⟩ :=
    unpackAttrs_packAttrs hmade (by decide) fun _ => 0xff
  exact ⟨size, b', halloc, hpack, hunpack⟩

/-- Blobs of records of 2 ^ 15 bytes. -/
def hugeAttrs : List NRAttribute :=
  replicate 65536 ⟨2001, NRAttribute.blobType, 0, replicate 32760 0,
    by rw [length_replicate]; decide⟩

/-- The size of 2 ^ 31 bytes is negative as an `int`, and there is no buffer. -/
theorem allocateBuffer_huge : (∀ a ∈ hugeAttrs, a.Made) ∧ recordsSize hugeAttrs = 2 ^ 31 ∧
    calculateSize hugeAttrs = -2 ^ 31 ∧ allocateBuffer hugeAttrs = none := by
  have hsize : recordsSize hugeAttrs = 2 ^ 31 := by
    unfold recordsSize hugeAttrs NRAttribute.getLen
    rw [map_replicate, sum_replicate]
    simp only [length_replicate]
    decide
  have hcalc : calculateSize hugeAttrs = -2 ^ 31 := by
    rw [calculateSize_eq, hsize]
    decide
  refine ⟨fun a ha => ?_, hsize, hcalc, ?_⟩
  · obtain rfl := eq_of_mem_replicate ha
    exact .blob 2001 0 (replicate 32760 0) _ (dif_pos _)
  · unfold allocateBuffer
    rw [hcalc]
    decide

end Ns2
