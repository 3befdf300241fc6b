import Mathlib.Algebra.BigOperators.Group.List.Basic
import Mathlib.Algebra.Order.Group.Int
import Mathlib.Algebra.Ring.Nat

/-! DTN bundles (`dtn/headers.h`, `dtn/strrecords.h`, `dtn/bundle.h`): the primary header, the
string records of the dictionary header, and the chain of headers behind it up to the payload. The
`next_hdr` types follow from the chain. `Bundle::fragment`. The second piece is copied from the
start of the payload, so the two pieces reassemble only when the payload repeats itself at the
distance of the first piece. -/

namespace Ns2

open List

/-- Bytes counted by a `u_int8_t`. -/
abbrev ShortBytes := { l : List UInt8 // l.length < 256 }

/-- The fields of `hdr_bdlprim` that identify a bundle. -/
structure Prim where
  src : UInt8
  timestamp : UInt64
deriving DecidableEq

/-- A header between the dictionary and the payload. -/
inductive Header where
  | frag (totLen offset : UInt32)
  | auth (info : ShortBytes)
  | psec (info : ShortBytes)
deriving DecidableEq

/-- The payload; buffers are allocated and counted with an `int`. -/
structure Pyld where
  pldclass : UInt8
  payload : List UInt8
  small : payload.length < 2 ^ 31
deriving DecidableEq

/-- The payload cut to `n` bytes. -/
def Pyld.take (n : ℕ) (p : Pyld) : Pyld :=
  ⟨p.pldclass, p.payload.take n, (length_take_le' _ _).trans_lt p.small⟩

/-- `record` holds the string records, `strcount` of them. -/
structure Bundle where
  prim : Prim
  record : List ShortBytes
  headers : List Header
  pyld : Pyld
deriving DecidableEq

namespace Header

/-- Fragment headers. -/
def IsFrag : Header → Prop
  | frag _ _ => True
  | _ => False

instance : DecidablePred IsFrag
  | frag _ _ => isTrue trivial
  | auth _ => isFalse id
  | psec _ => isFalse id

/-- The bytes a header adds in `getDataSize`; mode 0 counts all, 1 all but fragment
headers and payload. -/
def dataSize (mode : ℕ) : Header → ℕ
  | frag _ _ => if mode = 0 then 1 + 2 * 4 else 0
  | auth info => if mode = 0 ∨ mode = 1 then 2 + info.1.length else 0
  | psec info => if mode = 0 ∨ mode = 1 then 2 + info.1.length else 0

end Header

/-- The value of an `int` set to `n`. -/
def toInt32 (n : ℤ) : ℤ := n.bmod (2 ^ 32)

theorem toInt32_eq {n : ℤ} (h : 0 ≤ n) : toInt32 n = n ↔ n < 2 ^ 31 := by
  unfold toInt32
  rw [Int.bmod_def]
  omega

namespace Bundle

/-- What `getDataSize` adds up. -/
def dataSize (mode : ℕ) (b : Bundle) : ℕ :=
  (if mode = 0 ∨ mode = 1 then 2 + (b.record.map fun rec => 1 + rec.1.length).sum else 0) +
    (b.headers.map (Header.dataSize mode)).sum +
    (if mode = 0 then 1 + 4 + b.pyld.payload.length
     else if mode = 1 then 1 + 4
     else if mode = 2 then b.pyld.payload.length else 0)

def getDataSize (mode : ℕ) (b : Bundle) : ℤ := toInt32 (b.dataSize mode)

/-- The string record with the given number. -/
def getRecord (number : UInt8) (b : Bundle) : Option ShortBytes := b.record[number.toNat]?

/-- The C string of two records joined by a comma. -/
def getRecords (number : UInt8) (b : Bundle) : Option (List UInt8) :=
  (b.getRecord ((number &&& 0xf0) / 0x10)).bind fun one =>
    (b.getRecord (number &&& 0x0f)).map fun two =>
      (one.1 ++ 44 :: two.1).takeWhile fun c => c ≠ 0

theorem dataSize_two (b : Bundle) : b.dataSize 2 = b.pyld.payload.length := by
  have hsum : (b.headers.map (Header.dataSize 2)).sum = 0 := by
    refine sum_eq_zero fun n hn => ?_
    obtain ⟨h, -, rfl⟩ := mem_map.1 hn
    cases h <;> rfl
  simp [dataSize, hsum]

theorem getDataSize_two (b : Bundle) : b.getDataSize 2 = b.pyld.payload.length := by
  rw [getDataSize, dataSize_two]
  exact (toInt32_eq (Int.natCast_nonneg _)).2 (by exact_mod_cast b.pyld.small)

end Bundle

open List

namespace Bundle

/-- The fragment header in use, the last of the chain. -/
def lastFrag : List Header → Option (UInt32 × UInt32)
  | [] => none
  | h :: hs =>
    match lastFrag hs, h with
    | some f, _ => some f
    | none, .frag totLen offset => some (totLen, offset)
    | none, _ => none

/-- The chain with new fields in its last fragment header. -/
def setLastFrag (totLen offset : UInt32) : List Header → List Header
  | [] => []
  | h :: hs =>
    match lastFrag hs, h with
    | some _, _ => h :: setLastFrag totLen offset hs
    | none, .frag _ _ => .frag totLen offset :: hs
    | none, _ => h :: hs

/-- The fields set in the fragment header, which comes first when it is new. -/
def withFrag (totLen offset : UInt32) (hs : List Header) : List Header :=
  match lastFrag hs with
  | some _ => setLastFrag totLen offset hs
  | none => .frag totLen offset :: hs

/-- `tot_len` of the fragment header, or of the one to come. -/
def totLen (b : Bundle) : UInt32 :=
  ((lastFrag b.headers).map Prod.fst).getD (UInt32.ofNat b.pyld.payload.length)

/-- `offset` of the fragment header, or of the one to come. -/
def offset (b : Bundle) : UInt32 := ((lastFrag b.headers).map Prod.snd).getD 0

/-- `headsize`, with the sizes of `hdr_ip` and `hdr_bdlprim` on the platform. -/
def headsize (sizeIp sizePrim : ℕ) (b : Bundle) : ℕ :=
  ((sizeIp + sizePrim + b.getDataSize 1 + 1 + 2 * 4) % 2 ^ 64).toNat

/-- `chunk` before the test whether to fragment. -/
def chunkLimit (sizeIp sizePrim mtu : ℕ) (exact : Bool) (b : Bundle) : ℕ :=
  if exact then mtu else mtu - b.headsize sizeIp sizePrim

/-- The length of the first piece. -/
def chunk (sizeIp sizePrim mtu : ℕ) (exact : Bool) (b : Bundle) : ℕ :=
  let pyldsize := (b.getDataSize 2 % 2 ^ 64).toNat
  let chunk := b.chunkLimit sizeIp sizePrim mtu exact
  if !exact ∧ (pyldsize + chunk - 1) / chunk = 2 then pyldsize / 2 else chunk

/-- The bundle and its `next_frag_`; `none` is an abort. -/
def fragment (sizeIp sizePrim mtu : ℕ) (exact : Bool) (b : Bundle) :
    Option (Bundle × Option Bundle) :=
  if b.headsize sizeIp sizePrim ≥ mtu then none
  else if b.chunkLimit sizeIp sizePrim mtu exact > (b.getDataSize 2 % 2 ^ 64).toNat then
    some (b, none)
  else
    let chunk := b.chunk sizeIp sizePrim mtu exact
    let plen := b.pyld.payload.length
    some ({ b with
        headers := withFrag b.totLen b.offset b.headers
        pyld := b.pyld.take chunk },
      some { b with
        headers := withFrag b.totLen (b.offset + UInt32.ofNat chunk) b.headers
        pyld := b.pyld.take (plen - chunk) })

theorem lastFrag_setLastFrag (totLen offset : UInt32) {hs : List Header}
    (h : lastFrag hs ≠ none) : lastFrag (setLastFrag totLen offset hs) = some (totLen, offset) := by
  induction hs with
  | nil => exact absurd rfl h
  | cons x hs ih =>
    cases hl : lastFrag hs with
    | some f =>
      have ih := ih (by simp [hl])
      simp [setLastFrag, hl, lastFrag, ih]
    | none => cases x <;> simp_all [setLastFrag, lastFrag]

theorem lastFrag_withFrag (totLen offset : UInt32) (hs : List Header) :
    lastFrag (withFrag totLen offset hs) = some (totLen, offset) := by
  unfold withFrag
  cases hl : lastFrag hs with
  | some f => exact lastFrag_setLastFrag totLen offset (by simp [hl])
  | none => simp [lastFrag, hl]

/-- The payload lies inside the original one. -/
def Fits (b : Bundle) : Prop := b.offset.toNat + b.pyld.payload.length ≤ b.totLen.toNat

/-- The pieces lie one behind the other from offset `o` on, name the length of the
original, and hold the bytes `P` between them. -/
def Tiles (totLen : UInt32) : ℕ → List UInt8 → List Bundle → Prop
  | _, P, [] => P = []
  | o, P, b :: bs => b.totLen = totLen ∧ b.offset.toNat = o ∧
      ∃ Q, P = b.pyld.payload ++ Q ∧ Tiles totLen (o + b.pyld.payload.length) Q bs

/-- The payload repeats itself at distance `c`. -/
def Periodic (P : List UInt8) (c : ℕ) : Prop := ∀ i, i + c < P.length → P[i + c]? = P[i]?

theorem drop_eq_take_iff {P : List UInt8} {c : ℕ} (hc : c ≤ P.length) :
    P.drop c = P.take (P.length - c) ↔ Periodic P c := by
  constructor
  · intro h i hi
    have hi' := congrArg (fun l : List UInt8 => l[i]?) h
    rw [getElem?_drop, getElem?_take_of_lt (by omega), Nat.add_comm] at hi'
    exact hi'
  · intro h
    refine ext_getElem? fun i => ?_
    rw [getElem?_drop, Nat.add_comm]
    rcases Nat.lt_or_ge (i + c) P.length with hi | hi
    · rw [h i hi, getElem?_take_of_lt (by omega)]
    · rw [getElem?_eq_none hi, getElem?_eq_none]
      rw [length_take]
      omega

theorem tiles_append {totLen : UInt32} {o : ℕ} {P : List UInt8} {l r : List Bundle} :
    Tiles totLen o P (l ++ r) ↔
      ∃ A B, P = A ++ B ∧ Tiles totLen o A l ∧ Tiles totLen (o + A.length) B r := by
  induction l generalizing o P with
  | nil => simp [Tiles]
  | cons b l ih =>
    rw [cons_append, Tiles]
    constructor
    · rintro ⟨ht, ho, Q, rfl, hQ⟩
      obtain ⟨A, B, rfl, hA, hB⟩ := ih.1 hQ
      refine ⟨b.pyld.payload ++ A, B, by rw [append_assoc], ⟨ht, ho, A, rfl, hA⟩, ?_⟩
      rwa [length_append, ← Nat.add_assoc]
    · rintro ⟨_, B, rfl, ⟨ht, ho, Q, rfl, hQ⟩, hB⟩
      refine ⟨ht, ho, Q ++ B, by rw [append_assoc], ih.2 ⟨Q, B, rfl, hQ, ?_⟩⟩
      rwa [Nat.add_assoc, ← length_append]

section

variable {sizeIp sizePrim mtu : ℕ} {exact : Bool} {b b₁ b₂ : Bundle}

theorem pyldsize_eq (b : Bundle) :
    (b.getDataSize 2 % 2 ^ 64).toNat = b.pyld.payload.length := by
  have := b.pyld.small
  rw [getDataSize_two]
  omega

theorem fragment_cuts (hmtu : b.headsize sizeIp sizePrim < mtu)
    (hlimit : b.chunkLimit sizeIp sizePrim mtu exact ≤ b.pyld.payload.length) :
    ∃ b₁ b₂, b.fragment sizeIp sizePrim mtu exact = some (b₁, some b₂) := by
  unfold fragment
  rw [if_neg hmtu.not_ge, pyldsize_eq, if_neg hlimit.not_gt]
  exact ⟨_, _, rfl⟩

theorem fragment_eq (h : b.fragment sizeIp sizePrim mtu exact = some (b₁, some b₂)) :
    b.chunkLimit sizeIp sizePrim mtu exact ≤ b.pyld.payload.length ∧
    b₁ = { b with
      headers := withFrag b.totLen b.offset b.headers
      pyld := b.pyld.take (b.chunk sizeIp sizePrim mtu exact) } ∧
    b₂ = { b with
      headers := withFrag b.totLen
        (b.offset + UInt32.ofNat (b.chunk sizeIp sizePrim mtu exact)) b.headers
      pyld := b.pyld.take (b.pyld.payload.length - b.chunk sizeIp sizePrim mtu exact) } := by
  unfold fragment at h
  rw [pyldsize_eq] at h
  split_ifs at h with hhead hsize
  · simp at h
  · simp only [Option.some.injEq, Prod.mk.injEq] at h
    exact ⟨not_lt.1 hsize, h.1.symm, h.2.symm⟩

theorem chunk_le (h : b.fragment sizeIp sizePrim mtu exact = some (b₁, some b₂)) :
    b.chunk sizeIp sizePrim mtu exact ≤ b.pyld.payload.length := by
  have hlimit := (fragment_eq h).1
  unfold chunk
  rw [pyldsize_eq]
  dsimp only
  split_ifs
  · exact Nat.div_le_self _ _
  · exact hlimit

theorem totLen_of_headers {b : Bundle} {totLen offset : UInt32}
    (h : lastFrag b.headers = some (totLen, offset)) : b.totLen = totLen ∧ b.offset = offset := by
  simp [Bundle.totLen, Bundle.offset, h]

/-- One fragmentation gives two pieces that tile the payload exactly when the
payload repeats itself. -/
theorem tiles_fragment_iff (hb : b.Fits)
    (h : b.fragment sizeIp sizePrim mtu exact = some (b₁, some b₂)) :
    Tiles b.totLen b.offset.toNat b.pyld.payload [b₁, b₂] ↔
      Periodic b.pyld.payload (b.chunk sizeIp sizePrim mtu exact) := by
  have hc := chunk_le h
  obtain ⟨-, h₁, h₂⟩ := fragment_eq h
  set c := b.chunk sizeIp sizePrim mtu exact
  set P := b.pyld.payload with hP
  have hp₁ : b₁.pyld.payload = P.take c := by rw [h₁]; rfl
  have hp₂ : b₂.pyld.payload = P.take (P.length - c) := by rw [h₂]; rfl
  have hf₁ : b₁.totLen = b.totLen ∧ b₁.offset = b.offset :=
    totLen_of_headers (by rw [h₁]; exact lastFrag_withFrag _ _ _)
  have hf₂ : b₂.totLen = b.totLen ∧ b₂.offset = b.offset + UInt32.ofNat c :=
    totLen_of_headers (by rw [h₂]; exact lastFrag_withFrag _ _ _)
  have hoff : (b.offset + UInt32.ofNat c).toNat = b.offset.toNat + c := by
    have htot : b.totLen.toNat < 2 ^ 32 := b.totLen.toNat_lt
    have hfits : b.offset.toNat + P.length ≤ b.totLen.toNat := hb
    rw [UInt32.toNat_add, UInt32.toNat_ofNat']
    omega
  have hlen : (P.take c).length = c := length_take_of_le hc
  rw [← drop_eq_take_iff hc]
  constructor
  · rintro ⟨-, -, Q, hQ, -, -, R, hR, hnil⟩
    rw [hp₁] at hQ
    rw [hp₂, show R = [] from hnil, append_nil] at hR
    rw [← hR]
    refine append_cancel_left ((take_append_drop c P).trans hQ)
  · intro hdrop
    refine ⟨hf₁.1, by rw [hf₁.2], P.drop c, ?_, hf₂.1, ?_, [], ?_, rfl⟩
    · rw [hp₁, take_append_drop]
    · rw [hf₂.2, hoff, hp₁, hlen]
    · rw [hp₂, hdrop, append_nil]

end

/-- The bundle and the pieces that repeated fragmentations leave, each of a payload
that repeats itself at the distance of the cut. -/
inductive Pieces (sizeIp sizePrim : ℕ) (b : Bundle) : List Bundle → Prop
  | whole : Pieces sizeIp sizePrim b [b]
  | cut {l r : List Bundle} {p p₁ p₂ : Bundle} {mtu : ℕ} {exact : Bool}
      (h : Pieces sizeIp sizePrim b (l ++ p :: r))
      (hp : p.fragment sizeIp sizePrim mtu exact = some (p₁, some p₂))
      (hper : Periodic p.pyld.payload (p.chunk sizeIp sizePrim mtu exact)) :
      Pieces sizeIp sizePrim b (l ++ p₁ :: p₂ :: r)

theorem Pieces.tiles {sizeIp sizePrim : ℕ} {b : Bundle} (hb : b.Fits) {ps : List Bundle}
    (h : Pieces sizeIp sizePrim b ps) :
    Tiles b.totLen b.offset.toNat b.pyld.payload ps := by
  induction h with
  | whole => exact ⟨rfl, rfl, [], (append_nil _).symm, rfl⟩
  | cut _ hp hper ih =>
    obtain ⟨A, B, hP, hA, htot, hoff, Q, rfl, hQ⟩ := tiles_append.1 ih
    rename_i l r p p₁ p₂ mtu exact _
    have hfits : p.Fits := by
      unfold Fits at *
      rw [hP, length_append, length_append] at hb
      rw [htot, hoff]
      omega
    have hcut := (tiles_fragment_iff hfits hp).2 hper
    rw [htot, hoff] at hcut
    have hall : Tiles b.totLen (b.offset.toNat + A.length) (p.pyld.payload ++ Q) ([p₁, p₂] ++ r) :=
      tiles_append.2 ⟨_, _, rfl, hcut, hQ⟩
    exact tiles_append.2 ⟨A, _, hP, hA, hall⟩

/-- A fragmentation keeps the payload exactly when the payload repeats itself at
the distance of the cut, and while it does, any number of fragmentations keep it. -/
theorem fragment_keeps_payload_iff (sizeIp sizePrim : ℕ) {b : Bundle} (hb : b.Fits) :
    (∀ mtu exact, b.headsize sizeIp sizePrim < mtu →
      b.chunkLimit sizeIp sizePrim mtu exact ≤ b.pyld.payload.length →
      ∃ b₁ b₂, b.fragment sizeIp sizePrim mtu exact = some (b₁, some b₂) ∧
        (Tiles b.totLen b.offset.toNat b.pyld.payload [b₁, b₂] ↔
          Periodic b.pyld.payload (b.chunk sizeIp sizePrim mtu exact))) ∧
    ∀ ps, Pieces sizeIp sizePrim b ps → Tiles b.totLen b.offset.toNat b.pyld.payload ps := by
  refine ⟨fun mtu exact hmtu hlimit => ?_, fun _ h => h.tiles hb⟩
  obtain ⟨b₁, b₂, h⟩ := fragment_cuts hmtu hlimit
  exact ⟨b₁, b₂, h, tiles_fragment_iff hb h⟩

/-- A bundle without other headers and four payload bytes. -/
def fourBytes : Bundle := ⟨⟨0, 0⟩, [], [], ⟨0, [1, 2, 3, 4], by decide⟩⟩

theorem fragment_keeps_payload_iff_four :
    (∀ mtu exact, fourBytes.headsize 20 60 < mtu →
      fourBytes.chunkLimit 20 60 mtu exact ≤ fourBytes.pyld.payload.length →
      ∃ b₁ b₂, fourBytes.fragment 20 60 mtu exact = some (b₁, some b₂) ∧
        (Tiles fourBytes.totLen fourBytes.offset.toNat fourBytes.pyld.payload [b₁, b₂] ↔
          Periodic fourBytes.pyld.payload (fourBytes.chunk 20 60 mtu exact))) ∧
    ∀ ps, Pieces 20 60 fourBytes ps →
      Tiles fourBytes.totLen fourBytes.offset.toNat fourBytes.pyld.payload ps :=
  fragment_keeps_payload_iff 20 60 (by unfold Fits; decide)

/-- Bytes 3 and 4 are lost: the second piece holds bytes 1 and 2 again. -/
theorem fragment_loses_payload : ∃ b₁ b₂,
    fourBytes.fragment 20 60 99 false = some (b₁, some b₂) ∧
    ¬ Tiles fourBytes.totLen fourBytes.offset.toNat fourBytes.pyld.payload [b₁, b₂] := by
  have hcut : fourBytes.fragment 20 60 99 false = some
      (⟨⟨0, 0⟩, [], [.frag 4 0], ⟨0, [1, 2], by decide⟩⟩,
        some ⟨⟨0, 0⟩, [], [.frag 4 2], ⟨0, [1, 2], by decide⟩⟩) := by
    decide +kernel
  refine ⟨_, _, hcut, ?_⟩
  rintro ⟨-, -, Q, hQ, -, -, R, hR, -⟩
  subst hR
  exact absurd (congrArg (fun l : List UInt8 => l[2]?) hQ) (by simp [fourBytes])

end Bundle

end Ns2
