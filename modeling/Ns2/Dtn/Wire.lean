import Ns2.Dtn.Fragment
import Ns2.Lib.Buffer

/-! `Bundle::extractData` and `Bundle::retrieveData`: the header chain as bytes. The
security headers are read into an `info` that was never allocated. -/

namespace Ns2

open List Option

/-- `BDL_NONE` to `BDL_FRAG` of `bmflags.h`. -/
def bdlNone : UInt8 := 0x00
def bdlDict : UInt8 := 0x02
def bdlPyld : UInt8 := 0x05
def bdlAuth : UInt8 := 0x07
def bdlPsec : UInt8 := 0x08
def bdlFrag : UInt8 := 0x09

def Header.type : Header → UInt8
  | frag _ _ => bdlFrag
  | auth _ => bdlAuth
  | psec _ => bdlPsec

namespace Bundle

/-- `next_hdr` of the header in front of the chain. -/
def nextHdr : List Header → UInt8
  | [] => bdlPyld
  | h :: _ => h.type

/-- The string records written behind `buf`, nothing when there is no space. -/
def extractRecords (buflen : ℤ) : List ShortBytes → List UInt8 → Option (List UInt8)
  | [], buf => some buf
  | rec :: recs, buf =>
    if buf.length + rec.1.length + 1 > buflen then none
    else extractRecords buflen recs (buf ++ UInt8.ofNat rec.1.length :: rec.1)

/-- An authentication or security header behind `buf`. -/
def extractInfo (buflen : ℤ) (next : UInt8) (info : ShortBytes) (buf : List UInt8) :
    Option (List UInt8) :=
  if buf.length + 2 + info.1.length > buflen then none
  else some (buf ++ next :: UInt8.ofNat info.1.length :: info.1)

/-- A fragment header behind `buf`; its check compares as `size_t`. -/
def extractFrag (buflen : ℤ) (next : UInt8) (totLen offset : UInt32) (buf : List UInt8) :
    Option (List UInt8) :=
  if buf.length + 1 + 2 * 4 > buflen % 2 ^ 64 then none
  else some (buf ++ next :: (leBytes 4 totLen.toNat ++ leBytes 4 offset.toNat))

def extractHeader (buflen : ℤ) (next : UInt8) : Header → List UInt8 → Option (List UInt8)
  | .frag totLen offset => extractFrag buflen next totLen offset
  | .auth info => extractInfo buflen next info
  | .psec info => extractInfo buflen next info

def extractHeaders (buflen : ℤ) : List Header → List UInt8 → Option (List UInt8)
  | [], buf => some buf
  | h :: hs, buf => (extractHeader buflen (nextHdr hs) h buf).bind (extractHeaders buflen hs)

/-- The payload behind `buf`, nothing when there is no space, as far as the 32-bit check
sees; `none` is a copy out of bounds. -/
def extractPyld (buflen : ℤ) (p : Pyld) (buf : List UInt8) : Option (Option (List UInt8)) :=
  if (buf.length + 5 + p.payload.length : ℤ) % 2 ^ 32 > buflen % 2 ^ 32 then some none
  else if buf.length + 5 + p.payload.length > buflen then none
  else some (some (buf ++ p.pldclass :: (leBytes 4 p.payload.length ++ p.payload)))

/-- The bytes written into a buffer of `buflen` bytes, nothing on failure; `none` is an
abort. -/
def extractData (buflen : ℤ) (b : Bundle) : Option (Option (List UInt8)) :=
  if 2 > buflen then some none
  else
    let dict := [nextHdr b.headers, UInt8.ofNat b.record.length]
    match (extractRecords buflen b.record dict).bind (extractHeaders buflen b.headers) with
    | none => some none
    | some buf => extractPyld buflen b.pyld buf

/-- `addRecord` for each of `count` records; `none` is a read out of bounds. -/
def addRecords : ℕ → List UInt8 → Option (List ShortBytes × List UInt8)
  | 0, rest => some ([], rest)
  | _ + 1, [] => none
  | count + 1, len :: rest =>
    if len.toNat ≤ rest.length then
      (addRecords count (rest.drop len.toNat)).map fun r =>
        (⟨rest.take len.toNat, (length_take_le _ _).trans_lt len.toNat_lt⟩ :: r.1, r.2)
    else none

/-- The next type, the `info` field and the bytes behind them. The bytes are copied to
the null pointer that the new header starts with: `none` unless there are none. -/
def retrieveInfo : List UInt8 → Option (Option (UInt8 × ShortBytes × List UInt8))
  | next :: len :: rest =>
    if rest.length < len.toNat then some none
    else if len = 0 then some (some (next, ⟨[], by decide⟩, rest))
    else none
  | _ => some none

/-- The next type and the fragment fields. -/
def retrieveFrag : List UInt8 → Option (UInt8 × Header × List UInt8)
  | [] => none
  | next :: rest =>
    if rest.length < 2 * 4 then none
    else some (next, .frag (UInt32.ofNat (leVal (rest.take 4)))
      (UInt32.ofNat (leVal ((rest.drop 4).take 4))), rest.drop 8)

/-- The next type, the header of this type and the bytes behind it, nothing when the
buffer is too short; `none` is an abort. -/
def retrieveHeader (curhdr : UInt8) (rest : List UInt8) :
    Option (Option (UInt8 × Header × List UInt8)) :=
  if curhdr = bdlAuth then
    (retrieveInfo rest).map fun r => r.map fun (next, info, rest) => (next, .auth info, rest)
  else if curhdr = bdlPsec then
    (retrieveInfo rest).map fun r => r.map fun (next, info, rest) => (next, .psec info, rest)
  else if curhdr = bdlFrag then some (retrieveFrag rest)
  else none

/-- The payload and the bytes behind it; the check wraps at 32 bits. -/
def retrievePyld (buflen : ℕ) : List UInt8 → Option (Option (Pyld × List UInt8))
  | [] => some none
  | pldclass :: rest =>
    if rest.length < 4 then some none
    else
      let len := leVal (rest.take 4)
      let rest := rest.drop 4
      if (buflen - rest.length + len) % 2 ^ 32 > buflen then some none
      else if rest.length < len then none
      else if h : (rest.take len).length < 2 ^ 31 then
        some (some (⟨pldclass, rest.take len, h⟩, rest.drop len))
      else none

/-- What `retrieveData` leaves: the bytes consumed and the chain built. -/
structure Retrieved where
  bcount : ℕ
  record : List ShortBytes
  headers : List Header
  pyld : Option Pyld
deriving DecidableEq

/-- The loop over header types, with the chain read so far and the bytes left. -/
def retrieveFrom (buflen : ℕ) :
    ℕ → UInt8 → List ShortBytes → List Header → List UInt8 → Option (Option Retrieved)
  | 0, _, _, _, _ => none
  | fuel + 1, curhdr, record, headers, rest =>
    if curhdr = bdlNone then some (some ⟨buflen - rest.length, record, headers, none⟩)
    else if curhdr = bdlDict then
      match rest with
      | next :: strcount :: rest =>
        -- behind another header the dictionary fields would be written over that header
        if headers ≠ [] then none
        else
          (addRecords strcount.toNat rest).bind fun (record, rest) =>
            retrieveFrom buflen fuel next record [] rest
      | _ => some none
    else if curhdr = bdlPyld then
      (retrievePyld buflen rest).map fun r =>
        r.map fun (pyld, rest) => ⟨buflen - rest.length, record, headers, some pyld⟩
    else
      (retrieveHeader curhdr rest).bind fun r =>
        match r with
        | none => some none
        | some (next, h, rest) => retrieveFrom buflen fuel next record (headers ++ [h]) rest

/-- Nothing on failure; `none` is an abort. Every round but the last reads two bytes. -/
def retrieveData (buf : List UInt8) : Option (Option Retrieved) :=
  retrieveFrom buf.length (buf.length + 1) bdlDict [] [] buf

end Bundle

/-- A header without security information. -/
def Header.NoInfo : Header → Prop
  | frag _ _ => True
  | auth info => info.1 = []
  | psec info => info.1 = []

instance : DecidablePred Header.NoInfo
  | .frag _ _ => isTrue trivial
  | .auth info => inferInstanceAs (Decidable (info.1 = []))
  | .psec info => inferInstanceAs (Decidable (info.1 = []))

namespace Bundle

/-- The bytes that stand for a chain. -/
def wireInfo (next : UInt8) (info : ShortBytes) : List UInt8 :=
  next :: UInt8.ofNat info.1.length :: info.1

def wireHeader (next : UInt8) : Header → List UInt8
  | .frag totLen offset => next :: (leBytes 4 totLen.toNat ++ leBytes 4 offset.toNat)
  | .auth info => wireInfo next info
  | .psec info => wireInfo next info

def wireRecords : List ShortBytes → List UInt8
  | [] => []
  | rec :: recs => UInt8.ofNat rec.1.length :: rec.1 ++ wireRecords recs

def wireHeaders : List Header → List UInt8
  | [] => []
  | h :: hs => wireHeader (nextHdr hs) h ++ wireHeaders hs

def wirePyld (p : Pyld) : List UInt8 :=
  p.pldclass :: (leBytes 4 p.payload.length ++ p.payload)

def wireDict (b : Bundle) : List UInt8 :=
  [nextHdr b.headers, UInt8.ofNat b.record.length] ++ wireRecords b.record

def wire (b : Bundle) : List UInt8 := b.wireDict ++ wireHeaders b.headers ++ wirePyld b.pyld

theorem length_wireRecords (recs : List ShortBytes) :
    (wireRecords recs).length = (recs.map fun rec => 1 + rec.1.length).sum := by
  induction recs with
  | nil => rfl
  | cons rec recs ih =>
    simp only [wireRecords, length_append, length_cons, map_cons, sum_cons, ih]
    omega

theorem length_wireHeader (next : UInt8) (h : Header) :
    (wireHeader next h).length = h.dataSize 0 := by
  cases h with
  | frag totLen offset => simp [wireHeader, Header.dataSize]
  | auth info =>
    simp [wireHeader, wireInfo, Header.dataSize]
    omega
  | psec info =>
    simp [wireHeader, wireInfo, Header.dataSize]
    omega

theorem length_wireHeaders (hs : List Header) :
    (wireHeaders hs).length = (hs.map (Header.dataSize 0)).sum := by
  induction hs with
  | nil => rfl
  | cons h hs ih =>
    rw [wireHeaders, length_append, length_wireHeader, ih, map_cons, sum_cons]

theorem length_wirePyld (p : Pyld) : (wirePyld p).length = 5 + p.payload.length := by
  simp only [wirePyld, length_cons, length_append, length_leBytes]
  omega

theorem length_wire (b : Bundle) : b.wire.length = b.dataSize 0 := by
  simp only [wire, wireDict, length_append, length_wireRecords, length_wireHeaders,
    length_wirePyld, length_cons, length_nil, dataSize, if_true, true_or]

section

variable {buflen : ℤ} {buf out : List UInt8}
variable {recs : List ShortBytes} {next : UInt8} {x : Header} {hs : List Header} {p : Pyld}
  {b : Bundle}

theorem extractRecords_eq (h : extractRecords buflen recs buf = some out) :
    out = buf ++ wireRecords recs := by
  induction recs generalizing buf with
  | nil => simpa [extractRecords, wireRecords] using h.symm
  | cons rec recs ih =>
    rw [extractRecords] at h
    split_ifs at h
    rw [ih h, wireRecords, append_assoc]

theorem extractRecords_of_le (h : ((buf ++ wireRecords recs).length : ℤ) ≤ buflen) :
    extractRecords buflen recs buf = some (buf ++ wireRecords recs) := by
  induction recs generalizing buf with
  | nil => simp [extractRecords, wireRecords]
  | cons rec recs ih =>
    have hassoc : buf ++ wireRecords (rec :: recs) =
        (buf ++ UInt8.ofNat rec.1.length :: rec.1) ++ wireRecords recs := by
      rw [wireRecords, append_assoc]
    have hlen := h
    rw [hassoc, length_append, length_append, length_cons] at hlen
    rw [extractRecords, if_neg (by push_cast at hlen; omega), hassoc]
    exact ih (hassoc ▸ h)

theorem extractInfo_of_le {info : ShortBytes}
    (h : ((buf ++ wireInfo next info).length : ℤ) ≤ buflen) :
    extractInfo buflen next info buf = some (buf ++ wireInfo next info) := by
  simp only [wireInfo, length_append, length_cons] at h
  push_cast at h
  rw [extractInfo, if_neg (by omega)]
  rfl

theorem extractHeader_eq (h : extractHeader buflen next x buf = some out) :
    out = buf ++ wireHeader next x := by
  cases x with
  | frag totLen offset =>
    simp only [extractHeader, extractFrag] at h
    split_ifs at h
    exact (Option.some.inj h).symm
  | auth info =>
    simp only [extractHeader, extractInfo] at h
    split_ifs at h
    exact (Option.some.inj h).symm
  | psec info =>
    simp only [extractHeader, extractInfo] at h
    split_ifs at h
    exact (Option.some.inj h).symm

theorem extractHeader_of_le (hlt : buflen < 2 ^ 31)
    (h : ((buf ++ wireHeader next x).length : ℤ) ≤ buflen) :
    extractHeader buflen next x buf = some (buf ++ wireHeader next x) := by
  cases x with
  | frag totLen offset =>
    simp only [wireHeader, length_append, length_cons, length_leBytes] at h
    push_cast at h
    simp only [extractHeader]
    rw [extractFrag, if_neg (by omega)]
    rfl
  | auth info => exact extractInfo_of_le h
  | psec info => exact extractInfo_of_le h

theorem extractHeaders_eq (h : extractHeaders buflen hs buf = some out) :
    out = buf ++ wireHeaders hs := by
  induction hs generalizing buf with
  | nil => simpa [extractHeaders, wireHeaders] using h.symm
  | cons x hs ih =>
    obtain ⟨buf', hx, hrest⟩ := bind_eq_some_iff.1 h
    rw [ih hrest, extractHeader_eq hx, wireHeaders, append_assoc]

theorem extractHeaders_of_le (hlt : buflen < 2 ^ 31)
    (h : ((buf ++ wireHeaders hs).length : ℤ) ≤ buflen) :
    extractHeaders buflen hs buf = some (buf ++ wireHeaders hs) := by
  induction hs generalizing buf with
  | nil => simp [extractHeaders, wireHeaders]
  | cons x hs ih =>
    have hassoc : buf ++ wireHeaders (x :: hs) =
        (buf ++ wireHeader (nextHdr hs) x) ++ wireHeaders hs := by
      rw [wireHeaders, append_assoc]
    rw [hassoc] at h ⊢
    have hfirst : ((buf ++ wireHeader (nextHdr hs) x).length : ℤ) ≤ buflen := by
      rw [length_append] at h
      push_cast at h
      omega
    rw [extractHeaders, extractHeader_of_le hlt hfirst, bind_some]
    exact ih h

theorem extractPyld_eq (h : extractPyld buflen p buf = some (some out)) :
    out = buf ++ wirePyld p := by
  unfold extractPyld at h
  split_ifs at h
  · simp at h
  · exact (Option.some.inj (Option.some.inj h)).symm

theorem extractPyld_of_le (hlt : buflen < 2 ^ 31) (h : ((buf ++ wirePyld p).length : ℤ) ≤ buflen) :
    extractPyld buflen p buf = some (some (buf ++ wirePyld p)) := by
  rw [length_append, length_wirePyld] at h
  push_cast at h
  rw [extractPyld, if_neg (by omega), if_neg (by omega)]
  rfl

theorem extractData_eq (h : extractData buflen b = some (some out)) : out = b.wire := by
  unfold extractData at h
  split_ifs at h
  · simp at h
  · dsimp only at h
    cases hr : extractRecords buflen b.record [nextHdr b.headers, UInt8.ofNat b.record.length] with
    | none => simp [hr] at h
    | some buf₁ =>
      cases hh : extractHeaders buflen b.headers buf₁ with
      | none => simp [hr, hh] at h
      | some buf₂ =>
        rw [hr, bind_some, hh] at h
        rw [extractPyld_eq h, extractHeaders_eq hh, extractRecords_eq hr]
        rfl

theorem extractData_of_le (hlt : buflen < 2 ^ 31) (h : (b.wire.length : ℤ) ≤ buflen) :
    extractData buflen b = some (some b.wire) := by
  have hlen := h
  simp only [wire, length_append, length_wirePyld] at hlen
  push_cast at hlen
  have hdict : extractRecords buflen b.record [nextHdr b.headers, UInt8.ofNat b.record.length] =
      some b.wireDict := by
    apply extractRecords_of_le
    change (b.wireDict.length : ℤ) ≤ buflen
    omega
  have hheaders : extractHeaders buflen b.headers b.wireDict =
      some (b.wireDict ++ wireHeaders b.headers) := by
    apply extractHeaders_of_le hlt
    rw [length_append]
    push_cast
    omega
  rw [extractData, if_neg (by omega)]
  dsimp only
  rw [hdict, bind_some, hheaders]
  exact extractPyld_of_le hlt h

end

theorem addRecords_wire (recs : List ShortBytes) (rest : List UInt8) :
    addRecords recs.length (wireRecords recs ++ rest) = some (recs, rest) := by
  induction recs with
  | nil => rfl
  | cons rec recs ih =>
    have hlen : (UInt8.ofNat rec.1.length).toNat = rec.1.length := by
      rw [UInt8.toNat_ofNat']
      exact Nat.mod_eq_of_lt rec.2
    rw [wireRecords, cons_append, cons_append, append_assoc, length_cons,
      addRecords]
    simp only [hlen, drop_left, take_left, ih, map_some]
    rw [if_pos (by rw [length_append]; omega)]

theorem retrieveInfo_wire (next : UInt8) (info : ShortBytes) (rest : List UInt8) :
    retrieveInfo (wireInfo next info ++ rest) =
      if info.1 = [] then some (some (next, info, rest)) else none := by
  have hlen : (UInt8.ofNat info.1.length).toNat = info.1.length := by
    rw [UInt8.toNat_ofNat']
    exact Nat.mod_eq_of_lt info.2
  have hzero : UInt8.ofNat info.1.length = 0 ↔ info.1 = [] := by
    rw [← UInt8.toNat_inj, hlen, UInt8.toNat_zero, length_eq_zero_iff]
  rw [wireInfo, cons_append, cons_append, retrieveInfo, hlen,
    if_neg (by rw [length_append]; omega)]
  by_cases hnil : info.1 = []
  · rw [if_pos (hzero.2 hnil), if_pos hnil, hnil, nil_append]
    exact congrArg (fun i => some (some (next, i, rest))) (Subtype.ext hnil.symm)
  · rw [if_neg (mt hzero.1 hnil), if_neg hnil]

theorem retrieveHeader_wire (next : UInt8) (h : Header) (rest : List UInt8) :
    retrieveHeader h.type (wireHeader next h ++ rest) =
      if h.NoInfo then some (some (next, h, rest)) else none := by
  cases h with
  | frag totLen offset =>
    have htot := take_leBytes 4 totLen.toNat (leBytes 4 offset.toNat ++ rest)
    have hoff := take_leBytes 4 offset.toNat rest
    have hdrop := drop_leBytes 4 totLen.toNat (leBytes 4 offset.toNat ++ rest)
    have hrest : (leBytes 4 totLen.toNat ++ (leBytes 4 offset.toNat ++ rest)).drop 8 = rest := by
      rw [show 8 = 4 + 4 from rfl, ← drop_drop, hdrop, drop_leBytes]
    have hval : ∀ n : UInt32, UInt32.ofNat (leVal (leBytes 4 n.toNat)) = n := by
      intro n
      rw [leVal_leBytes n.toNat_lt, UInt32.ofNat_toNat]
    have hfrag : retrieveHeader bdlFrag = fun rest => some (retrieveFrag rest) := rfl
    simp only [Header.type, hfrag, wireHeader, cons_append, append_assoc, retrieveFrag]
    rw [if_neg (by simp only [length_append, length_leBytes]; omega), htot, hdrop, hoff,
      hrest, hval, hval]
    rfl
  | auth info =>
    have hauth : retrieveHeader bdlAuth = fun rest => (retrieveInfo rest).map fun r =>
        r.map fun (next, info, rest) => (next, .auth info, rest) := rfl
    simp only [Header.type, hauth, wireHeader, retrieveInfo_wire]
    by_cases hnil : info.1 = []
    · rw [if_pos hnil, if_pos (show (Header.auth info).NoInfo from hnil)]
      rfl
    · rw [if_neg hnil, if_neg (show ¬ (Header.auth info).NoInfo from hnil)]
      rfl
  | psec info =>
    have hpsec : retrieveHeader bdlPsec = fun rest => (retrieveInfo rest).map fun r =>
        r.map fun (next, info, rest) => (next, .psec info, rest) := rfl
    simp only [Header.type, hpsec, wireHeader, retrieveInfo_wire]
    by_cases hnil : info.1 = []
    · rw [if_pos hnil, if_pos (show (Header.psec info).NoInfo from hnil)]
      rfl
    · rw [if_neg hnil, if_neg (show ¬ (Header.psec info).NoInfo from hnil)]
      rfl

theorem retrievePyld_wire {buflen : ℕ} (p : Pyld) (hlen : (wirePyld p).length ≤ buflen)
    (hlt : buflen < 2 ^ 31) : retrievePyld buflen (wirePyld p) = some (some (p, [])) := by
  have hval : leVal (leBytes 4 p.payload.length) = p.payload.length :=
    leVal_leBytes (p.small.trans (by decide))
  rw [length_wirePyld] at hlen
  have htake := take_leBytes 4 p.payload.length p.payload
  have hdrop := drop_leBytes 4 p.payload.length p.payload
  simp only [wirePyld, retrievePyld, htake, hdrop, hval, take_length, drop_length]
  rw [if_neg (by simp only [length_append, length_leBytes]; omega), if_neg (by omega),
    if_neg (by omega), dif_pos p.small]

/-- The chain behind the dictionary is read back unless one of its headers carries
security information. -/
theorem retrieveFrom_wire {buflen : ℕ} (hlt : buflen < 2 ^ 31) (record : List ShortBytes) (p : Pyld)
    {hs : List Header} (hlen : (wireHeaders hs ++ wirePyld p).length ≤ buflen)
    (acc : List Header) {fuel : ℕ} (hfuel : hs.length < fuel) :
    retrieveFrom buflen fuel (nextHdr hs) record acc (wireHeaders hs ++ wirePyld p) =
      if ∀ h ∈ hs, h.NoInfo then some (some ⟨buflen, record, acc ++ hs, some p⟩) else none := by
  induction hs generalizing acc fuel with
  | nil =>
    cases fuel with
    | zero => cases hfuel
    | succ fuel =>
      have hp := retrievePyld_wire p hlen hlt
      rw [wireHeaders, nil_append, nextHdr, retrieveFrom.eq_def]
      dsimp only
      rw [if_neg (by decide), if_neg (by decide), if_pos rfl, hp]
      simp
  | cons h hs ih =>
    cases fuel with
    | zero => cases hfuel
    | succ fuel =>
      have htype : h.type ≠ bdlNone ∧ h.type ≠ bdlDict ∧ h.type ≠ bdlPyld := by
        cases h <;> simp only [Header.type] <;> decide
      have hrest : (wireHeaders hs ++ wirePyld p).length ≤ buflen := by
        rw [wireHeaders, append_assoc, length_append] at hlen
        omega
      rw [wireHeaders, append_assoc, nextHdr, retrieveFrom.eq_def]
      dsimp only
      rw [if_neg htype.1, if_neg htype.2.1, if_neg htype.2.2, retrieveHeader_wire]
      by_cases hinfo : h.NoInfo
      · rw [if_pos hinfo, bind_some]
        dsimp only
        rw [ih hrest (acc ++ [h]) (Nat.lt_of_succ_lt_succ hfuel), append_assoc]
        simp only [forall_mem_cons, hinfo, true_and, singleton_append]
      · rw [if_neg hinfo, if_neg (fun hall => hinfo (hall h mem_cons_self))]
        rfl

theorem retrieveData_wire {b : Bundle} (hrec : b.record.length < 256)
    (hlt : b.wire.length < 2 ^ 31) : retrieveData b.wire =
      if ∀ h ∈ b.headers, h.NoInfo then
        some (some ⟨b.wire.length, b.record, b.headers, some b.pyld⟩)
      else none := by
  have hcount : (UInt8.ofNat b.record.length).toNat = b.record.length := by
    rw [UInt8.toNat_ofNat']
    exact Nat.mod_eq_of_lt hrec
  have hwire : b.wire = nextHdr b.headers :: UInt8.ofNat b.record.length ::
      (wireRecords b.record ++ (wireHeaders b.headers ++ wirePyld b.pyld)) := by
    simp [wire, wireDict]
  have hlen : (wireHeaders b.headers ++ wirePyld b.pyld).length ≤ b.wire.length := by
    rw [hwire]
    simp only [length_cons, length_append]
    omega
  have hfuel : b.headers.length < b.wire.length := by
    have hle : b.headers.length ≤ (wireHeaders b.headers).length := by
      generalize b.headers = hs
      induction hs with
      | nil => exact Nat.zero_le _
      | cons h hs ih =>
        have hpos : 0 < (wireHeader (nextHdr hs) h).length := by
          cases h <;> exact Nat.succ_pos _
        rw [wireHeaders, length_append, length_cons]
        omega
    rw [hwire]
    simp only [length_cons, length_append]
    omega
  rw [retrieveData, retrieveFrom.eq_def]
  dsimp only
  rw [if_neg (by decide), if_pos rfl]
  generalize hn : b.wire.length = n at *
  rw [hwire]
  dsimp only
  rw [if_neg (by simp), hcount, addRecords_wire, bind_some]
  rw [retrieveFrom_wire hlt b.record b.pyld hlen [] hfuel, nil_append]

/-- `extractData` fills a buffer of `getDataSize` bytes, and `retrieveData` consumes it
and rebuilds the chain. -/
def RoundTrips (b : Bundle) : Prop :=
  ∃ buf : List UInt8, extractData (b.getDataSize 0) b = some (some buf) ∧
    (buf.length : ℤ) = b.getDataSize 0 ∧
    retrieveData buf = some (some ⟨buf.length, b.record, b.headers, some b.pyld⟩)

/-- A chain survives the wire exactly when its security headers are empty and its size
fits an `int`. -/
theorem roundTrips_iff {b : Bundle} (hrec : b.record.length < 256) :
    b.RoundTrips ↔ (∀ h ∈ b.headers, h.NoInfo) ∧ b.dataSize 0 < 2 ^ 31 := by
  have hsize : b.getDataSize 0 = b.dataSize 0 ↔ (b.dataSize 0 : ℤ) < 2 ^ 31 :=
    toInt32_eq (Int.natCast_nonneg _)
  constructor
  · rintro ⟨buf, hext, hlen, hret⟩
    obtain rfl := extractData_eq hext
    rw [length_wire] at hlen
    have hlt : b.dataSize 0 < 2 ^ 31 := by exact_mod_cast hsize.1 hlen.symm
    rw [retrieveData_wire hrec (by rwa [length_wire])] at hret
    split_ifs at hret with hinfo
    exact ⟨hinfo, hlt⟩
  · rintro ⟨hinfo, hlt⟩
    have hlen : (b.wire.length : ℤ) = b.getDataSize 0 := by
      rw [hsize.2 (by exact_mod_cast hlt), length_wire]
    refine ⟨b.wire, ?_, hlen, ?_⟩
    · apply extractData_of_le
      · rw [← hlen, length_wire]
        exact_mod_cast hlt
      · exact hlen.le
    · rw [retrieveData_wire hrec (by rwa [length_wire]), if_pos hinfo]

/-- A bundle whose authentication header carries one byte. -/
def oneInfo : Bundle := ⟨⟨0, 0⟩, [], [.auth ⟨[1], by decide⟩], ⟨0, [], by decide⟩⟩

theorem roundTrips_iff_oneInfo :
    oneInfo.RoundTrips ↔ (∀ h ∈ oneInfo.headers, h.NoInfo) ∧ oneInfo.dataSize 0 < 2 ^ 31 :=
  roundTrips_iff (by decide)

/-- The byte is copied to a null pointer when it is read. -/
theorem oneInfo_not_roundTrips : ¬ oneInfo.RoundTrips := by
  rintro ⟨buf, hext, -, hret⟩
  have hbuf : extractData (oneInfo.getDataSize 0) oneInfo =
      some (some [7, 0, 5, 1, 1, 0, 0, 0, 0, 0]) := by decide +kernel
  obtain rfl : [7, 0, 5, 1, 1, 0, 0, 0, 0, 0] = buf :=
    Option.some.inj (Option.some.inj (hbuf.symm.trans hext))
  have hnone : retrieveData [7, 0, 5, 1, 1, 0, 0, 0, 0, 0] = none := by decide +kernel
  rw [hnone] at hret
  cases hret

end Bundle

end Ns2
