import Ns2.Dtn.StatCopies

/-! The sums that a message keeps for its queries: when they are computed anew, and when
they are those of its records. -/

namespace Ns2

open Option

/-- When a message was updated, and when each of its two sums was computed. -/
structure ReportTimes where
  updated : ℚ
  lastMiReport : ℚ
  lastNiReport : ℚ

namespace DtnMessage

/-- `mapNodes.size()`, the null entry included. -/
def size (m : DtnMessage) : ℕ := m.mapNodes.entries.length + if m.nullNode then 1 else 0

/-- `GetNumberOfNodesThatHaveSeeniT`; `none` is a null pointer. -/
def getNumberOfNodesThatHaveSeenIt (axeLength : ℕ) (now : ℚ) (binIndex : ℤ) (t : ReportTimes)
    (m : DtnMessage) : Option (DtnMessage × ReportTimes × ℤ) :=
  (if t.lastMiReport < t.updated ∧ 0 < m.size then
    (m.updateMiMap axeLength).map fun m => (m, { t with lastMiReport := now })
  else some (m, t)).map fun r =>
    (r.1, r.2, if r.1.miMap binIndex = 0 then 1 else r.1.miMap binIndex)

/-- `GetNumberOfCopiesAt`. -/
def getNumberOfCopiesAt (axeLength : ℕ) (now : ℚ) (binIndex : ℤ) (t : ReportTimes)
    (m : DtnMessage) : DtnMessage × ReportTimes × ℤ :=
  let r := if t.lastNiReport < t.updated ∧ 0 < m.size then
    (m.updateNiMap axeLength, { t with lastNiReport := now }) else (m, t)
  (r.1, r.2, if r.1.niMap binIndex = 0 then 1 else r.1.niMap binIndex)

/-- The records with a copy in a bin, and those that have seen the message there. -/
def copies (m : DtnMessage) (k : ℤ) : ℤ := (m.mapNodes.entries.map fun e => e.2.bitMap k).sum

def seenBy (m : DtnMessage) (k : ℤ) : ℤ := (m.mapNodes.entries.map fun e => e.2.miBitMap k).sum

end DtnMessage

/-- A report as nodes write it: its bits are 0 or 1. -/
structure BitReport extends Report where
  bits : ∀ k, bitMap k = 0 ∨ bitMap k = 1

/-- What writes records: the calls of `add_bundle` and `update_bundle_status`, a message of a
stat text in `update_network_stat`, and the check of a message. -/
inductive StatWrite where
  | addBundle (bundleId nodeId : List Char) (lt ttl : ℚ)
  | updateBundleStatus (nodeId bundleId : List Char) (del : ℤ) (lt ttl : ℚ)
  | receive (bundleId : List Char) (ttl : ℚ) (reports : List (List Char × BitReport))
  | isValid (bundleId : List Char) (binIndex : ℤ)

/-- Time goes on, records are written, and the two queries; all at the present instant. -/
inductive CacheEvent where
  | wait (d : ℚ≥0)
  | write (w : StatWrite)
  | seen (bundleId : List Char) (binIndex : ℤ)
  | copies (bundleId : List Char) (binIndex : ℤ)

namespace StatOwner

/-- `add_bundle` takes the bundle. -/
def hasRoom (now : ℚ) (ns : StatOwner) : Bool :=
  if ns.statSpryingPolicy = 2 then
    (ns.getNumberOfInvalidMessages now).any fun r => r.2 < ns.maxNumberOfStatMessages
  else ns.statSpryingPolicy = 0 ∧ ns.messagesNumber < ns.maxNumberOfStatMessages

/-- The message, without records when the matrix does not have it. -/
def message (id : List Char) (ns : StatOwner) : DtnMessage :=
  (ns.messagesMatrix.find id).getD (DtnMessage.new id 0 0)

end StatOwner

/-- The matrix of an agent with the times of its messages, and the clock. -/
structure StatCache where
  owner : StatOwner
  times : List Char → ReportTimes
  clock : ℚ

namespace StatCache

/-- A new message is updated and was never summed. -/
def entered (id : List Char) (s : StatCache) : ReportTimes :=
  match s.owner.messagesMatrix.find id with
  | some _ => s.times id
  | none => ⟨s.clock, 0, 0⟩

/-- `updated = TIME_IS`. -/
def touch (id : List Char) (s : StatCache) : List Char → ReportTimes :=
  Function.update s.times id { s.entered id with updated := s.clock }

/-- The records after a write. -/
def writes (s : StatCache) : StatWrite → Option StatOwner
  | .addBundle bundleId nodeId lt ttl => s.owner.addBundle bundleId nodeId lt ttl s.clock
  | .updateBundleStatus nodeId bundleId del lt ttl =>
    s.owner.updateBundleStatus nodeId bundleId del lt ttl s.clock
  | .receive bundleId ttl reports =>
    s.owner.receiveMessage bundleId ttl s.clock (reports.map fun e => (e.1, e.2.toReport))
  | .isValid bundleId binIndex =>
    match s.owner.messagesMatrix.find bundleId with
    | some m => (m.isValid s.owner.axeLength s.owner.endpoint s.clock binIndex).map fun v =>
        s.owner.setMessage bundleId v.1
    | none => some s.owner

/-- The times after a write. `update_message` does not set `updated`. -/
def timesAfter (s : StatCache) : StatWrite → List Char → ReportTimes
  | .addBundle bundleId _ _ _ => if s.owner.hasRoom s.clock then s.touch bundleId else s.times
  | .updateBundleStatus _ bundleId _ _ _ =>
    match s.owner.messagesMatrix.find bundleId with
    | some _ => s.touch bundleId
    | none => s.times
  | .receive bundleId _ _ => Function.update s.times bundleId (s.entered bundleId)
  | .isValid _ _ => s.times

/-- The matrix after a query of a message. -/
def answer (id : List Char) (r : DtnMessage × ReportTimes × ℤ) (s : StatCache) :
    StatCache × Option ℤ :=
  (⟨s.owner.setMessage id r.1, Function.update s.times id r.2.1, s.clock⟩, some r.2.2)

/-- The queries answer 1 for a message that is not in the matrix. -/
def step (s : StatCache) : CacheEvent → Option (StatCache × Option ℤ)
  | .wait d => some ({ s with clock := s.clock + d }, none)
  | .write w => (s.writes w).map fun owner => (⟨owner, s.timesAfter w, s.clock⟩, none)
  | .seen id binIndex =>
    match s.owner.messagesMatrix.find id with
    | some m => (m.getNumberOfNodesThatHaveSeenIt s.owner.axeLength s.clock binIndex
        (s.times id)).map fun r => s.answer id r
    | none => some (s, some 1)
  | .copies id binIndex =>
    match s.owner.messagesMatrix.find id with
    | some m => some (s.answer id
        (m.getNumberOfCopiesAt s.owner.axeLength s.clock binIndex (s.times id)))
    | none => some (s, some 1)

def machine : Machine StatCache CacheEvent (Option ℤ) := ⟨step⟩

/-- Asked now, both queries of a message that is not frozen answer what its records say. -/
def Right (s : StatCache) : Prop :=
  ∀ id m, s.owner.messagesMatrix.find id = some m → m.messageStatus ≠ 1 → ∀ k : ℕ,
    (∃ s', s.step (.seen id k) = some (s', some (max 1 (m.seenBy k)))) ∧
    ∃ s', s.step (.copies id k) = some (s', some (max 1 (m.copies k)))

/-- An agent with nothing in its matrix. -/
structure Fresh (s : StatCache) : Prop where
  matrix : s.owner.messagesMatrix = OrdMap.empty
  times : ∀ id, s.times id = ⟨0, 0, 0⟩
  clock : 0 ≤ s.clock

end StatCache

/-- A query of a sum answers right: the sum is computed now, and the records can be read, or it
was kept from before. -/
def Answers (axeLength : ℕ) (due readable : Prop) (kept sum : ℤ → ℤ) : Prop :=
  (due → readable ∧ ∀ k : ℕ, axeLength ≤ k → sum k ≤ 1) ∧
  (¬ due → ∀ k : ℕ, (if kept k = 0 then 1 else kept k) = max 1 (sum k))

/-- A write does not spoil a sum that had the value `before`. -/
def Suits (axeLength : ℕ) (due readable : Prop) (before sum : ℤ → ℤ) : Prop :=
  (due → readable ∧ ∀ k : ℕ, axeLength ≤ k → sum k ≤ 1) ∧
  (¬ due → ∀ k : ℕ, max 1 (sum k) = max 1 (before k))

theorem answers_iff_suits {axeLength : ℕ} {due due' readable readable' : Prop}
    {kept before sum : ℤ → ℤ} (h : Answers axeLength due readable kept before)
    (hdue : due → due') : Answers axeLength due' readable' kept sum ↔
      Suits axeLength due' readable' before sum := by
  refine and_congr_right fun _ => forall_congr' fun hnot => forall_congr' fun k => ?_
  rw [h.2 (fun hd => hnot (hdue hd)) k, eq_comm]

theorem one_max_of_nonneg {x : ℤ} (h : 0 ≤ x) : (if x = 0 then 1 else x) = max 1 x := by
  split_ifs <;> omega

theorem computed_iff {axeLength : ℕ} {kept sum : ℤ → ℤ}
    (hkept : ∀ k : ℕ, axeLength ≤ k → kept k = 0) (hsum : ∀ k, 0 ≤ sum k) :
    (∀ k : ℕ, (if (if 0 ≤ (k : ℤ) ∧ (k : ℤ) < axeLength then sum k else kept k) = 0 then 1
      else if 0 ≤ (k : ℤ) ∧ (k : ℤ) < axeLength then sum k else kept k) = max 1 (sum k)) ↔
    ∀ k : ℕ, axeLength ≤ k → sum k ≤ 1 := by
  refine forall_congr' fun k => ?_
  by_cases hk : (k : ℤ) < axeLength
  · have hin : 0 ≤ (k : ℤ) ∧ (k : ℤ) < axeLength := ⟨Int.natCast_nonneg k, hk⟩
    rw [if_pos hin, one_max_of_nonneg (hsum k)]
    exact iff_of_true rfl fun hle => absurd hk (by omega)
  · have hout : ¬ (0 ≤ (k : ℤ) ∧ (k : ℤ) < axeLength) := fun hin => hk hin.2
    rw [if_neg hout, hkept k (by omega), if_pos rfl, eq_comm, max_eq_left_iff]
    exact ⟨fun h _ => h, fun h => h (by omega)⟩

namespace DtnMessage

variable {axeLength : ℕ} {now : ℚ} {t t' : ReportTimes} {m m' : DtnMessage}

/-- No bit of a record is negative. -/
def Bits (m : DtnMessage) : Prop :=
  ∀ nodeId n, m.mapNodes.find nodeId = some n → ∀ k, 0 ≤ n.bitMap k ∧ 0 ≤ n.miBitMap k

/-- A message that is not frozen, with nothing kept behind the axis. -/
structure Kept (axeLength : ℕ) (m : DtnMessage) : Prop where
  status : m.messageStatus = 0
  miMap : ∀ k : ℕ, axeLength ≤ k → m.miMap k = 0
  niMap : ∀ k : ℕ, axeLength ≤ k → m.niMap k = 0
  bits : m.Bits

/-- The next query computes the sum. -/
def MiDue (t : ReportTimes) (m : DtnMessage) : Prop := t.lastMiReport < t.updated ∧ 0 < m.size

def NiDue (t : ReportTimes) (m : DtnMessage) : Prop := t.lastNiReport < t.updated ∧ 0 < m.size

/-- No null entry stands in the way of the sum over all records. -/
def Readable (axeLength : ℕ) (m : DtnMessage) : Prop := ¬ (m.nullNode = true ∧ 0 < axeLength)

/-- Both queries of the message answer what its records say. -/
def Sound (axeLength : ℕ) (t : ReportTimes) (m : DtnMessage) : Prop :=
  Answers axeLength (MiDue t m) (Readable axeLength m) m.miMap m.seenBy ∧
  Answers axeLength (NiDue t m) True m.niMap m.copies

/-- The records `m'` that a write leaves spoil no sum over the records `m`. -/
def Harmless (axeLength : ℕ) (t : ReportTimes) (m m' : DtnMessage) : Prop :=
  Suits axeLength (MiDue t m') (Readable axeLength m') m.seenBy m'.seenBy ∧
  Suits axeLength (NiDue t m') True m.copies m'.copies

theorem Bits.seenBy_nonneg (h : m.Bits) (k : ℤ) : 0 ≤ m.seenBy k := by
  refine List.sum_nonneg fun x hx => ?_
  obtain ⟨e, he, rfl⟩ := List.mem_map.1 hx
  exact (h e.1 e.2 (OrdMap.mem_entries.1 he) k).2

theorem Bits.copies_nonneg (h : m.Bits) (k : ℤ) : 0 ≤ m.copies k := by
  refine List.sum_nonneg fun x hx => ?_
  obtain ⟨e, he, rfl⟩ := List.mem_map.1 hx
  exact (h e.1 e.2 (OrdMap.mem_entries.1 he) k).1

theorem getNumberOfNodesThatHaveSeenIt_right_iff (now : ℚ) (hm : m.Kept axeLength) :
    (∀ k : ℕ, ∃ r, m.getNumberOfNodesThatHaveSeenIt axeLength now k t = some r ∧
      r.2.2 = max 1 (m.seenBy k)) ↔
    Answers axeLength (MiDue t m) (Readable axeLength m) m.miMap m.seenBy := by
  simp only [Answers, ← computed_iff hm.miMap hm.bits.seenBy_nonneg]
  by_cases hdue : t.lastMiReport < t.updated ∧ 0 < m.size
  · have hmi : MiDue t m := hdue
    simp only [getNumberOfNodesThatHaveSeenIt, if_pos hdue, updateMiMap, if_pos hm.status, hmi,
      not_true_eq_false, false_implies, and_true, true_implies]
    by_cases hnull : m.nullNode = true ∧ 0 < axeLength
    · simp [Readable, hnull]
    · have hread : Readable axeLength m := hnull
      simp only [if_neg hnull, map_some, some.injEq, exists_eq_left', hread, true_and]
      rfl
  · have hmi : ¬ MiDue t m := hdue
    simp only [getNumberOfNodesThatHaveSeenIt, if_neg hdue, map_some, some.injEq,
      exists_eq_left', hmi, false_implies, true_and, not_false_eq_true, true_implies]

theorem getNumberOfCopiesAt_right_iff (now : ℚ) (hm : m.Kept axeLength) :
    (∀ k : ℕ, (m.getNumberOfCopiesAt axeLength now k t).2.2 = max 1 (m.copies k)) ↔
    Answers axeLength (NiDue t m) True m.niMap m.copies := by
  simp only [Answers, true_and, ← computed_iff hm.niMap hm.bits.copies_nonneg]
  by_cases hdue : t.lastNiReport < t.updated ∧ 0 < m.size
  · have hni : NiDue t m := hdue
    simp only [getNumberOfCopiesAt, if_pos hdue, updateNiMap, if_pos hm.status, hni,
      not_true_eq_false, false_implies, and_true, true_implies]
    rfl
  · have hni : ¬ NiDue t m := hdue
    simp only [getNumberOfCopiesAt, if_neg hdue, hni, false_implies, true_and, not_false_eq_true,
      true_implies]

theorem Kept.getNumberOfNodesThatHaveSeenIt (hm : m.Kept axeLength) (hsound : m.Sound axeLength t)
    (hnow : t.updated ≤ now) {k : ℤ} {r : DtnMessage × ReportTimes × ℤ}
    (hr : m.getNumberOfNodesThatHaveSeenIt axeLength now k t = some r) :
    r.1.Kept axeLength ∧ r.1.Sound axeLength r.2.1 := by
  obtain ⟨q, hq, rfl⟩ := map_eq_some_iff.1 hr
  split_ifs at hq with hdue
  · obtain ⟨m₁, hm₁, rfl⟩ := map_eq_some_iff.1 hq
    simp only [updateMiMap, if_pos hm.status, ite_none_left_eq_some] at hm₁
    obtain rfl := some.inj hm₁.2
    refine ⟨⟨hm.status, fun k hk => ?_, hm.niMap, hm.bits⟩, ⟨fun h => ?_, fun _ => ?_⟩, hsound.2⟩
    · exact (if_neg (by omega)).trans (hm.miMap k hk)
    · exact absurd h.1 (not_lt.2 hnow)
    · exact (computed_iff hm.miMap hm.bits.seenBy_nonneg).2 (hsound.1.1 hdue).2
  · obtain rfl := some.inj hq
    exact ⟨hm, hsound⟩

theorem Kept.getNumberOfCopiesAt (hm : m.Kept axeLength) (hsound : m.Sound axeLength t)
    (hnow : t.updated ≤ now) (k : ℤ) :
    let r := m.getNumberOfCopiesAt axeLength now k t
    r.1.Kept axeLength ∧ r.1.Sound axeLength r.2.1 := by
  by_cases hdue : t.lastNiReport < t.updated ∧ 0 < m.size
  · simp only [DtnMessage.getNumberOfCopiesAt, if_pos hdue, updateNiMap, if_pos hm.status]
    refine ⟨⟨hm.status, hm.miMap, fun k hk => ?_, hm.bits⟩, hsound.1, fun h => ?_, fun _ => ?_⟩
    · exact (if_neg (by omega)).trans (hm.niMap k hk)
    · exact absurd h.1 (not_lt.2 hnow)
    · exact (computed_iff hm.niMap hm.bits.copies_nonneg).2 (hsound.2.1 hdue).2
  · simp only [DtnMessage.getNumberOfCopiesAt, if_neg hdue]
    exact ⟨hm, hsound⟩

theorem getNumberOfNodesThatHaveSeenIt_keeps {k : ℤ} {r : DtnMessage × ReportTimes × ℤ}
    (hr : m.getNumberOfNodesThatHaveSeenIt axeLength now k t = some r) :
    r.1.messageStatus = m.messageStatus ∧ r.2.1.updated = t.updated := by
  obtain ⟨q, hq, rfl⟩ := map_eq_some_iff.1 hr
  split_ifs at hq
  · obtain ⟨m₁, hm₁, rfl⟩ := map_eq_some_iff.1 hq
    rw [updateMiMap] at hm₁
    split_ifs at hm₁
    · exact some.inj hm₁ ▸ ⟨rfl, rfl⟩
    · exact some.inj hm₁ ▸ ⟨rfl, rfl⟩
  · exact some.inj hq ▸ ⟨rfl, rfl⟩

theorem getNumberOfCopiesAt_keeps (k : ℤ) :
    (m.getNumberOfCopiesAt axeLength now k t).1.messageStatus = m.messageStatus ∧
    (m.getNumberOfCopiesAt axeLength now k t).2.1.updated = t.updated := by
  rw [DtnMessage.getNumberOfCopiesAt, updateNiMap]
  split_ifs <;> exact ⟨rfl, rfl⟩

/-- What writes leave of a message that they do not freeze. -/
structure Grew (m m' : DtnMessage) : Prop where
  status : m'.messageStatus = m.messageStatus
  miMap : m'.miMap = m.miMap
  niMap : m'.niMap = m.niMap
  size : 0 < m.size → 0 < m'.size
  bits : m.Bits → m'.Bits

theorem Grew.refl (m : DtnMessage) : Grew m m := ⟨rfl, rfl, rfl, id, id⟩

theorem grew_setLifeTime (lt now : ℚ) (m : DtnMessage) : Grew m (m.setLifeTime lt now) :=
  ⟨rfl, rfl, rfl, id, id⟩

theorem Grew.trans {m'' : DtnMessage} (h : Grew m m') (h' : Grew m' m'') : Grew m m'' :=
  ⟨h'.status.trans h.status, h'.miMap.trans h.miMap, h'.niMap.trans h.niMap,
    fun hsize => h'.size (h.size hsize), fun hbits => h'.bits (h.bits hbits)⟩

theorem Grew.kept (h : Grew m m') (hm : m.Kept axeLength) : m'.Kept axeLength :=
  ⟨h.status.trans hm.status, h.miMap ▸ hm.miMap, h.niMap ▸ hm.niMap, h.bits hm.bits⟩

theorem Grew.sound_iff (h : Grew m m') (hsound : m.Sound axeLength t)
    (hmi : MiDue t m → t'.lastMiReport < t'.updated)
    (hni : NiDue t m → t'.lastNiReport < t'.updated) :
    m'.Sound axeLength t' ↔ Harmless axeLength t' m m' := by
  rw [Sound, h.miMap, h.niMap]
  exact and_congr (answers_iff_suits hsound.1 fun hdue => ⟨hmi hdue, h.size hdue.2⟩)
    (answers_iff_suits hsound.2 fun hdue => ⟨hni hdue, h.size hdue.2⟩)

theorem sound_new (id : List Char) (ttl now : ℚ) : (DtnMessage.new id ttl now).Sound axeLength t := by
  have hsize : ¬ 0 < (DtnMessage.new id ttl now).size := by
    change ¬ 0 < 0
    omega
  exact ⟨⟨fun h => absurd h.2 hsize, fun _ _ => rfl⟩, ⟨fun h => absurd h.2 hsize, fun _ _ => rfl⟩⟩

theorem kept_new (id : List Char) (ttl now : ℚ) : (DtnMessage.new id ttl now).Kept axeLength :=
  ⟨rfl, fun _ _ => rfl, fun _ _ => rfl, fun _ _ hn => (by cases hn)⟩

theorem grew_setNode (m : DtnMessage) (nodeId : List Char) {n : StatNode}
    (hn : m.Bits → ∀ k, 0 ≤ n.bitMap k ∧ 0 ≤ n.miBitMap k) : Grew m (m.setNode nodeId n) := by
  refine ⟨rfl, rfl, rfl, fun _ => ?_, fun hm nodeId' n' hn' => ?_⟩
  · have hmem : (nodeId, n) ∈ (m.mapNodes.set nodeId n).entries := by
      rw [OrdMap.mem_entries, OrdMap.find_set, if_pos rfl]
    exact (List.length_pos_of_mem hmem).trans_le (Nat.le_add_right _ _)
  · have hfind : (m.mapNodes.set nodeId n).find nodeId' = some n' := hn'
    rw [OrdMap.find_set] at hfind
    split_ifs at hfind
    · obtain rfl := some.inj hfind
      exact hn hm
    · exact hm nodeId' n' hfind

theorem bits_setTimeBinValue {n n' : StatNode} {bin : ℕ} {value : ℤ} {newOld : Bool}
    (h : n.setTimeBinValue axeLength bin value true newOld = some n')
    (hn : ∀ k, 0 ≤ n.bitMap k ∧ 0 ≤ n.miBitMap k) (k : ℤ) : 0 ≤ n'.bitMap k ∧ 0 ≤ n'.miBitMap k := by
  obtain ⟨-, hbits, hflags⟩ := setTimeBinValue_eq h
  rw [hbits k, hflags k]
  have := hn k
  split_ifs <;> omega

theorem grew_addNodeBin {endpoint nodeId : List Char} {bin statVersion : ℕ} {value : ℤ}
    {meetingTime : ℚ}
    (h : m.addNodeBin axeLength endpoint nodeId bin value meetingTime now statVersion = some m') :
    Grew m m' := by
  rw [addNodeBin] at h
  split_ifs at h
  split at h
  · next n hn =>
    obtain ⟨v, hv, rfl⟩ := map_eq_some_iff.1 h
    refine (grew_setLifeTime _ now m).trans (grew_setNode _ nodeId fun hm => ?_)
    have hbits := bits_setTimeBinValue hv (hm nodeId n hn)
    exact hbits
  · obtain ⟨v, hv, rfl⟩ := map_eq_some_iff.1 h
    exact (grew_setLifeTime _ now m).trans
      (grew_setNode _ nodeId fun _ => bits_setTimeBinValue hv fun k => ⟨le_rfl, le_rfl⟩)

theorem bits_update {n : StatNode} (r : BitReport) (hn : ∀ k, 0 ≤ n.bitMap k ∧ 0 ≤ n.miBitMap k)
    (k : ℤ) : 0 ≤ (r.update axeLength n).bitMap k ∧ 0 ≤ (r.update axeLength n).miBitMap k := by
  have hr : 0 ≤ r.bitMap k := by
    rcases r.bits k with h | h <;> omega
  have := hn k
  simp only [Report.update, StatNode.updateMiBitMap, StatNode.updateBitMap]
  split_ifs <;> dsimp only <;> split_ifs <;> omega

theorem grew_addNodeReport {endpoint nodeId : List Char} {r : BitReport}
    (h : m.addNodeReport axeLength endpoint nodeId r.toReport = some m') : Grew m m' := by
  rw [addNodeReport] at h
  split_ifs at h
  obtain ⟨v, hv, rfl⟩ := map_eq_some_iff.1 h
  rw [Message.addNode] at hv
  split_ifs at hv
  split at hv
  · next n hn =>
    split_ifs at hv
    · obtain rfl := some.inj hv
      exact grew_setNode m nodeId fun hm => bits_update r (hm nodeId n hn)
    · obtain rfl := some.inj hv
      exact Grew.refl m
  · obtain rfl := some.inj hv
    rw [Report.create_eq_update]
    exact grew_setNode m nodeId fun _ => bits_update r fun k => ⟨le_rfl, le_rfl⟩

theorem grew_setTtlVersion {endpoint : List Char}
    (h : m.setTtlVersion axeLength endpoint now = some m') : Grew m m' := by
  have hget : Grew m (m.getLifeTime now) := grew_setLifeTime _ now m
  rw [setTtlVersion] at h
  split_ifs at h
  · split at h
    · next n hn =>
      split_ifs at h
      · obtain ⟨v, hv, rfl⟩ := map_eq_some_iff.1 h
        exact hget.trans (grew_setNode _ endpoint fun hm => bits_setTimeBinValue hv (hm endpoint n hn))
      · exact some.inj h ▸ hget
    · obtain rfl := some.inj h
      refine ⟨rfl, rfl, rfl, fun _ => ?_, fun hm => hm⟩
      exact Nat.succ_pos _
  · exact some.inj h ▸ hget

theorem grew_isValid {endpoint : List Char} {binIndex : ℤ} {v : DtnMessage × Bool}
    (h : m.isValid axeLength endpoint now binIndex = some v) (hstatus : v.1.messageStatus ≠ 1) :
    Grew m v.1 := by
  rw [isValid] at h
  by_cases hfrozen : m.messageStatus = 1
  · rw [if_pos hfrozen] at h
    obtain rfl := some.inj h
    exact Grew.refl m
  · rw [if_neg hfrozen] at h
    obtain ⟨m₁, hset, h⟩ := bind_eq_some_iff.1 h
    change (if (axeLength : ℤ) ≤ m₁.smallerVersion axeLength ∧ 2 ≤ m₁.size then _ else _) = _ at h
    by_cases hcomplete : (axeLength : ℤ) ≤ m₁.smallerVersion axeLength ∧ 2 ≤ m₁.size
    · rw [if_pos hcomplete] at h
      obtain ⟨m₂, -, rfl⟩ := map_eq_some_iff.1 h
      exact absurd rfl hstatus
    · rw [if_neg hcomplete] at h
      obtain rfl := some.inj h
      exact grew_setTtlVersion hset

end DtnMessage

end Ns2
