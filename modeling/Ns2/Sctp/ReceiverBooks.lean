import Ns2.Lib.Ranges
import Ns2.Sctp.Receiver

/-! The cum ack and the block list of the receiver say which TSNs it has seen, as
long as no DATA chunk arrives late: above all TSNs that arrived, but at or below a
TSN it was forwarded to. -/

namespace Ns2.Sctp

open List

variable {seen : Set ℕ} {r r' : RecvTsns} {s s' : Receiver} {tsn t newCum : ℕ} {c : DataChunk}
  {a : Treatment} {chunks pre post : List Chunk}

/-- The cum ack and the blocks hold exactly the TSNs of `seen`. -/
structure RecvTsns.Tracks (seen : Set ℕ) (r : RecvTsns) : Prop where
  separated : Separated r.cumAck r.recvTsnBlockList
  below : ∀ t, 1 ≤ t → t ≤ r.cumAck → t ∈ seen
  above : ∀ t, r.cumAck < t → (t ∈ seen ↔ InBlocks r.recvTsnBlockList t)

namespace RecvTsns

variable {l : List RecvTsnBlock} {cumAck cumAck' : ℕ}

theorem Tracks.cumAck_succ_not_mem (h : Tracks seen r) : r.cumAck + 1 ∉ seen := by
  rw [h.above _ (Nat.lt_succ_self _)]
  intro hin
  have := h.separated.lt_of_inBlocks hin
  omega

theorem Tracks.isGreatest (h : Tracks seen r) :
    IsGreatest {T | ∀ t, 1 ≤ t → t ≤ T → t ∈ seen} r.cumAck := by
  refine ⟨h.below, fun T hT => ?_⟩
  by_contra hlt
  exact h.cumAck_succ_not_mem (hT _ (by omega) (by omega))

theorem Exit.inBlocks_iff {pre post : List RecvTsnBlock} (h : Exit cumAck tsn pre post cumAck' l)
    (hne : ∀ b ∈ pre ++ post, b.startTsn ≤ b.endTsn) (ht : cumAck' < t) :
    InBlocks l t ↔ t = tsn ∨ InBlocks (pre ++ post) t := by
  cases h with
  | @lowerEdge pre post b hb hlow =>
    have := hne b (by simp)
    simp only [inBlocks_append, inBlocks_cons]
    grind
  | cumAck hcum hlow hpost =>
    have : t ≠ tsn := by omega
    simp [this]
  | @upperEdge pre post a ha hcum hpost =>
    have := hne a (by simp)
    simp only [inBlocks_append, inBlocks_cons, not_inBlocks_nil, or_false]
    grind
  | newBlock hlow hpost =>
    simp only [inBlocks_append, inBlocks_cons]
    grind
  | @cumAckGap pre post b hcum hlow hb =>
    have := hne b (by simp)
    simp only [inBlocks_append, inBlocks_cons]
    grind
  | @gap pre post a b ha hcum hb =>
    have := hne a (by simp)
    have := hne b (by simp)
    simp only [inBlocks_append, inBlocks_cons, not_inBlocks_nil, or_false]
    grind

theorem Exit.separated {pre post : List RecvTsnBlock} (h : Exit cumAck tsn pre post cumAck' l)
    (hsep : Separated cumAck (pre ++ post)) (hlt : cumAck < tsn) (hpre : ∀ b ∈ pre, b.endTsn < tsn) :
    Separated cumAck' l := by
  have hlast : lastEnd cumAck pre < tsn := by
    rcases eq_nil_or_concat' pre with rfl | ⟨pre, b, rfl⟩
    · exact hlt
    · rw [lastEnd_concat]
      exact hpre b (by simp)
  obtain ⟨hsep₁, hsep₂⟩ := separated_append.1 hsep
  cases h with
  | @lowerEdge pre post b hb hlow =>
    obtain ⟨-, hle, hsep₃⟩ := hsep₂
    exact separated_append.2 ⟨hsep₁, hlow, by simp only; omega, hsep₃⟩
  | cumAck hcum hlow hhead =>
    rcases hsep₁.eq_nil_or with rfl | hend
    · refine hsep₂.mono fun b hb => ?_
      have := hhead b hb
      omega
    · omega
  | @upperEdge pre post a ha hcum hhead =>
    obtain ⟨hsep₁, hlo, hle, -⟩ := separated_append.1 hsep₁
    exact separated_append.2 ⟨hsep₁, hlo, by simp only; omega, hsep₂.mono hhead⟩
  | newBlock hlow hhead =>
    exact separated_append.2 ⟨hsep₁, by simp only; omega, le_rfl, hsep₂.mono hhead⟩
  | @cumAckGap pre post b hcum hlow hb =>
    rcases hsep₁.eq_nil_or with rfl | hend
    · exact hsep₂.2.2
    · omega
  | @gap pre post a b ha hcum hb =>
    obtain ⟨hsep₁, hlo, hle, -⟩ := separated_append.1 hsep₁
    rw [lastEnd_concat] at hsep₂
    obtain ⟨-, hle', hsep₃⟩ := hsep₂
    exact separated_append.2 ⟨hsep₁, hlo, by simp only; omega, hsep₃⟩

theorem Exit.cumAck_le {pre post : List RecvTsnBlock} (h : Exit cumAck tsn pre post cumAck' l)
    (hne : ∀ b ∈ pre ++ post, b.startTsn ≤ b.endTsn) (ht : t ≤ cumAck') :
    t ≤ cumAck ∨ t = tsn ∨ InBlocks (pre ++ post) t := by
  cases h with
  | lowerEdge hb hlow => exact Or.inl ht
  | cumAck hcum hlow hpost => omega
  | upperEdge ha hcum hpost => exact Or.inl ht
  | newBlock hlow hpost => exact Or.inl ht
  | @cumAckGap pre post b hcum hlow hb =>
    have := hne b (by simp)
    simp only [inBlocks_append, inBlocks_cons]
    omega
  | gap ha hcum hb => exact Or.inl ht

theorem Exit.le_cumAck {pre post : List RecvTsnBlock} (h : Exit cumAck tsn pre post cumAck' l)
    (hne : ∀ b ∈ pre ++ post, b.startTsn ≤ b.endTsn) : cumAck ≤ cumAck' := by
  cases h with
  | lowerEdge hb hlow => exact le_rfl
  | cumAck hcum hlow hpost => omega
  | upperEdge ha hcum hpost => exact le_rfl
  | newBlock hlow hpost => exact le_rfl
  | @cumAckGap pre post b hcum hlow hb =>
    have := hne b (by simp)
    omega
  | gap ha hcum hb => exact le_rfl

theorem Tracks.updateRecvTsnBlocks (h : Tracks seen r) (hlt : r.cumAck < tsn) (hnew : tsn ∉ seen) :
    ∃ r', r.updateRecvTsnBlocks tsn = some r' ∧ Tracks (insert tsn seen) r' ∧
      r'.highestRecvTsn = r.highestRecvTsn := by
  obtain ⟨r', pre, post, c, l, hr', hsplit, hexit, hres, hpassed⟩ :=
    updateRecvTsnBlocks_records r tsn
  have hnot : ¬ InBlocks r.recvTsnBlockList tsn := fun hin => hnew ((h.above _ hlt).2 hin)
  have hsep := hsplit ▸ h.separated
  have hne : ∀ b ∈ pre ++ post, b.startTsn ≤ b.endTsn := fun b hb => (hsep.lt_of_mem hb).2
  have hsep' := hexit.separated hsep hlt (hpassed hlt hnot)
  have heq : r' = { r with cumAck := c, recvTsnBlockList := l } := by
    rcases hres with rfl | rfl
    · rfl
    · rw [updateCumAck, cumAckOver_eq hsep']
  have habove : ∀ t, r.cumAck < t → (t ∈ seen ↔ InBlocks (pre ++ post) t) := hsplit ▸ h.above
  have hle : r.cumAck ≤ c := hexit.le_cumAck hne
  refine ⟨r', hr', heq ▸ ⟨hsep', fun t h₁ ht => ?_, fun t ht => ?_⟩, by rw [heq]⟩
  · rcases hexit.cumAck_le hne ht with ht | rfl | ht
    · exact Set.mem_insert_of_mem _ (h.below t h₁ ht)
    · exact Set.mem_insert _ _
    · exact Set.mem_insert_of_mem _ ((habove t (by have := hsep.lt_of_inBlocks ht; omega)).2 ht)
  · rw [Set.mem_insert_iff, hexit.inBlocks_iff hne ht, habove t (by simp only at ht; omega)]

theorem Tracks.isDuplicateChunk_iff (h : Tracks seen r) (tsn : ℕ) (h₁ : 1 ≤ tsn)
    (hle : r.cumAck < tsn → tsn ∈ seen → tsn ≤ r.highestRecvTsn) :
    r.isDuplicateChunk tsn = true ↔ tsn ∈ seen := by
  unfold isDuplicateChunk
  split_ifs with hcum hhigh hnil
  · exact iff_of_true rfl (h.below _ h₁ hcum)
  · rw [h.above _ (by omega), length_eq_zero_iff.1 hnil]
    simp
  · rw [findTsn_iff h.separated, h.above _ (by omega)]
  · exact iff_of_false (by simp) fun hin => hhigh ⟨by omega, hle (by omega) hin⟩

theorem Tracks.forwardTsn (h : Tracks seen r) (hcum : r.cumAck < intMax) (hnew : newCum < intMax)
    (hle : ∀ t ∈ seen, r.cumAck < t → t ≤ r.highestRecvTsn) :
    ∃ r', r.forwardTsn newCum = some r' ∧ Tracks (seen ∪ Set.Icc 1 newCum) r' ∧
      r'.highestRecvTsn = r.highestRecvTsn := by
  rw [RecvTsns.forwardTsn, if_pos ⟨hcum, hnew⟩]
  suffices hloop : ∀ n, ∃ r', (range' (r.cumAck + 1) n).foldlM (fun r i =>
      if r.isDuplicateChunk i then some r else r.updateRecvTsnBlocks i) r = some r' ∧
      Tracks (seen ∪ Set.Icc 1 (r.cumAck + n)) r' ∧ r'.highestRecvTsn = r.highestRecvTsn by
    obtain ⟨r', hr', htr, hhigh⟩ := hloop (newCum - r.cumAck)
    refine ⟨r', hr', ?_, hhigh⟩
    have hset : seen ∪ Set.Icc 1 (r.cumAck + (newCum - r.cumAck)) = seen ∪ Set.Icc 1 newCum := by
      ext t
      simp only [Set.mem_union, Set.mem_Icc]
      refine or_congr_right' fun hnot => ⟨fun ht => ⟨ht.1, ?_⟩, fun ht => ⟨ht.1, by omega⟩⟩
      by_contra hgt
      exact hnot (h.below t ht.1 (by omega))
    rwa [← hset]
  intro n
  induction n with
  | zero =>
    refine ⟨r, rfl, ?_, rfl⟩
    have hset : seen ∪ Set.Icc 1 (r.cumAck + 0) = seen :=
      Set.union_eq_left.2 fun t ht => h.below t ht.1 ht.2
    rwa [hset]
  | succ n ih =>
    obtain ⟨r₁, hr₁, htr₁, hhigh₁⟩ := ih
    have hset : seen ∪ Set.Icc 1 (r.cumAck + (n + 1)) =
        insert (r.cumAck + 1 + n) (seen ∪ Set.Icc 1 (r.cumAck + n)) := by
      ext t
      have ht : 1 ≤ t ∧ t ≤ r.cumAck + (n + 1) ↔
          t = r.cumAck + 1 + n ∨ 1 ≤ t ∧ t ≤ r.cumAck + n := by omega
      simp only [Set.mem_union, Set.mem_insert_iff, Set.mem_Icc, ht, or_left_comm]
    have hcum₁ : r.cumAck + n ≤ r₁.cumAck := by
      refine htr₁.isGreatest.2 fun t h₁ ht => Or.inr ⟨h₁, ht⟩
    have hdup := htr₁.isDuplicateChunk_iff (r.cumAck + 1 + n) (by omega) fun hlt hin => by
      rw [hhigh₁]
      rcases hin with hin | hin
      · exact hle _ hin (by omega)
      · have := hin.2
        omega
    rw [range'_concat, foldlM_append, hr₁]
    simp only [Nat.one_mul, Option.bind_eq_bind, Option.bind_some, foldlM_cons,
      foldlM_nil]
    rw [hset]
    split_ifs with hd
    · exact ⟨r₁, rfl, by rwa [Set.insert_eq_of_mem (hdup.1 hd)], hhigh₁⟩
    · have hlt : r₁.cumAck < r.cumAck + 1 + n := by
        by_contra hge
        exact hd (hdup.2 (htr₁.below _ (by omega) (by omega)))
      obtain ⟨r₂, hr₂, htr₂, hhigh₂⟩ := htr₁.updateRecvTsnBlocks hlt fun hin => hd (hdup.2 hin)
      exact ⟨r₂, by rw [hr₂]; rfl, htr₂, hhigh₂.trans hhigh₁⟩

end RecvTsns

namespace Receiver

@[simp] theorem passToUpperLayer_tsns : (s.passToUpperLayer c).tsns = s.tsns := rfl

@[simp] theorem passToUpperLayer_inStreams :
    (s.passToUpperLayer c).inStreams = s.inStreams := rfl

@[simp] theorem foldl_passToUpperLayer_tsns (l : List DataChunk) :
    (l.foldl passToUpperLayer s).tsns = s.tsns := by
  induction l generalizing s with
  | nil => rfl
  | cons c l ih => simp [ih]

@[simp] theorem foldl_passToUpperLayer_inStreams (l : List DataChunk) :
    (l.foldl passToUpperLayer s).inStreams = s.inStreams := by
  induction l generalizing s with
  | nil => rfl
  | cons c l ih => simp [ih]

@[simp] theorem updateStream_tsns (i : ℕ) : (s.updateStream i).tsns = s.tsns := by
  unfold updateStream
  split
  · rfl
  · simp

@[simp] theorem length_updateStream (i : ℕ) :
    (s.updateStream i).inStreams.length = s.inStreams.length := by
  unfold updateStream
  split
  · rfl
  · simp

theorem foldl_updateStream_frame (l : List ℕ) (s : Receiver) : (l.foldl updateStream s).tsns = s.tsns ∧
    (l.foldl updateStream s).inStreams.length = s.inStreams.length := by
  induction l generalizing s with
  | nil => exact ⟨rfl, rfl⟩
  | cons i l ih => simpa using ih (s.updateStream i)

@[simp] theorem updateAllStreams_tsns : s.updateAllStreams.tsns = s.tsns :=
  (foldl_updateStream_frame _ _).1

@[simp] theorem length_updateAllStreams :
    s.updateAllStreams.inStreams.length = s.inStreams.length :=
  (foldl_updateStream_frame _ _).2

theorem passToStream_frame (s : Receiver) (hc : c.streamId < s.inStreams.length) :
    ∃ s', s.passToStream c = some s' ∧ s'.tsns = s.tsns ∧
      s'.inStreams.length = s.inStreams.length := by
  unfold passToStream
  rw [getElem?_eq_getElem hc, Option.map_some]
  refine ⟨_, rfl, ?_, ?_⟩
  all_goals split_ifs <;> simp

end Receiver

theorem RecvTsns.updateHighestTsn_eq (r : RecvTsns) (tsn : ℕ) : r.updateHighestTsn tsn =
    ({ r with highestRecvTsn := max r.highestRecvTsn tsn }, decide (r.highestRecvTsn < tsn)) := by
  unfold updateHighestTsn
  split_ifs with h
  · simp [h, max_eq_right h.le]
  · simp [h, max_eq_left (not_lt.1 h)]

namespace Receiver

theorem processDataChunk_duplicate (hroom : c.length ≤ s.myRwnd)
    (hhigh : c.tsn ≤ s.tsns.highestRecvTsn) (hdup : s.tsns.isDuplicateChunk c.tsn = true) :
    s.processDataChunk c = some ({ s with
      dupTsnList := insertDuplicateTsn c.tsn s.dupTsnList, sackChunkNeeded := true },
      .duplicate) := by
  simp only [processDataChunk, if_pos hroom, RecvTsns.updateHighestTsn_eq, max_eq_left hhigh,
    decide_eq_true_eq, not_lt.2 hhigh, ne_eq, not_false_eq_true, true_and]
  exact if_pos hdup

theorem processDataChunk_accepted (hroom : c.length ≤ s.myRwnd)
    (hc : c.streamId < s.inStreams.length)
    (hnew : s.tsns.highestRecvTsn < c.tsn ∨ s.tsns.isDuplicateChunk c.tsn = false) :
    ∃ s₁, RecvTsns.updateRecvTsnBlocks
        { s.tsns with highestRecvTsn := max s.tsns.highestRecvTsn c.tsn } c.tsn = some s₁.tsns ∧
      passToStream { s with tsns := s₁.tsns, myRwnd := s.myRwnd - c.length } c = some s₁ ∧
      s.processDataChunk c = some (s₁.updateAllStreams, .accepted) ∧
      s₁.inStreams.length = s.inStreams.length := by
  obtain ⟨tsns, -, -, -, -, htsns, -⟩ := RecvTsns.updateRecvTsnBlocks_records
    { s.tsns with highestRecvTsn := max s.tsns.highestRecvTsn c.tsn } c.tsn
  obtain ⟨s₁, hs₁, rfl, hlen⟩ := passToStream_frame
    { s with tsns := tsns, myRwnd := s.myRwnd - c.length } hc
  refine ⟨s₁, htsns, hs₁, ?_, hlen⟩
  simp only [processDataChunk, if_pos hroom, RecvTsns.updateHighestTsn_eq]
  rw [if_neg, htsns]
  · simp only [Option.bind_eq_bind, Option.bind_some, hs₁]
  · rintro ⟨hle, hdup⟩
    rcases hnew with hlt | hnot
    · exact hle (decide_eq_true hlt)
    · have hle : c.tsn ≤ s.tsns.highestRecvTsn := not_lt.1 fun hlt => hle (decide_eq_true hlt)
      rw [max_eq_left hle, hnot] at hdup
      cases hdup

end Receiver

/-- The TSN arrived in a DATA chunk. -/
def Received (hist : List Chunk) (t : ℕ) : Prop := ∃ c, Chunk.data c ∈ hist ∧ c.tsn = t

/-- The TSN arrived, or lies at or below a TSN the receiver was forwarded to. -/
def Seen (hist : List Chunk) (t : ℕ) : Prop :=
  Received hist t ∨ ∃ n, Chunk.forwardTsn n ∈ hist ∧ t ≤ n

/-- The TSN of a DATA chunk that was accepted. -/
def acceptedTsn : Chunk × Treatment → Option ℕ
  | (.data c, .accepted) => some c.tsn
  | _ => none

def acceptedTsns (chunks : List Chunk) (as : List Treatment) : List ℕ :=
  (chunks.zip as).filterMap acceptedTsn

/-- What the receiver's variables are to say of the chunks processed so far. -/
structure Books (hist : List Chunk) (r : RecvTsns) : Prop where
  cumAck : IsGreatest {T | ∀ t, 1 ≤ t → t ≤ T → Seen hist t} r.cumAck
  increasing : r.recvTsnBlockList.Pairwise fun a b => a.endTsn < b.startTsn
  blocks : ∀ b : RecvTsnBlock, b ∈ r.recvTsnBlockList ↔
    MaximalRun {t | r.cumAck < t ∧ Received hist t} (b.startTsn, b.endTsn + 1)

/-- After every prefix of the chunks the books are right and no TSN was accepted
twice, and the next DATA chunk is accepted exactly when its TSN is new. -/
def KeepsBooks (s₀ : Receiver) (chunks : List Chunk) : Prop :=
  ∀ pre post, chunks = pre ++ post → ∃ s as, receiver.run s₀ pre = some (s, as) ∧
    Books pre s.tsns ∧ (acceptedTsns pre as).Nodup ∧
    ∀ c post', post = .data c :: post' → ∃ s' a, receiver.step s (.data c) = some (s', a) ∧
      (a = .accepted ↔ ¬ Received pre c.tsn ∧ ¬ c.tsn ≤ s.tsns.cumAck)

/-- There is room in the window for a DATA chunk. -/
def HasRoom (s : Receiver) : Chunk → Prop
  | .data c => c.length ≤ s.myRwnd
  | .forwardTsn _ => True

/-- A DATA chunk is not late: an earlier one had a TSN as high as its own, or no
FORWARD TSN reached its TSN. The TSNs of a FORWARD TSN can be counted in an `int`. -/
def OnTime (hist : List Chunk) : Chunk → Prop
  | .data c => (∃ d, Chunk.data d ∈ hist ∧ c.tsn ≤ d.tsn) ∨
      ∀ n, Chunk.forwardTsn n ∈ hist → n < c.tsn
  | .forwardTsn n => n < RecvTsns.intMax ∧
      ∃ t, 1 ≤ t ∧ t ≤ RecvTsns.intMax ∧ ¬ Seen hist t

instance : ∀ s c, Decidable (HasRoom s c)
  | s, .data c => inferInstanceAs (Decidable (c.length ≤ s.myRwnd))
  | _, .forwardTsn _ => isTrue trivial

def InTime (chunks : List Chunk) : Prop :=
  ∀ pre c post, chunks = pre ++ c :: post → OnTime pre c

/-- The highest TSN of the DATA chunks so far. -/
structure HighestIs (hist : List Chunk) (n : ℕ) (s : Receiver) : Prop where
  le : ∀ t, Received hist t → t ≤ s.tsns.highestRecvTsn
  received : s.tsns.highestRecvTsn = 0 ∨ Received hist s.tsns.highestRecvTsn
  streams : s.inStreams.length = n

@[simp] theorem received_nil : ¬ Received [] t := by simp [Received]

@[simp] theorem received_data : Received (pre ++ [.data c]) t ↔ Received pre t ∨ t = c.tsn := by
  simp [Received, or_and_right, exists_or, eq_comm]

@[simp] theorem received_forwardTsn :
    Received (pre ++ [.forwardTsn newCum]) t ↔ Received pre t := by
  simp [Received]

theorem seen_data : {t | Seen (pre ++ [.data c]) t} = insert c.tsn {t | Seen pre t} := by
  ext t
  simp only [Set.mem_ofPred_eq, Seen, received_data, mem_append, mem_singleton,
    reduceCtorEq, or_false, Set.mem_insert_iff]
  tauto

theorem seen_forwardTsn :
    {t | Seen (pre ++ [.forwardTsn newCum]) t} = {t | Seen pre t} ∪ Set.Iic newCum := by
  ext t
  simp [Seen, or_and_right, exists_or, or_assoc]

theorem processForwardTsnChunk_frame (h : s.processForwardTsnChunk newCum = some (s', a)) :
    s.tsns.forwardTsn newCum = some s'.tsns ∧ s'.inStreams.length = s.inStreams.length ∧
      a = .forwarded := by
  obtain ⟨tsns, htsns, heq⟩ := Option.map_eq_some_iff.1 h
  obtain ⟨rfl, rfl⟩ := Prod.mk.inj heq
  exact ⟨by simpa using htsns, by simp, rfl⟩

theorem RecvTsns.updateRecvTsnBlocks_highest (h : r.updateRecvTsnBlocks tsn = some r') :
    r'.highestRecvTsn = r.highestRecvTsn := by
  obtain ⟨r₁, -, -, c, l, hr₁, -, -, hres, -⟩ := updateRecvTsnBlocks_records r tsn
  obtain rfl := Option.some.inj (h.symm.trans hr₁)
  rcases hres with rfl | rfl
  all_goals rfl

theorem RecvTsns.forwardTsn_highest (h : r.forwardTsn newCum = some r') :
    r'.highestRecvTsn = r.highestRecvTsn := by
  unfold RecvTsns.forwardTsn at h
  split_ifs at h
  refine foldlM_keeps (Q := fun r₁ => r₁.highestRecvTsn = r.highestRecvTsn) ?_ h rfl
  intro i r₁ r₂ hstep hr₁
  split_ifs at hstep
  · exact Option.some.inj hstep ▸ hr₁
  · exact (RecvTsns.updateRecvTsnBlocks_highest hstep).trans hr₁

theorem processDataChunk_cases (hroom : c.length ≤ s.myRwnd)
    (hc : c.streamId < s.inStreams.length) :
    (∃ s', s.processDataChunk c = some (s', .duplicate) ∧ s'.tsns = s.tsns ∧
      s'.inStreams.length = s.inStreams.length ∧ c.tsn ≤ s.tsns.highestRecvTsn ∧
      s.tsns.isDuplicateChunk c.tsn = true) ∨
    ∃ s', s.processDataChunk c = some (s', .accepted) ∧ RecvTsns.updateRecvTsnBlocks
        { s.tsns with highestRecvTsn := max s.tsns.highestRecvTsn c.tsn } c.tsn = some s'.tsns ∧
      s'.inStreams.length = s.inStreams.length ∧
      (s.tsns.highestRecvTsn < c.tsn ∨ s.tsns.isDuplicateChunk c.tsn = false) ∧
      ∃ s₁, Receiver.passToStream
        { s with tsns := s'.tsns, myRwnd := s.myRwnd - c.length } c = some s₁ ∧
        s' = s₁.updateAllStreams := by
  by_cases hdup : c.tsn ≤ s.tsns.highestRecvTsn ∧ s.tsns.isDuplicateChunk c.tsn = true
  · exact Or.inl ⟨_, Receiver.processDataChunk_duplicate hroom hdup.1 hdup.2, rfl, rfl, hdup⟩
  · have hnew : s.tsns.highestRecvTsn < c.tsn ∨ s.tsns.isDuplicateChunk c.tsn = false := by
      rw [not_and_or, not_le, Bool.not_eq_true] at hdup
      exact hdup
    obtain ⟨s₁, htsns, hs₁, hs', hlen⟩ := Receiver.processDataChunk_accepted hroom hc hnew
    exact Or.inr ⟨_, hs', by rwa [Receiver.updateAllStreams_tsns], by simpa using hlen, hnew, s₁,
      by rwa [Receiver.updateAllStreams_tsns], rfl⟩

theorem HighestIs.step {n : ℕ} {chunk : Chunk} (h : HighestIs pre n s) (hroom : HasRoom s chunk)
    (hstream : ∀ c, chunk = .data c → c.streamId < n)
    (hstep : receiver.step s chunk = some (s', a)) : HighestIs (pre ++ [chunk]) n s' := by
  cases chunk with
  | data c =>
    have hc : c.streamId < s.inStreams.length := h.streams ▸ hstream c rfl
    rcases processDataChunk_cases hroom hc with
      ⟨s₁, hs₁, htsns, hlen, hle, -⟩ | ⟨s₁, hs₁, htsns, hlen, -⟩
    · obtain ⟨rfl, -⟩ := Prod.mk.inj (Option.some.inj (hs₁.symm.trans hstep))
      refine ⟨fun t ht => ?_, ?_, hlen.trans h.streams⟩
      · rw [htsns]
        rcases received_data.1 ht with ht | rfl
        · exact h.le t ht
        · exact hle
      · rw [htsns, received_data]
        exact h.received.imp_right Or.inl
    · obtain ⟨rfl, -⟩ := Prod.mk.inj (Option.some.inj (hs₁.symm.trans hstep))
      have hhigh := RecvTsns.updateRecvTsnBlocks_highest htsns
      simp only at hhigh
      refine ⟨fun t ht => ?_, ?_, hlen.trans h.streams⟩
      · rw [hhigh]
        rcases received_data.1 ht with ht | rfl
        · exact le_max_of_le_left (h.le t ht)
        · exact le_max_right _ _
      · rw [hhigh, received_data]
        rcases max_choice s.tsns.highestRecvTsn c.tsn with hmax | hmax
        · rw [hmax]
          exact h.received.imp_right Or.inl
        · exact Or.inr (Or.inr hmax)
  | forwardTsn newCum =>
    obtain ⟨htsns, hlen, -⟩ := processForwardTsnChunk_frame hstep
    have hhigh := RecvTsns.forwardTsn_highest htsns
    refine ⟨fun t ht => ?_, ?_, hlen.trans h.streams⟩
    · rw [hhigh]
      exact h.le t (received_forwardTsn.1 ht)
    · rw [hhigh, received_forwardTsn]
      exact h.received

theorem highestIs_reset (initialRwnd : ℕ) (modes : List StreamMode) :
    HighestIs [] modes.length (reset initialRwnd modes) :=
  ⟨by simp, Or.inl rfl, by simp [reset]⟩

theorem highestIs_of_run {initialRwnd : ℕ} {modes : List StreamMode} {as : List Treatment}
    (hstream : ∀ c, .data c ∈ chunks → c.streamId < modes.length)
    (hroom : receiver.RunsWith HasRoom (reset initialRwnd modes) chunks)
    (hrun : receiver.run (reset initialRwnd modes) chunks = some (s, as)) :
    HighestIs chunks modes.length s := by
  induction chunks using reverseRecOn generalizing s as with
  | nil =>
    obtain ⟨rfl, -⟩ : reset initialRwnd modes = s ∧ [] = as := by simpa using hrun
    exact highestIs_reset initialRwnd modes
  | append_singleton chunks chunk ih =>
    obtain ⟨s₁, as₁, a, hs₁, hstep, rfl⟩ := receiver.run_concat_eq_some hrun
    obtain ⟨hroom₁, hroom₂⟩ := hroom.append
    refine (ih (fun c hc => hstream c (by simp [hc])) hroom₁ hs₁).step (hroom₂ s₁ as₁ hs₁).1 ?_ hstep
    rintro c rfl
    exact hstream c (by simp)

theorem RecvTsns.Tracks.congr {seen' : Set ℕ} (h : Tracks seen r)
    (hseen : ∀ t, 1 ≤ t → (t ∈ seen ↔ t ∈ seen')) : Tracks seen' r :=
  ⟨h.separated, fun t h₁ ht => (hseen t h₁).1 (h.below t h₁ ht),
    fun t ht => (hseen t (by omega)).symm.trans (h.above t ht)⟩

section

variable (htr : RecvTsns.Tracks {t | Seen pre t} r)
include htr

theorem forwardTsn_le (h : .forwardTsn newCum ∈ pre) : newCum ≤ r.cumAck :=
  htr.isGreatest.2 fun _ _ ht => Or.inr ⟨newCum, h, ht⟩

theorem received_of_seen (hlt : r.cumAck < t) (h : Seen pre t) : Received pre t := by
  rcases h with h | ⟨n, hn, hle⟩
  · exact h
  · have := forwardTsn_le htr hn
    omega

theorem received_iff_inBlocks :
    (r.cumAck < t ∧ Received pre t) ↔ InBlocks r.recvTsnBlockList t := by
  constructor
  · rintro ⟨hlt, h⟩
    exact (htr.above t hlt).1 (Or.inl h)
  · intro h
    have hlt : r.cumAck < t := by
      have := htr.separated.lt_of_inBlocks h
      omega
    exact ⟨hlt, received_of_seen htr hlt ((htr.above t hlt).2 h)⟩

theorem maximalRun_of_mem {b : RecvTsnBlock} (hb : b ∈ r.recvTsnBlockList) :
    MaximalRun {t | r.cumAck < t ∧ Received pre t} (b.startTsn, b.endTsn + 1) := by
  obtain ⟨hlo, hle⟩ := htr.separated.lt_of_mem hb
  have hout : ∀ i, i + 1 = b.startTsn ∨ i = b.endTsn + 1 → ¬ InBlocks r.recvTsnBlockList i := by
    rintro i hi ⟨b', hb', h₁, h₂⟩
    rcases htr.separated.apart hb hb' with rfl | hlt | hlt
    all_goals omega
  refine ⟨Nat.lt_succ_of_le hle, fun t ht => ?_, fun i hi => ?_, ?_⟩
  · exact (received_iff_inBlocks htr).2 ⟨b, hb, ht.1, Nat.le_of_lt_succ ht.2⟩
  · exact fun hmem => hout i (Or.inl hi) ((received_iff_inBlocks htr).1 hmem)
  · exact fun hmem => hout _ (Or.inr rfl) ((received_iff_inBlocks htr).1 hmem)

theorem books_of_tracks : Books pre r := by
  refine ⟨htr.isGreatest, htr.separated.pairwise.imp fun hlt => by omega, fun b =>
    ⟨maximalRun_of_mem htr, fun hrun => ?_⟩⟩
  have hmem := hrun.mem le_rfl hrun.nonempty
  obtain ⟨b', hb', h₁, h₂⟩ := (received_iff_inBlocks htr).1 hmem
  have heq := hrun.eq_of_mem (maximalRun_of_mem htr hb') ⟨le_rfl, hrun.nonempty⟩
    ⟨h₁, Nat.lt_succ_of_le h₂⟩
  obtain ⟨hstart, hend⟩ := Prod.mk.inj heq
  have hbb : b = b' := by
    cases b
    cases b'
    simp only at hstart hend
    simp only [RecvTsnBlock.mk.injEq]
    omega
  exact hbb ▸ hb'

end

theorem tracks_reset (initialRwnd : ℕ) (modes : List StreamMode) :
    RecvTsns.Tracks {t | Seen [] t} (reset initialRwnd modes).tsns := by
  refine ⟨trivial, fun t h₁ ht => ?_, fun t _ => ?_⟩
  · simp only [reset] at ht
    omega
  · simp [Seen, reset]

theorem tracks_step {n : ℕ} {chunk : Chunk} (htr : RecvTsns.Tracks {t | Seen pre t} s.tsns)
    (hhigh : HighestIs pre n s) (hroom : HasRoom s chunk)
    (hwf : ∀ c, chunk = .data c → 1 ≤ c.tsn ∧ c.streamId < n) (hot : OnTime pre chunk) :
    ∃ s' a, receiver.step s chunk = some (s', a) ∧
      RecvTsns.Tracks {t | Seen (pre ++ [chunk]) t} s'.tsns ∧
      ∀ c, chunk = .data c → (a = .accepted ↔ ¬ Received pre c.tsn ∧ ¬ c.tsn ≤ s.tsns.cumAck) := by
  cases chunk with
  | data c =>
    obtain ⟨h₁, hc⟩ := hwf c rfl
    have hdup := htr.isDuplicateChunk_iff c.tsn h₁ fun hlt hseen =>
      hhigh.le _ (received_of_seen htr hlt hseen)
    rcases processDataChunk_cases hroom (hhigh.streams ▸ hc) with
      ⟨s', hs', htsns, -, -, hd⟩ | ⟨s', hs', htsns, -, hnew, -⟩
    · have hseen := hdup.1 hd
      refine ⟨s', _, hs', ?_, ?_⟩
      · rw [seen_data, Set.insert_eq_of_mem hseen, htsns]
        exact htr
      · rintro _ ⟨⟩
        refine iff_of_false (by simp) fun ⟨hnot, hgt⟩ => hnot ?_
        exact received_of_seen htr (not_le.1 hgt) hseen
    · have hnot : ¬ Seen pre c.tsn := by
        intro hseen
        rcases hnew with hlt | hd
        · rcases hot with ⟨d, hd, hle⟩ | hfwd
          · have := hhigh.le _ ⟨d, hd, rfl⟩
            omega
          · rcases hseen with hrec | ⟨k, hk, hle⟩
            · have := hhigh.le _ hrec
              omega
            · have := hfwd k hk
              omega
        · rw [hdup.2 hseen] at hd
          cases hd
      have hgt : s.tsns.cumAck < c.tsn := not_le.1 fun hle => hnot (htr.below _ h₁ hle)
      have htr' : RecvTsns.Tracks {t | Seen pre t}
          { s.tsns with highestRecvTsn := max s.tsns.highestRecvTsn c.tsn } :=
        ⟨htr.separated, htr.below, htr.above⟩
      obtain ⟨r', hr', htr₁, -⟩ := htr'.updateRecvTsnBlocks hgt hnot
      obtain rfl := Option.some.inj (hr'.symm.trans htsns)
      refine ⟨s', _, hs', by rwa [seen_data], ?_⟩
      rintro _ ⟨⟩
      exact iff_of_true rfl ⟨fun hrec => hnot (Or.inl hrec), not_le.2 hgt⟩
  | forwardTsn newCum =>
    obtain ⟨hnew, u, hu₁, hu, hunseen⟩ := hot
    have hcum : s.tsns.cumAck < RecvTsns.intMax := by
      by_contra hge
      exact hunseen (htr.below u hu₁ (by omega))
    obtain ⟨r', hr', htr', -⟩ := htr.forwardTsn hcum hnew fun t hseen hlt =>
      hhigh.le _ (received_of_seen htr hlt hseen)
    refine ⟨_, _, by
      rw [show receiver.step s (.forwardTsn newCum) = s.processForwardTsnChunk newCum from rfl,
        Receiver.processForwardTsnChunk, hr']
      rfl, ?_, fun c hc => by cases hc⟩
    rw [seen_forwardTsn, Receiver.updateAllStreams_tsns]
    refine htr'.congr fun t h₁ => ?_
    simp only [Set.mem_union, Set.mem_Icc, Set.mem_Iic, h₁, true_and]

section

variable {initialRwnd : ℕ} {modes : List StreamMode} {as : List Treatment}

theorem mem_acceptedTsns (h : t ∈ acceptedTsns pre as) : Received pre t := by
  obtain ⟨⟨chunk, a⟩, hmem, hsome⟩ := mem_filterMap.1 h
  cases chunk with
  | data c =>
    cases a with
    | accepted =>
      obtain rfl : c.tsn = t := Option.some.inj hsome
      exact ⟨c, (of_mem_zip hmem).1, rfl⟩
    | _ => cases hsome
  | forwardTsn n => cases hsome

theorem nodup_acceptedTsns_concat {chunk : Chunk} (hlen : pre.length = as.length)
    (h : (acceptedTsns pre as).Nodup)
    (hnew : ∀ c, chunk = .data c → a = .accepted → ¬ Received pre c.tsn) :
    (acceptedTsns (pre ++ [chunk]) (as ++ [a])).Nodup := by
  unfold acceptedTsns at *
  rw [zip_append hlen, filterMap_append]
  refine nodup_append.2 ⟨h, ?_, ?_⟩
  · cases hsome : acceptedTsn (chunk, a) with
    | none => simp [hsome]
    | some t => simp [hsome]
  · rintro t ht _ hlast rfl
    obtain ⟨q, hq, hsome⟩ := mem_filterMap.1 hlast
    obtain rfl := mem_singleton.1 hq
    cases chunk with
    | data c =>
      cases a with
      | accepted =>
        obtain rfl : c.tsn = t := Option.some.inj hsome
        exact hnew c rfl rfl (mem_acceptedTsns ht)
      | _ => cases hsome
    | forwardTsn n => cases hsome

theorem run_of_inTime
    (hwf : ∀ c, .data c ∈ chunks → 1 ≤ c.tsn ∧ c.streamId < modes.length)
    (hroom : receiver.RunsWith HasRoom (reset initialRwnd modes) chunks) (hot : InTime chunks) :
    ∃ s as, receiver.run (reset initialRwnd modes) chunks = some (s, as) ∧
      RecvTsns.Tracks {t | Seen chunks t} s.tsns ∧ (acceptedTsns chunks as).Nodup := by
  induction chunks using reverseRecOn with
  | nil => exact ⟨_, [], rfl, tracks_reset initialRwnd modes, nodup_nil⟩
  | append_singleton chunks chunk ih =>
    obtain ⟨hroom₁, hroom₂⟩ := hroom.append
    have hwf₁ : ∀ c, .data c ∈ chunks → 1 ≤ c.tsn ∧ c.streamId < modes.length :=
      fun c hc => hwf c (mem_append_left _ hc)
    obtain ⟨s, as, hrun, htr, hnodup⟩ := ih hwf₁ hroom₁ fun pre c post heq =>
      hot pre c (post ++ [chunk]) (by simp [heq])
    have hhigh := highestIs_of_run (fun c hc => (hwf₁ c hc).2) hroom₁ hrun
    obtain ⟨s', a, hstep, htr', hnew⟩ := tracks_step htr hhigh (hroom₂ s as hrun).1
      (fun c hc => hwf c (by simp [hc])) (hot chunks chunk [] rfl)
    refine ⟨s', as ++ [a], ?_, htr', nodup_acceptedTsns_concat
      (receiver.length_of_run hrun).symm hnodup fun c hc ha => ((hnew c hc).1 ha).1⟩
    rw [receiver.run_append _ hrun, receiver.run_cons [] hstep]
    rfl

/-- The receiver keeps its books over a sequence of chunks exactly when no DATA
chunk of it is late and every FORWARD TSN can be counted up to. -/
theorem keepsBooks_iff_inTime (initialRwnd : ℕ) (modes : List StreamMode) (chunks : List Chunk)
    (hwf : ∀ c, .data c ∈ chunks → 1 ≤ c.tsn ∧ c.tsn < 2 ^ 31 ∧ c.streamId < modes.length)
    (hroom : receiver.RunsWith HasRoom (reset initialRwnd modes) chunks) :
    KeepsBooks (reset initialRwnd modes) chunks ↔ InTime chunks := by
  constructor
  · intro hk pre chunk post heq
    obtain ⟨s, as, hrun, hbooks, -, hnext⟩ := hk pre (chunk :: post) heq
    obtain ⟨hroom₁, hroom₂⟩ := (heq ▸ hroom).append
    have hhigh := highestIs_of_run (fun c hc => (hwf c (by simp [heq, hc])).2.2) hroom₁ hrun
    cases chunk with
    | data c =>
      by_contra hlate
      obtain ⟨hnone, hreach⟩ := not_or.1 hlate
      push Not at hnone hreach
      obtain ⟨h₁, -, hc⟩ := hwf c (by simp [heq])
      have hlt : s.tsns.highestRecvTsn < c.tsn := by
        rcases hhigh.received with hzero | ⟨d, hd, hdtsn⟩
        · omega
        · have := hnone d hd
          omega
      obtain ⟨s₁, -, -, hs', -⟩ := Receiver.processDataChunk_accepted (hroom₂ s as hrun).1
        (hhigh.streams ▸ hc) (Or.inl hlt)
      obtain ⟨s'', a, hs'', hiff⟩ := hnext c post rfl
      obtain ⟨-, rfl⟩ := Prod.mk.inj (Option.some.inj (hs'.symm.trans hs''))
      obtain ⟨n, hn, hle⟩ := hreach
      have hcum : n ≤ s.tsns.cumAck :=
        hbooks.cumAck.2 fun _ _ ht => Or.inr ⟨n, hn, ht⟩
      exact (hiff.1 rfl).2 (hle.trans hcum)
    | forwardTsn newCum =>
      obtain ⟨s₁, as₁, hrun₁, -⟩ := hk (pre ++ [.forwardTsn newCum]) post (by simp [heq])
      obtain ⟨s₂, as₂, a, hrun₂, hstep, -⟩ := receiver.run_concat_eq_some hrun₁
      obtain ⟨rfl, -⟩ := Prod.mk.inj (Option.some.inj (hrun.symm.trans hrun₂))
      obtain ⟨htsns, -⟩ := processForwardTsnChunk_frame hstep
      unfold RecvTsns.forwardTsn at htsns
      split_ifs at htsns with hint
      refine ⟨hint.2, s.tsns.cumAck + 1, by omega, hint.1, fun hseen => ?_⟩
      have hle : s.tsns.cumAck + 1 ≤ s.tsns.cumAck := hbooks.cumAck.2 fun t h₁ ht => by
        rcases Nat.lt_or_ge s.tsns.cumAck t with hlt | hge
        · obtain rfl : t = s.tsns.cumAck + 1 := by omega
          exact hseen
        · exact hbooks.cumAck.1 t h₁ hge
      omega
  · intro hot pre post heq
    subst heq
    obtain ⟨hroom₁, hroom₂⟩ := hroom.append
    have hwf' : ∀ c, .data c ∈ pre ++ post → 1 ≤ c.tsn ∧ c.streamId < modes.length :=
      fun c hc => ⟨(hwf c hc).1, (hwf c hc).2.2⟩
    have hwf₁ : ∀ c, .data c ∈ pre → 1 ≤ c.tsn ∧ c.streamId < modes.length :=
      fun c hc => hwf' c (mem_append_left _ hc)
    obtain ⟨s, as, hrun, htr, hnodup⟩ := run_of_inTime hwf₁ hroom₁ fun pre' c post' h =>
      hot pre' c (post' ++ post) (by simp [h])
    refine ⟨s, as, hrun, books_of_tracks htr, hnodup, ?_⟩
    rintro c post' rfl
    obtain ⟨s', a, hstep, -, hnew⟩ := tracks_step htr
      (highestIs_of_run (fun c hc => (hwf₁ c hc).2) hroom₁ hrun) (hroom₂ s as hrun).1
      (by rintro c' ⟨⟩; exact hwf' c (by simp)) (hot pre _ post' rfl)
    exact ⟨s', a, hstep, hnew c rfl⟩

theorem keepsBooks_iff_inTime_reordered :
    KeepsBooks (reset 100 [.reliable]) [.data ⟨3, 0, 2, 20, false⟩, .data ⟨1, 0, 0, 20, false⟩,
      .data ⟨3, 0, 2, 20, false⟩, .data ⟨2, 0, 1, 20, false⟩] := by
  refine (keepsBooks_iff_inTime 100 [.reliable] _ ?_ (by decide)).2 ?_
  · simp
  · rintro pre (c | n) post heq
    · refine Or.inr fun n hn => ?_
      have hmem : Chunk.forwardTsn n ∈ pre ++ .data c :: post := mem_append_left _ hn
      simp [← heq] at hmem
    · have hmem : Chunk.forwardTsn n ∈ pre ++ .forwardTsn n :: post := by simp
      simp [← heq] at hmem

/-- A late TSN 1 is accepted as a new block below the cum ack, and TSN 3 no longer
moves the cum ack past 2. -/
theorem not_keepsBooks_late :
    receiver.RunsWith HasRoom (reset 100 [.unreliable])
      [.forwardTsn 2, .data ⟨1, 0, 0, 20, false⟩, .data ⟨3, 0, 2, 20, false⟩] ∧
    (receiver.run (reset 100 [.unreliable])
      [.forwardTsn 2, .data ⟨1, 0, 0, 20, false⟩, .data ⟨3, 0, 2, 20, false⟩]).map
        (fun r => (r.1.tsns.cumAck, r.2)) = some (2, [.forwarded, .accepted, .accepted]) ∧
    ¬ KeepsBooks (reset 100 [.unreliable])
      [.forwardTsn 2, .data ⟨1, 0, 0, 20, false⟩, .data ⟨3, 0, 2, 20, false⟩] := by
  refine ⟨by decide, by decide, fun hk => ?_⟩
  obtain ⟨s, as, hrun, hbooks, -⟩ := hk _ [] (append_nil _).symm
  have hcum : s.tsns.cumAck = 2 := by
    have := congrArg (Option.map fun r => r.1.tsns.cumAck) hrun
    exact (Option.some.inj (this.symm.trans (by decide : _ = some 2)))
  have hle : 3 ≤ s.tsns.cumAck := hbooks.cumAck.2 fun t h₁ ht => by
    rcases Nat.lt_or_ge 2 t with hlt | hge
    · exact Or.inl ⟨⟨3, 0, 2, 20, false⟩, by simp, by simp only; omega⟩
    · exact Or.inr ⟨2, by simp, hge⟩
  omega

end

end Ns2.Sctp
