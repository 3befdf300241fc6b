import Ns2.Sctp.ReceiverBooks

/-! The buffer of one stream: what goes in is kept in the order of the 16-bit stream sequence
numbers, what comes out are the chunks next in line. Duplicate detection for the TSNs that no
FORWARD TSN may pass over. It stays right whatever late chunks do to the blocks. -/

namespace Ns2.Sctp

open List

variable {c d : DataChunk} {s : Receiver} {cumAck next E n : ℕ} {mode : StreamMode}
  {stream : InStream} {buffer L l l₁ l₂ up : List DataChunk} {ns : List ℕ}

/-- The bytes of the chunks. -/
def totalLength (l : List DataChunk) : ℕ := (l.map DataChunk.length).sum

@[simp] theorem totalLength_nil : totalLength [] = 0 := rfl

@[simp] theorem totalLength_cons : totalLength (c :: l) = c.length + totalLength l := by
  simp [totalLength]

@[simp] theorem totalLength_append :
    totalLength (l₁ ++ l₂) = totalLength l₁ + totalLength l₂ := by
  simp [totalLength]

def InStream.update (cumAck : ℕ) (stream : InStream) : InStream :=
  (deliverable cumAck stream.mode stream.nextStreamSeqNum stream.bufferedChunkList).2

def InStream.passedUp (cumAck : ℕ) (stream : InStream) : List DataChunk :=
  (deliverable cumAck stream.mode stream.nextStreamSeqNum stream.bufferedChunkList).1

theorem deliverable_append :
    (deliverable cumAck mode next buffer).1 ++ (deliverable cumAck mode next buffer).2.bufferedChunkList
      = buffer := by
  induction buffer generalizing next with
  | nil => rfl
  | cons c buffer ih =>
    rw [deliverable]
    split_ifs
    · exact congrArg (c :: ·) ih
    · exact congrArg (c :: ·) ih
    · rfl

@[simp] theorem deliverable_mode : (deliverable cumAck mode next buffer).2.mode = mode := by
  induction buffer generalizing next with
  | nil => rfl
  | cons c buffer ih =>
    rw [deliverable]
    split_ifs
    · exact ih
    · exact ih
    · rfl

namespace InStream

theorem passedUp_append (cumAck : ℕ) (stream : InStream) :
    stream.passedUp cumAck ++ (stream.update cumAck).bufferedChunkList = stream.bufferedChunkList :=
  deliverable_append

@[simp] theorem update_mode : (stream.update cumAck).mode = stream.mode := deliverable_mode

theorem mem_of_mem_passedUp (h : c ∈ stream.passedUp cumAck) : c ∈ stream.bufferedChunkList :=
  passedUp_append cumAck stream ▸ mem_append_left _ h

theorem mem_of_mem_update (h : c ∈ (stream.update cumAck).bufferedChunkList) :
    c ∈ stream.bufferedChunkList :=
  passedUp_append cumAck stream ▸ mem_append_right _ h

end InStream

namespace Receiver

theorem foldl_passToUpperLayer (l : List DataChunk) : l.foldl passToUpperLayer s =
    { s with myRwnd := s.myRwnd + totalLength l, upperLayer := s.upperLayer ++ l } := by
  induction l generalizing s with
  | nil => simp
  | cons c l ih =>
    rw [foldl_cons, ih]
    simp [passToUpperLayer, Nat.add_assoc]

theorem foldl_updateStream (done : List InStream) {rest : List InStream}
    (h : s.inStreams = done ++ rest) :
    (range' done.length rest.length).foldl updateStream s = { s with
      inStreams := done ++ rest.map (InStream.update s.tsns.cumAck)
      myRwnd := s.myRwnd + totalLength (rest.flatMap (InStream.passedUp s.tsns.cumAck))
      upperLayer := s.upperLayer ++ rest.flatMap (InStream.passedUp s.tsns.cumAck) } := by
  induction rest generalizing s done with
  | nil => simp [← h]
  | cons stream rest ih =>
    have hget : s.inStreams[done.length]? = some stream := by simp [h]
    have hstep : s.updateStream done.length = { s with
        inStreams := done ++ [stream.update s.tsns.cumAck] ++ rest
        myRwnd := s.myRwnd + totalLength (stream.passedUp s.tsns.cumAck)
        upperLayer := s.upperLayer ++ stream.passedUp s.tsns.cumAck } := by
      rw [updateStream, hget]
      simp only [foldl_passToUpperLayer]
      simp [h, InStream.update, InStream.passedUp]
    rw [length_cons, range'_succ, foldl_cons, hstep]
    have hlen : done.length + 1 = (done ++ [stream.update s.tsns.cumAck]).length := by simp
    rw [hlen, ih _ rfl]
    simp [Nat.add_assoc]

theorem updateAllStreams_eq : s.updateAllStreams = { s with
    inStreams := s.inStreams.map (InStream.update s.tsns.cumAck)
    myRwnd := s.myRwnd + totalLength (s.inStreams.flatMap (InStream.passedUp s.tsns.cumAck))
    upperLayer := s.upperLayer ++ s.inStreams.flatMap (InStream.passedUp s.tsns.cumAck) } := by
  rw [updateAllStreams, range_eq_range']
  exact foldl_updateStream [] rfl

end Receiver

/-- The chunks of the buffer are those of `L` with the numbers `ns`; all numbers
below `E` are delivered and all others belong to the same block of 2^16. -/
structure Waiting (L : List DataChunk) (E : ℕ) (ns : List ℕ) (stream : InStream) : Prop where
  reliable : stream.mode = .reliable
  next : stream.nextStreamSeqNum = E % 2 ^ 16
  seqNum : ∀ n c, L[n]? = some c → c.streamSeqNum = n % 2 ^ 16
  sorted : ns.Pairwise (· < ·)
  block : ∀ n ∈ ns, E ≤ n ∧ n / 2 ^ 16 = E / 2 ^ 16
  chunks : Forall₂ (fun n c => L[n]? = some c) ns stream.bufferedChunkList

theorem insertInStreamBuffer_chunks {m : ℕ} (hseq : ∀ n c, L[n]? = some c → c.streamSeqNum = n % 2 ^ 16)
    (hsorted : ns.Pairwise (· < ·)) (hblock : ∀ n ∈ ns, n / 2 ^ 16 = m / 2 ^ 16) (hm : m ∉ ns)
    (hc : L[m]? = some c) (h : Forall₂ (fun n c => L[n]? = some c) ns buffer) :
    ∃ ns' : List ℕ, ns'.Pairwise (· < ·) ∧ (∀ n, n ∈ ns' ↔ n = m ∨ n ∈ ns) ∧
      Forall₂ (fun n c => L[n]? = some c) ns' (insertInStreamBuffer c buffer) := by
  induction h with
  | nil => exact ⟨[m], pairwise_singleton _ _, by simp, .cons hc .nil⟩
  | @cons n d ns buffer hd h ih =>
    obtain ⟨hlt, hsorted⟩ := pairwise_cons.1 hsorted
    have hn := hblock n mem_cons_self
    have hne : m ≠ n := fun heq => hm (heq ▸ mem_cons_self)
    have hc' := hseq m c hc
    have hd' := hseq n d hd
    rw [insertInStreamBuffer]
    split_ifs with hle heq
    · omega
    · refine ⟨m :: n :: ns, ?_, by simp, .cons hc (.cons hd h)⟩
      have hmn : m < n := by omega
      refine pairwise_cons.2 ⟨fun k hk => ?_, pairwise_cons.2 ⟨hlt, hsorted⟩⟩
      rcases mem_cons.1 hk with rfl | hk
      · exact hmn
      · exact hmn.trans (hlt k hk)
    · obtain ⟨ns', hsorted', hmem, hchunks⟩ := ih hsorted
        (fun k hk => hblock k (mem_cons_of_mem _ hk)) fun hin => hm (mem_cons_of_mem _ hin)
      refine ⟨n :: ns', pairwise_cons.2 ⟨fun k hk => ?_, hsorted'⟩, fun k => ?_, .cons hd hchunks⟩
      · rcases (hmem k).1 hk with rfl | hk
        · omega
        · exact hlt k hk
      · rw [mem_cons, hmem, mem_cons]
        tauto

/-- What a reliable stream passes up are the chunks next in line, and the ones that
still wait are past the next one. -/
theorem deliverable_reliable (cumAck : ℕ)
    (hseq : ∀ n c, L[n]? = some c → c.streamSeqNum = n % 2 ^ 16)
    (hsorted : ns.Pairwise (· < ·)) (hblock : ∀ n ∈ ns, E ≤ n ∧ n / 2 ^ 16 = E / 2 ^ 16)
    (h : Forall₂ (fun n c => L[n]? = some c) ns buffer) :
    ∃ E' ns', Waiting L E' ns' (deliverable cumAck .reliable (E % 2 ^ 16) buffer).2 ∧
      (∀ n ∈ ns', E' < n) ∧ E ≤ E' ∧ (∀ n, E ≤ n → (n < E' ∨ n ∈ ns' ↔ n ∈ ns)) ∧
      L.take E ++ (deliverable cumAck .reliable (E % 2 ^ 16) buffer).1 = L.take E' := by
  induction h generalizing E with
  | nil =>
    exact ⟨E, [], ⟨rfl, rfl, hseq, .nil, by simp, .nil⟩, by simp, le_rfl, by
      simp only [not_mem_nil, or_false, iff_false]; omega, by simp [deliverable]⟩
  | @cons n d ns buffer hd h ih =>
    obtain ⟨hlt, hsorted'⟩ := pairwise_cons.1 hsorted
    obtain ⟨hEn, hn⟩ := hblock n mem_cons_self
    have hd' := hseq n d hd
    have hblock' : ∀ k ∈ ns, n < k ∧ k / 2 ^ 16 = E / 2 ^ 16 := fun k hk =>
      ⟨hlt k hk, (hblock k (mem_cons_of_mem _ hk)).2⟩
    rw [deliverable, if_neg (by simp)]
    split_ifs with heq
    · obtain rfl : n = E := by omega
      obtain ⟨E', ns', hw, hpast, hle, hmem, hup⟩ := ih (E := n + 1) hsorted' fun k hk => by
        have := hblock' k hk
        omega
      rw [show (n % 2 ^ 16 + 1) % 2 ^ 16 = (n + 1) % 2 ^ 16 by omega]
      refine ⟨E', ns', hw, hpast, by omega, fun k hk => ?_, ?_⟩
      · rcases Nat.lt_or_ge n k with hgt | hge
        · rw [hmem k hgt, mem_cons]
          constructor
          · exact Or.inr
          · rintro (rfl | hin)
            · omega
            · exact hin
        · obtain rfl : k = n := by omega
          simp only [mem_cons, true_or, iff_true]
          omega
      · rw [← hup, take_add_one, hd]
        simp
    · refine ⟨E, n :: ns, ⟨rfl, rfl, hseq, hsorted, hblock, .cons hd h⟩, fun k hk => ?_, le_rfl,
        fun k hk => ?_, by simp⟩
      · have hEn' : E < n := by
          rcases Nat.lt_or_ge E n with hlt | hge
          · exact hlt
          · obtain rfl : E = n := by omega
            omega
        rcases mem_cons.1 hk with rfl | hk
        · exact hEn'
        · exact hEn'.trans (hlt k hk)
      · simp only [or_iff_right_iff_imp]
        omega

open List

variable {A U : Set ℕ} {r r' : RecvTsns} {tsn t newCum : ℕ} {l : List RecvTsnBlock}

namespace RecvTsns

/-- `A` are the accepted TSNs, and those of `U` may be forwarded over. A TSN
outside `U` stands in the blocks where the search reaches it. -/
structure Sound (A U : Set ℕ) (r : RecvTsns) : Prop where
  nonempty : ∀ b ∈ r.recvTsnBlockList, b.startTsn ≤ b.endTsn
  known : ∀ t, 1 ≤ t → t ≤ r.cumAck ∨ InBlocks r.recvTsnBlockList t → t ∈ A ∨ t ∈ U
  found : ∀ t ∈ A, t ∉ U → r.cumAck < t → InBlocks r.recvTsnBlockList t
  reached : r.recvTsnBlockList.Pairwise fun a b =>
    ∀ t, t ∉ U → r.cumAck < t → b.startTsn ≤ t → t ≤ b.endTsn → t ≤ a.endTsn → a.startTsn ≤ t
  high : ∀ t ∈ A, t ∉ U → t ≤ r.highestRecvTsn

theorem findTsn_of_inBlocks (hin : InBlocks l t)
    (h : l.Pairwise fun a b => b.startTsn ≤ t → t ≤ b.endTsn → t ≤ a.endTsn → a.startTsn ≤ t) :
    findTsn t l = true := by
  induction l with
  | nil => exact absurd hin not_inBlocks_nil
  | cons b l ih =>
    obtain ⟨hb, hl⟩ := pairwise_cons.1 h
    rw [findTsn]
    split_ifs with hin' hlt
    · rfl
    · exfalso
      rcases inBlocks_cons.1 hin with hin | ⟨c, hc, h₁, h₂⟩
      · exact hin' hin
      · exact hin' ⟨hb c hc h₁ h₂ hlt.le, hlt.le⟩
    · rcases inBlocks_cons.1 hin with hin | hin
      · exact absurd hin hin'
      · exact ih hin hl

theorem inBlocks_of_findTsn (h : findTsn t l = true) : InBlocks l t := by
  induction l with
  | nil => cases h
  | cons b l ih =>
    rw [findTsn] at h
    rw [inBlocks_cons]
    split_ifs at h with hb hlt
    · exact Or.inl hb
    · exact Or.inr (ih h)

/-- A TSN that is not in `U` is found to be a duplicate exactly when it was accepted. -/
theorem Sound.duplicate_iff (h : Sound A U r) (h₁ : 1 ≤ t) (hU : t ∉ U) :
    (t ≤ r.highestRecvTsn ∧ r.isDuplicateChunk t = true) ↔ t ∈ A := by
  constructor
  · rintro ⟨-, hdup⟩
    refine (h.known t h₁ ?_).resolve_right hU
    unfold isDuplicateChunk at hdup
    split_ifs at hdup with hcum hhigh hnil
    · exact Or.inl hcum
    · exact Or.inr (inBlocks_of_findTsn hdup)
  · intro hA
    refine ⟨h.high t hA hU, ?_⟩
    unfold isDuplicateChunk
    split_ifs with hcum hhigh hnil
    · rfl
    · have hin := h.found t hA hU (not_le.1 hcum)
      rw [length_eq_zero_iff.1 hnil] at hin
      exact absurd hin not_inBlocks_nil
    · refine findTsn_of_inBlocks (h.found t hA hU (not_le.1 hcum)) ?_
      exact h.reached.imp fun hab => hab t hU (not_le.1 hcum)
    · exact absurd ⟨not_le.1 hcum, h.high t hA hU⟩ hhigh

theorem Sound.mono {U' : Set ℕ} (h : Sound A U r) (hU : U ⊆ U') : Sound A U' r :=
  ⟨h.nonempty, fun t h₁ ht => (h.known t h₁ ht).imp_right fun hm => hU hm,
    fun t hA ht => h.found t hA fun hm => ht (hU hm),
    h.reached.imp fun hab t ht => hab t fun hm => ht (hU hm),
    fun t hA ht => h.high t hA fun hm => ht (hU hm)⟩

theorem Sound.highest (h : Sound A U r) {n : ℕ} (hn : r.highestRecvTsn ≤ n) :
    Sound A U { r with highestRecvTsn := n } :=
  ⟨h.nonempty, h.known, h.found, h.reached, fun t hA ht => (h.high t hA ht).trans hn⟩

theorem le_cumAckOver (cumAck : ℕ) (hne : ∀ b ∈ l, b.startTsn ≤ b.endTsn) :
    cumAck ≤ cumAckOver cumAck l := by
  induction l generalizing cumAck with
  | nil => exact le_rfl
  | cons b l ih =>
    rw [cumAckOver]
    split_ifs with hb
    · have := hne b mem_cons_self
      have := ih b.endTsn fun c hc => hne c (mem_cons_of_mem _ hc)
      omega
    · exact le_rfl

theorem inBlocks_of_le_cumAckOver {cumAck : ℕ} (ht : t ≤ cumAckOver cumAck l) :
    t ≤ cumAck ∨ InBlocks l t := by
  induction l generalizing cumAck with
  | nil => exact Or.inl ht
  | cons b l ih =>
    rw [cumAckOver] at ht
    rw [inBlocks_cons]
    split_ifs at ht with hb
    · rcases ih ht with hle | hin
      · omega
      · exact Or.inr (Or.inr hin)
    · exact Or.inl ht

theorem Sound.updateCumAck (h : Sound A U r) : Sound A U r.updateCumAck := by
  have hle : r.cumAck ≤ r.updateCumAck.cumAck := le_cumAckOver _ h.nonempty
  refine ⟨h.nonempty, fun t h₁ ht => h.known t h₁ ?_,
    fun t hA hU hlt => h.found t hA hU (hle.trans_lt hlt),
    h.reached.imp fun hab t hU hlt => hab t hU (hle.trans_lt hlt), h.high⟩
  rcases ht with ht | ht
  · exact inBlocks_of_le_cumAckOver ht
  · exact Or.inr ht

/-- The order in which the search meets the blocks, for one TSN. -/
def Reaches (U : Set ℕ) (cumAck : ℕ) (a b : RecvTsnBlock) : Prop :=
  ∀ t, t ∉ U → cumAck < t → b.startTsn ≤ t → t ≤ b.endTsn → t ≤ a.endTsn → a.startTsn ≤ t

theorem Exit.nonempty {pre post : List RecvTsnBlock} {cumAck cumAck' : ℕ}
    (h : Exit cumAck tsn pre post cumAck' l) (hne : ∀ b ∈ pre ++ post, b.startTsn ≤ b.endTsn) :
    ∀ b ∈ l, b.startTsn ≤ b.endTsn := by
  cases h with
  | @lowerEdge pre post b hb hlow => grind
  | cumAck hcum hlow hpost => exact hne
  | @upperEdge pre post a ha hcum hpost => grind
  | newBlock hlow hpost => grind
  | @cumAckGap pre post b hcum hlow hb => grind
  | @gap pre post a b ha hcum hb => grind

/-- An exit keeps the order, when its TSN comes after all blocks before it or need not be found. -/
theorem Exit.reached {pre post : List RecvTsnBlock} {cumAck cumAck' : ℕ}
    (h : Exit cumAck tsn pre post cumAck' l) (hne : ∀ b ∈ pre ++ post, b.startTsn ≤ b.endTsn)
    (hreach : (pre ++ post).Pairwise (Reaches U cumAck))
    (hpre : tsn ∈ U ∨ ∀ b ∈ pre, b.endTsn < tsn) : l.Pairwise (Reaches U cumAck') := by
  have hle := h.le_cumAck hne
  have hreach' : (pre ++ post).Pairwise (Reaches U cumAck') :=
    hreach.imp fun hab t hU hlt => hab t hU (hle.trans_lt hlt)
  cases h with
  | @lowerEdge pre post b hb hlow =>
    simp only [pairwise_append, pairwise_cons, mem_cons, Reaches] at *
    grind
  | cumAck hcum hlow hpost => exact hreach'
  | @upperEdge pre post a ha hcum hpost =>
    simp only [pairwise_append, pairwise_cons, mem_cons, Reaches] at *
    grind
  | @newBlock pre post hlow hpost =>
    have hafter : ∀ c ∈ post, ∀ t, t ∉ U → cumAck < t → c.startTsn ≤ t → t ≤ c.endTsn → tsn < t := by
      cases post with
      | nil => simp
      | cons b post =>
        have hb := hpost b rfl
        have hne := hne b (by simp)
        obtain ⟨hbc, -⟩ := pairwise_cons.1 (pairwise_append.1 hreach).2.1
        intro c hc t hU hlt h₁ h₂
        rcases mem_cons.1 hc with rfl | hc
        · omega
        · have := hbc c hc t hU hlt h₁ h₂
          omega
    simp only [pairwise_append, pairwise_cons, mem_cons, Reaches] at *
    grind
  | @cumAckGap pre post b hcum hlow hb =>
    exact hreach'.sublist (Sublist.append (Sublist.refl _) (sublist_cons_self _ _))
  | @gap pre post a b ha hcum hb =>
    simp only [pairwise_append, pairwise_cons, mem_cons, Reaches] at *
    grind

theorem Sound.updateRecvTsnBlocks (h : Sound A U r) (hnew : tsn ∈ U ∨ 1 ≤ tsn ∧ tsn ∉ A)
    (hhigh : tsn ≤ r.highestRecvTsn ∨ tsn ∈ U) :
    ∃ r', r.updateRecvTsnBlocks tsn = some r' ∧ Sound (insert tsn A) U r' ∧
      r'.highestRecvTsn = r.highestRecvTsn := by
  obtain ⟨r', pre, post, c, l, hr', hsplit, hexit, hres, hpassed⟩ :=
    updateRecvTsnBlocks_records r tsn
  have hpre : tsn ∈ U ∨ ∀ b ∈ pre, b.endTsn < tsn := by
    refine or_iff_not_imp_left.2 fun hU => ?_
    obtain ⟨h₁, hA⟩ := hnew.resolve_left hU
    have hnot : ¬ (tsn ≤ r.cumAck ∨ InBlocks r.recvTsnBlockList tsn) := fun hin =>
      (h.known tsn h₁ hin).elim hA hU
    rw [not_or, not_le] at hnot
    exact hpassed hnot.1 hnot.2
  obtain ⟨hne, hknown, hfound, hreached, hA⟩ := h
  rw [hsplit] at hne hknown hfound hreached
  have hle := hexit.le_cumAck hne
  have hsound : Sound (insert tsn A) U { r with cumAck := c, recvTsnBlockList := l } := by
    refine ⟨hexit.nonempty hne, fun t h₁ ht => ?_, fun t ht hU hlt => ?_,
      hexit.reached hne hreached hpre, fun t ht hU => ?_⟩
    · have hold : t = tsn ∨ t ≤ r.cumAck ∨ InBlocks (pre ++ post) t := by
        rcases Nat.lt_or_ge c t with hlt | hge
        · rcases ht with ht | ht
          · exact absurd ht (by simpa using hlt)
          · exact ((hexit.inBlocks_iff hne hlt).1 ht).imp_right Or.inr
        · rcases hexit.cumAck_le hne hge with hle | heq | hin
          · exact Or.inr (Or.inl hle)
          · exact Or.inl heq
          · exact Or.inr (Or.inr hin)
      rcases hold with rfl | hold
      · exact Or.inl (Set.mem_insert _ _)
      · exact (hknown t h₁ hold).imp_left fun hm => Set.mem_insert_of_mem _ hm
    · refine (hexit.inBlocks_iff hne hlt).2 (ht.imp_right fun ht => ?_)
      exact hfound t ht hU (hle.trans_lt hlt)
    · rcases ht with rfl | ht
      · exact hhigh.resolve_right hU
      · exact hA t ht hU
  refine ⟨r', hr', ?_, updateRecvTsnBlocks_highest hr'⟩
  rcases hres with rfl | rfl
  · exact hsound
  · exact hsound.updateCumAck

theorem Sound.of_insert (h : Sound (insert tsn A) U r) (hU : tsn ∈ U) : Sound A U r := by
  have hmem : ∀ t, t ∉ U → t ∈ insert tsn A → t ∈ A := fun t ht hin =>
    hin.resolve_left fun heq => ht (heq ▸ hU)
  refine ⟨h.nonempty, fun t h₁ ht => ?_, fun t hA => h.found t (Set.mem_insert_of_mem _ hA),
    h.reached, fun t hA => h.high t (Set.mem_insert_of_mem _ hA)⟩
  rcases h.known t h₁ ht with (rfl | hin) | hin
  · exact Or.inr hU
  · exact Or.inl hin
  · exact Or.inr hin

theorem Sound.forwardTsn (h : Sound A U r) (hcum : r.cumAck < intMax) (hnew : newCum < intMax)
    (hover : ∀ t, 1 ≤ t → t ≤ newCum → t ∈ A ∨ t ∈ U) :
    ∃ r', r.forwardTsn newCum = some r' ∧ Sound A U r' := by
  rw [RecvTsns.forwardTsn, if_pos ⟨hcum, hnew⟩]
  suffices hloop : ∀ l : List ℕ, (∀ i ∈ l, 1 ≤ i ∧ i ≤ newCum) → ∀ r, Sound A U r → ∃ r',
      l.foldlM (fun r i => if r.isDuplicateChunk i then some r else r.updateRecvTsnBlocks i) r =
        some r' ∧ Sound A U r' by
    refine hloop _ (fun i hi => ?_) r h
    rw [mem_range'_1] at hi
    omega
  intro l hl
  induction l with
  | nil => exact fun r h => ⟨r, rfl, h⟩
  | cons i l ih =>
    intro r h
    obtain ⟨h₁, hi⟩ := hl i mem_cons_self
    have hstep : ∃ r', (if r.isDuplicateChunk i then some r else r.updateRecvTsnBlocks i) =
        some r' ∧ Sound A U r' := by
      split_ifs with hdup
      · exact ⟨r, rfl, h⟩
      · have hU : i ∈ U := by
          by_contra hU
          have hA := (hover i h₁ hi).resolve_right hU
          exact hdup ((h.duplicate_iff h₁ hU).2 hA).2
        obtain ⟨r', hr', hsound, -⟩ := h.updateRecvTsnBlocks (Or.inl hU) (Or.inr hU)
        exact ⟨r', hr', hsound.of_insert hU⟩
    obtain ⟨r', hr', h'⟩ := hstep
    obtain ⟨r'', hr'', h''⟩ := ih (fun j hj => hl j (mem_cons_of_mem _ hj)) r' h'
    refine ⟨r'', ?_, h''⟩
    rw [foldlM_cons, hr']
    exact hr''

end RecvTsns

end Ns2.Sctp
