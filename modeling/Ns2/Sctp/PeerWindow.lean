import Ns2.Sctp.OutstandingBytes

/-! The window of the peer. A chunk that is marked gives its bytes back, and takes them again when
it is retransmitted; in between a SACK sets the window anew. The window stays in its bounds while it
holds the bytes of the marked chunks before every SACK and every timeout, and a timeout gives back
no more than the packet after it takes or the advertised window has room for. -/

namespace Ns2.Sctp

namespace SendBufferNode

/-- The bytes of a marked chunk. -/
def markedLength (n : SendBufferNode) : ℕ :=
  if n.markedForRtx ≠ .noRtx then n.chunk.length else 0

/-- The bytes of a chunk that is not given up. -/
def keptLength (n : SendBufferNode) : ℕ := if n.advancedAcked then 0 else n.chunk.length

/-- The chunk is marked for a retransmission. -/
def isMarked (n : SendBufferNode) : Bool := n.markedForRtx ≠ .noRtx

theorem isMarked_iff {n : SendBufferNode} : n.isMarked = true ↔ n.markedForRtx ≠ .noRtx :=
  decide_eq_true_iff

theorem markedLength_of_marked {n : SendBufferNode} (h : n.markedForRtx ≠ .noRtx) :
    n.markedLength = n.chunk.length := if_pos h

theorem markedLength_of_noRtx {n : SendBufferNode} (h : n.markedForRtx = .noRtx) :
    n.markedLength = 0 := if_neg (not_not.2 h)

/-- The chunk is on an unreliable stream, and has been sent too often. -/
def GivenUp (o : ℕ → OutStream) (n : SendBufferNode) : Prop :=
  (o n.chunk.streamId).mode = .unreliable ∧ n.unrelRtxLimit < n.numTxs

instance (o : ℕ → OutStream) (n : SendBufferNode) : Decidable (n.GivenUp o) := by
  unfold GivenUp
  infer_instance

/-- A timeout of `d` marks the chunk. -/
def TimesOut (o : ℕ → OutStream) (d : ℕ) (n : SendBufferNode) : Prop :=
  (n.dest = d ∧ n.Unacked) ∧ ¬ n.GivenUp o

instance (o : ℕ → OutStream) (d : ℕ) (n : SendBufferNode) : Decidable (n.TimesOut o d) := by
  unfold TimesOut
  infer_instance

/-- The chunk is marked after a timeout of `d`. -/
def markedAfter (o : ℕ → OutStream) (d : ℕ) (n : SendBufferNode) : Bool :=
  if n.dest = d ∧ n.Unacked then ¬ n.GivenUp o else n.isMarked

theorem markedLength_le (n : SendBufferNode) : n.markedLength ≤ n.chunk.length := by
  unfold markedLength
  split_ifs
  · exact le_rfl
  · exact Nat.zero_le _

end SendBufferNode

open SendBufferNode (isMarked isMarked_iff)

def markedBytes (l : List SendBufferNode) : ℕ := (l.map (·.markedLength)).sum

def keptBytes (l : List SendBufferNode) : ℕ := (l.map (·.keptLength)).sum

/-- The bytes of the marked chunks that fit in a packet with `size` bytes. -/
def packetBytes (maxPayloadSize : ℕ) (marked : SendBufferNode → Bool) :
    ℕ → List SendBufferNode → ℕ
  | _, [] => 0
  | size, n :: l =>
    if marked n then
      if maxPayloadSize < size + n.chunk.length then 0
      else n.chunk.length + packetBytes maxPayloadSize marked (size + pad n.chunk.length) l
    else packetBytes maxPayloadSize marked size l

theorem markedBytes_cons (n : SendBufferNode) (l : List SendBufferNode) :
    markedBytes (n :: l) = n.markedLength + markedBytes l := rfl

theorem markedBytes_append (l l' : List SendBufferNode) :
    markedBytes (l ++ l') = markedBytes l + markedBytes l' := by
  rw [markedBytes, List.map_append, List.sum_append]
  rfl

section

variable {maxPayloadSize size : ℕ} {marked : SendBufferNode → Bool} {n : SendBufferNode}
  {l : List SendBufferNode}

theorem packetBytes_of_big (hn : marked n) (h : maxPayloadSize < size + n.chunk.length) :
    packetBytes maxPayloadSize marked size (n :: l) = 0 := by
  rw [packetBytes, if_pos hn, if_pos h]

theorem packetBytes_of_fits (hn : marked n) (h : ¬ maxPayloadSize < size + n.chunk.length) :
    packetBytes maxPayloadSize marked size (n :: l) =
      n.chunk.length + packetBytes maxPayloadSize marked (size + pad n.chunk.length) l := by
  rw [packetBytes, if_pos hn, if_neg h]

theorem packetBytes_of_unmarked (hn : ¬ marked n) :
    packetBytes maxPayloadSize marked size (n :: l) = packetBytes maxPayloadSize marked size l := by
  rw [packetBytes, if_neg hn]

end

theorem packetBytes_le_markedBytes (maxPayloadSize size : ℕ) (l : List SendBufferNode) :
    packetBytes maxPayloadSize isMarked size l ≤ markedBytes l := by
  induction l generalizing size with
  | nil => exact le_rfl
  | cons n l ih =>
    rw [markedBytes_cons]
    by_cases hn : isMarked n
    · rw [SendBufferNode.markedLength_of_marked (isMarked_iff.1 hn)]
      by_cases hbig : maxPayloadSize < size + n.chunk.length
      · rw [packetBytes_of_big hn hbig]
        exact Nat.zero_le _
      · rw [packetBytes_of_fits hn hbig]
        exact Nat.add_le_add_left (ih _) _
    · rw [packetBytes_of_unmarked hn]
      exact (ih size).trans (Nat.le_add_left _ _)

theorem keptBytes_cons (n : SendBufferNode) (l : List SendBufferNode) :
    keptBytes (n :: l) = n.keptLength + keptBytes l := rfl

namespace Sender

/-- What is sent on the way from `s` to `t` satisfies `P`. -/
def Sends (P : Sent → Prop) (s t : Sender) : Prop := ∃ l, t.sent = s.sent ++ l ∧ ∀ r ∈ l, P r

/-- What is sent are retransmissions that fit the window of the peer. -/
def Resends (s t : Sender) : Prop := Sends (fun r => r.rtx ∧ r.size ≤ r.peerRwnd) s t

/-- What is retransmitted takes `bytes` from the window of the peer, and every chunk fits. -/
structure Debits (bytes : ℕ) (s t : Sender) : Prop where
  peerRwnd : t.peerRwnd + bytes = s.peerRwnd
  resends : Resends s t

/-- The window stays, and nothing is sent. -/
structure Still (s t : Sender) : Prop where
  peerRwnd : t.peerRwnd = s.peerRwnd
  sent : t.sent = s.sent

section

variable {s t u : Sender} {n : SendBufferNode} {c : Config} {b b' e : ℕ}
variable {P : Sent → Prop} {rtxDest : Option ℕ} {limit : RtxLimit} {l' : List SendBufferNode}
  {fuel : ℕ} {k : SackChunk}

theorem Quiet.still (h : Quiet s t) : Still s t := ⟨h.peerRwnd, h.sent⟩

theorem Still.rfl : Still s s := ⟨.refl _, .refl _⟩

theorem Still.trans (h : Still s t) (h' : Still t u) : Still s u :=
  ⟨h'.peerRwnd.trans h.peerRwnd, h'.sent.trans h.sent⟩

theorem Sends.trans (h : Sends P s t) (h' : Sends P t u) : Sends P s u := by
  obtain ⟨l, hl, hr⟩ := h
  obtain ⟨l', hl', hr'⟩ := h'
  exact ⟨l ++ l', by rw [hl', hl, List.append_assoc], List.forall_mem_append.2 ⟨hr, hr'⟩⟩

theorem Sends.mono {Q : Sent → Prop} (h : Sends P s t) (hPQ : ∀ r, P r → Q r) : Sends Q s t := by
  obtain ⟨l, hl, hr⟩ := h
  exact ⟨l, hl, fun r hmem => hPQ r (hr r hmem)⟩

theorem Sends.of_eq (h : t.sent = s.sent) : Sends P s t :=
  ⟨[], by rw [h, List.append_nil], fun r hr => absurd hr List.not_mem_nil⟩

theorem Still.resends (h : Still s t) : Resends s t := .of_eq h.sent

theorem Still.debits (h : Still s t) : Debits 0 s t := ⟨h.peerRwnd, h.resends⟩

theorem Debits.trans (h : Debits b s t) (h' : Debits b' t u) : Debits (b + b') s u where
  peerRwnd := by
    rw [← h.peerRwnd, ← h'.peerRwnd]
    ring
  resends := Sends.trans h.resends h'.resends

theorem Still.then_debits (h : Still s t) (h' : Debits b t u) : Debits b s u :=
  zero_add b ▸ h.debits.trans h'

theorem Debits.still (h : Debits b s t) (h' : Still t u) : Debits b s u :=
  h.trans h'.debits

theorem still_withDest (f : Dest → Dest) : Still s (s.withDest e f) := ⟨.refl _, .refl _⟩

theorem still_withDests (f : Dest → Dest) : Still s (s.withDests f) := by
  obtain ⟨g, hg⟩ := withDests_frame (s := s) f
  rw [hg]
  exact ⟨rfl, rfl⟩

theorem sendBuffer_withDests (f : Dest → Dest) : (s.withDests f).sendBuffer = s.sendBuffer := by
  obtain ⟨g, hg⟩ := withDests_frame (s := s) f
  rw [hg]

theorem still_foldl_countMarked (sign : ℤ) (l : List SendBufferNode) (s : Sender) :
    Still s (l.foldl (countMarked sign) s) := by
  induction l generalizing s with
  | nil => exact Still.rfl
  | cons n l ih =>
    refine Still.trans ?_ (ih _)
    unfold countMarked
    split_ifs
    · exact still_withDest _
    · exact Still.rfl

theorem debits_rtxChunk (hs : s.peerRwnd < 2 ^ 32) (hn : n.chunk.length ≤ s.peerRwnd) :
    Debits n.chunk.length s (s.rtxChunk e n).1 := by
  have hq : Quiet s (s.restartForRtx e n) := quiet_restartForRtx
  constructor
  · change ((s.restartForRtx e n).peerRwnd + 2 ^ 32 - n.chunk.length) % 2 ^ 32 + _ = _
    rw [hq.peerRwnd]
    omega
  · refine ⟨[⟨n.chunk, e, true, n.chunk.length, (s.restartForRtx e n).peerRwnd,
      (s.restartForRtx e n).totalOutstanding⟩], ?_, ?_⟩
    · change (s.restartForRtx e n).sent ++ _ = _
      rw [hq.sent]
    · refine List.forall_mem_singleton.2 ⟨rfl, ?_⟩
      change n.chunk.length ≤ (s.restartForRtx e n).peerRwnd
      rw [hq.peerRwnd]
      exact hn

/-- A packet takes the bytes of its chunks, and the first chunk after it does not fit. -/
theorem debits_rtxPacket {l passed rest : List SendBufferNode} {size size' : ℕ}
    (hs : s.peerRwnd < 2 ^ 32) (hfit : packetBytes c.maxPayloadSize isMarked size l ≤ s.peerRwnd)
    (h : rtxPacket c rtxDest s size l = some (t, size', passed, rest)) :
    Debits (packetBytes c.maxPayloadSize isMarked size l) s t ∧
      markedBytes (passed ++ rest) + packetBytes c.maxPayloadSize isMarked size l = markedBytes l ∧
      packetBytes c.maxPayloadSize isMarked size' rest = 0 := by
  induction l generalizing s size passed with
  | nil =>
    simp only [rtxPacket, Option.some.injEq, Prod.mk.injEq] at h
    obtain ⟨rfl, rfl, rfl, rfl⟩ := h
    exact ⟨Still.rfl.debits, rfl, rfl⟩
  | cons n l ih =>
    have hfirst : Still s (s.noteFirstOutstanding n) := quiet_noteFirstOutstanding.still
    rw [rtxPacket] at h
    dsimp only at h
    split_ifs at h with hm hbig
    · -- the chunk does not fit
      simp only [Option.some.injEq, Prod.mk.injEq] at h
      obtain ⟨rfl, rfl, rfl, rfl⟩ := h
      rw [packetBytes_of_big (isMarked_iff.2 hm) hbig]
      exact ⟨hfirst.debits, rfl, rfl⟩
    · obtain ⟨e, -, h⟩ := Option.bind_eq_some_iff.1 h
      obtain ⟨⟨u, size₁, passed₁, rest₁⟩, hrest, h⟩ := Option.bind_eq_some_iff.1 h
      simp only [Option.some.injEq, Prod.mk.injEq] at h
      obtain ⟨rfl, rfl, rfl, rfl⟩ := h
      rw [packetBytes_of_fits (isMarked_iff.2 hm) hbig] at hfit ⊢
      have hchunk := hfirst.then_debits (debits_rtxChunk (e := e) (n := n)
        (hfirst.peerRwnd ▸ hs) (hfirst.peerRwnd ▸ (Nat.le_add_right _ _).trans hfit))
      have hsent : ((s.noteFirstOutstanding n).rtxChunk e n).2.markedForRtx = .noRtx := rfl
      have hrest' : rtxPacket c rtxDest _ (size + pad n.chunk.length) l = _ := hrest
      have hleft := hchunk.peerRwnd
      obtain ⟨hdebits, hmarked, hnext⟩ := ih (by omega) (by omega) hrest'
      refine ⟨hchunk.trans hdebits, ?_, hnext⟩
      rw [List.cons_append, markedBytes_cons, markedBytes_cons,
        SendBufferNode.markedLength_of_marked hm, SendBufferNode.markedLength_of_noRtx hsent,
        zero_add, Nat.add_left_comm, hmarked]
    · obtain ⟨⟨u, size₁, passed₁, rest₁⟩, hrest, h⟩ := Option.bind_eq_some_iff.1 h
      simp only [Option.some.injEq, Prod.mk.injEq] at h
      obtain ⟨rfl, rfl, rfl, rfl⟩ := h
      rw [packetBytes_of_unmarked fun hn => hm (isMarked_iff.1 hn)] at hfit ⊢
      have hpass := hfirst.trans (quiet_restartForAbandoned (n := n)).still
      obtain ⟨hdebits, hmarked, hnext⟩ :=
        ih (hpass.peerRwnd ▸ hs) (hpass.peerRwnd ▸ hfit) hrest
      refine ⟨hpass.then_debits hdebits, ?_, hnext⟩
      rw [List.cons_append, markedBytes_cons, markedBytes_cons, add_assoc, hmarked]

theorem debits_rtxPackets {l : List SendBufferNode} {packets : ℕ} (hs : s.peerRwnd < 2 ^ 32)
    (hm : markedBytes l ≤ s.peerRwnd)
    (h : rtxPackets c limit rtxDest fuel s packets l = some (t, l')) : ∃ b, Debits b s t := by
  induction fuel generalizing s packets l l' with
  | zero => exact absurd h (Option.some_ne_none _).symm
  | succ fuel ih =>
    rcases rtxPackets_cases h with ⟨rfl, rfl, -⟩ | ⟨u, v, size, passed, rest, hpacket, hq, -, hrest⟩
    · exact ⟨0, Still.rfl.debits⟩
    · obtain ⟨hdebits, hmarked, -⟩ :=
        debits_rtxPacket hs ((packetBytes_le_markedBytes _ _ _).trans hm) hpacket
      have hv := hdebits.still hq.still
      rcases hrest with ⟨-, rfl, -⟩ | ⟨rest', -, hrec⟩
      · exact ⟨_, hv⟩
      · have hleft := hv.peerRwnd
        rw [markedBytes_append] at hmarked
        obtain ⟨b, hb⟩ := ih (by omega) (by omega) hrec
        exact ⟨_, hv.trans hb⟩

theorem rtxPackets_onePacket {l : List SendBufferNode} {packets : ℕ}
    (h : rtxPackets c .onePacket rtxDest fuel s (packets + 1) l = some (t, l')) : t = s := by
  cases fuel with
  | zero => exact absurd h (Option.some_ne_none _).symm
  | succ fuel =>
    rcases rtxPackets_cases h with ⟨rfl, -, -⟩ | ⟨u, v, size, passed, rest, -, -, hmay, -⟩
    · rfl
    · exact absurd (of_decide_eq_true (Option.some.inj hmay)) (by omega)

theorem debits_onePacket {l : List SendBufferNode} (hs : s.peerRwnd < 2 ^ 32)
    (hfit : packetBytes c.maxPayloadSize isMarked 0 l ≤ s.peerRwnd)
    (h : rtxPackets c .onePacket rtxDest fuel s 0 l = some (t, l')) :
    Debits (packetBytes c.maxPayloadSize isMarked 0 l) s t := by
  induction fuel generalizing s l l' with
  | zero => exact absurd h (Option.some_ne_none _).symm
  | succ fuel ih =>
    rcases rtxPackets_cases h with ⟨rfl, -, hstop⟩ | ⟨u, v, size, passed, rest, hpacket, hq, -, hrest⟩
    · obtain rfl : l = [] := hstop.resolve_right fun hmay => absurd (Option.some.inj hmay) (by decide)
      exact Still.rfl.debits
    · obtain ⟨hdebits, -, hnext⟩ := debits_rtxPacket hs hfit hpacket
      have hv := hdebits.still hq.still
      rcases hrest with ⟨-, rfl, -⟩ | ⟨rest', -, hrec⟩
      · exact hv
      · split_ifs at hrec with hsize
        · exact rtxPackets_onePacket hrec ▸ hv
        · -- the packet is empty, and the next one will be
          obtain rfl : size = 0 := Nat.eq_zero_of_not_pos hsize
          have hleft := hv.peerRwnd
          have hrec' := ih (by omega) (hnext.le.trans (Nat.zero_le _)) hrec
          rw [hnext] at hrec'
          exact hv.trans hrec'

theorem rtxMarkedChunks_still (h : s.rtxMarkedChunks c limit = some t) :
    ∃ u v rtxDest fuel l, Still s u ∧
      rtxPackets c limit rtxDest fuel u 0 s.sendBuffer = some (v, l) ∧ Still v t := by
  obtain ⟨u, v, rtxDest, l, hu, -, hpackets, ht⟩ := rtxMarkedChunks_cases h
  have hoff := still_foldl_countMarked (-1) s.sendBuffer u
  have hback := (still_foldl_countMarked 1 l { v with sendBuffer := l }).trans ht.still
  exact ⟨_, v, rtxDest, _, l, hu.still.trans hoff, hpackets, hback.peerRwnd, hback.sent⟩

theorem debits_rtxMarkedChunks (hs : s.peerRwnd < 2 ^ 32)
    (hm : markedBytes s.sendBuffer ≤ s.peerRwnd) (h : s.rtxMarkedChunks c limit = some t) :
    ∃ b, Debits b s t := by
  obtain ⟨u, v, rtxDest, fuel, l, hu, hpackets, ht⟩ := rtxMarkedChunks_still h
  obtain ⟨b, hb⟩ := debits_rtxPackets (hu.peerRwnd ▸ hs) (hu.peerRwnd ▸ hm) hpackets
  exact ⟨b, (hu.then_debits hb).still ht⟩

theorem debits_rtxMarkedChunks_onePacket (hs : s.peerRwnd < 2 ^ 32)
    (hfit : packetBytes c.maxPayloadSize isMarked 0 s.sendBuffer ≤ s.peerRwnd)
    (h : s.rtxMarkedChunks c .onePacket = some t) :
    Debits (packetBytes c.maxPayloadSize isMarked 0 s.sendBuffer) s t := by
  obtain ⟨u, v, rtxDest, fuel, l, hu, hpackets, ht⟩ := rtxMarkedChunks_still h
  have hb := debits_onePacket (hu.peerRwnd ▸ hs) (hu.peerRwnd ▸ hfit) hpackets
  exact (hu.then_debits hb).still ht

theorem still_dequeueNode : Still s (s.dequeueNode n) := by
  have hbytes (b : ℤ) : Still s (if n.Unacked then
      { s with highestTsnNewlyAcked := n.chunk.tsn }.addNewlyAcked n.dest n.chunk.length b
      else s) := by
    split_ifs <;> exact ⟨rfl, rfl⟩
  have hburst (v : Sender) :
      Still v (if n.ineligibleForFastRtx then { v with applyMaxBurst := true } else v) := by
    split_ifs <;> exact ⟨rfl, rfl⟩
  have hstop (v : Sender) : Still v
      (if (v.dest n.dest).rtxTimerIsRunning then v.stopT3RtxTimer n.dest else v) := by
    split_ifs <;> exact ⟨rfl, rfl⟩
  unfold dequeueNode
  exact (((hbytes _).trans (hburst _)).trans (hstop _)).trans quiet_clearErrorCount.still

theorem still_dequeueLoop (tsn : ℕ) (l : List SendBufferNode) (s : Sender) :
    Still s (dequeueLoop tsn s l) ∧ (dequeueLoop tsn s l).sendBuffer = chunksAbove tsn l := by
  induction l generalizing s with
  | nil => exact ⟨⟨rfl, rfl⟩, rfl⟩
  | cons n l ih =>
    rw [dequeueLoop]
    split_ifs with htsn
    · obtain ⟨hstill, hbuffer⟩ := ih (s.dequeueNode n)
      exact ⟨still_dequeueNode.trans hstill, by rw [hbuffer, chunksAbove_cons_of_le l htsn]⟩
    · exact ⟨⟨rfl, rfl⟩, (chunksAbove_cons_of_not_le l htsn).symm⟩

theorem still_withdrawGapAck : Still s (s.withdrawGapAck n).1 ∧
    (s.withdrawGapAck n).2.markedLength = n.markedLength ∧
    (s.withdrawGapAck n).2.keptLength = n.keptLength := by
  unfold withdrawGapAck
  split_ifs
  · exact ⟨⟨rfl, rfl⟩, rfl, rfl⟩
  · exact ⟨Still.rfl, rfl, rfl⟩

theorem still_gapAckNode (b : Bool) : Still s (s.gapAckNode b n).1 ∧
    (s.gapAckNode b n).2.markedLength ≤ n.markedLength ∧
    (s.gapAckNode b n).2.keptLength = n.keptLength := by
  have hstop (v : Sender) (x : Dest) : Still v
      (if x.firstOutstanding = some n.chunk.tsn ∧ x.rtxTimerIsRunning then v.stopT3RtxTimer n.dest
        else v) := by
    split_ifs <;> exact ⟨rfl, rfl⟩
  have hnewly (x y : ℤ) : Still s
      ({ s with highestTsnNewlyAcked := max s.highestTsnNewlyAcked n.chunk.tsn }.addNewlyAcked
        n.dest x y) := ⟨rfl, rfl⟩
  have hcount (v : Sender) : Still v { v with assocErrorCount := 0 } := ⟨rfl, rfl⟩
  by_cases hgap : n.gapAcked
  · rw [gapAckNode, if_pos hgap]
    exact ⟨Still.rfl, le_rfl, rfl⟩
  · rw [gapAckNode, if_neg hgap]
    refine ⟨?_, (SendBufferNode.markedLength_of_noRtx rfl).trans_le (Nat.zero_le _), rfl⟩
    exact (((hnewly _ _).trans (hstop _ _)).trans (hcount _)).trans quiet_clearErrorCount.still

theorem still_gapStep (b : Bool) (g : GapScan) :
    Still g.sender (gapStep k b g n).1.sender ∧
      (gapStep k b g n).2.markedLength ≤ n.markedLength ∧
      (gapStep k b g n).2.keptLength = n.keptLength := by
  have hfirst : Still g.sender (g.sender.noteFirstOutstanding n) := quiet_noteFirstOutstanding.still
  have hwithdraw (v : Sender) := still_withdrawGapAck (s := v) (n := n)
  have hack (v : Sender) := still_gapAckNode (s := v) (n := n) b
  unfold gapStep
  dsimp only
  split_ifs
  · exact ⟨(hwithdraw _).1, (hwithdraw _).2.1.le, (hwithdraw _).2.2⟩
  · exact ⟨hfirst.trans (hwithdraw _).1, (hwithdraw _).2.1.le, (hwithdraw _).2.2⟩
  · exact ⟨hfirst.trans (hack _).1, (hack _).2⟩
  · exact ⟨hfirst.trans (hwithdraw _).1, (hwithdraw _).2.1.le, (hwithdraw _).2.2⟩

theorem still_mapAccum_gapStep (b : Bool) (l : List SendBufferNode) (g : GapScan) :
    Still g.sender (mapAccum (gapStep k b) g l).1.sender ∧
      markedBytes (mapAccum (gapStep k b) g l).2 ≤ markedBytes l ∧
      keptBytes (mapAccum (gapStep k b) g l).2 = keptBytes l := by
  induction l generalizing g with
  | nil => exact ⟨Still.rfl, le_rfl, rfl⟩
  | cons n l ih =>
    obtain ⟨hstill, hmarked, hkept⟩ := still_gapStep (n := n) (k := k) b g
    obtain ⟨hstill', hmarked', hkept'⟩ := ih (gapStep k b g n).1
    rw [mapAccum_cons, markedBytes_cons, markedBytes_cons, keptBytes_cons, keptBytes_cons]
    exact ⟨hstill.trans hstill', Nat.add_le_add hmarked hmarked', congrArg₂ _ hkept hkept'⟩

theorem markChunkForRtx_window (m : MarkedForRtx) :
    (s.markChunkForRtx m n).1.peerRwnd = (s.peerRwnd + n.chunk.length) % 2 ^ 32 ∧
      (s.markChunkForRtx m n).1.sent = s.sent ∧
      (s.markChunkForRtx m n).2.markedLength ≤ n.chunk.length := by
  unfold markChunkForRtx
  dsimp only
  split_ifs
  · exact ⟨rfl, rfl, Nat.zero_le _⟩
  · exact ⟨rfl, rfl, SendBufferNode.markedLength_le { n with markedForRtx := m }⟩

theorem reportMissing_window (b : Bool) (highest : ℕ) (r : Sender × Bool)
    (hroom : r.1.peerRwnd + n.keptLength < 2 ^ 32) : ∃ credit ≤ n.keptLength,
    (reportMissing c b highest r n).1.1.peerRwnd = r.1.peerRwnd + credit ∧
      (reportMissing c b highest r n).1.1.sent = r.1.sent ∧
      (reportMissing c b highest r n).2.markedLength ≤ n.markedLength + credit := by
  unfold reportMissing
  dsimp only
  split_ifs with hmissing hmark
  · obtain ⟨hrwnd, hsent, hmarked⟩ := markChunkForRtx_window (s := r.1)
      (n := { n with numMissingReports := n.numMissingReports + 1 }) .fastRtx
    have hkept : n.keptLength = n.chunk.length := if_neg (Bool.not_eq_true _ ▸ hmark.2.2)
    refine ⟨n.chunk.length, hkept.ge, ?_, hsent, hmarked.trans (Nat.le_add_left _ _)⟩
    exact hrwnd.trans (Nat.mod_eq_of_lt (hkept ▸ hroom))
  · exact ⟨0, Nat.zero_le _, rfl, rfl, le_rfl⟩
  · exact ⟨0, Nat.zero_le _, rfl, rfl, le_rfl⟩

/-- The window holds the bytes of the chunks that are marked, however many become so. -/
theorem reportMissing_covers (b : Bool) (highest : ℕ) (l : List SendBufferNode)
    (r : Sender × Bool) (others : ℕ) (hm : markedBytes l + others ≤ r.1.peerRwnd)
    (hroom : r.1.peerRwnd + keptBytes l < 2 ^ 32) :
    markedBytes (mapAccum (reportMissing c b highest) r l).2 + others ≤
        (mapAccum (reportMissing c b highest) r l).1.1.peerRwnd ∧
      (mapAccum (reportMissing c b highest) r l).1.1.peerRwnd < 2 ^ 32 ∧
      (mapAccum (reportMissing c b highest) r l).1.1.sent = r.1.sent := by
  induction l generalizing r others with
  | nil => exact ⟨hm, hroom, rfl⟩
  | cons n l ih =>
    rw [keptBytes_cons] at hroom
    rw [markedBytes_cons] at hm
    obtain ⟨credit, hle, hrwnd, hsent, hmarked⟩ :=
      reportMissing_window (c := c) (n := n) b highest r (by omega)
    rw [mapAccum_cons]
    obtain ⟨hm', hlt, hsent'⟩ := ih (reportMissing c b highest r n).1
      ((reportMissing c b highest r n).2.markedLength + others) (by omega) (by omega)
    refine ⟨?_, hlt, hsent'.trans hsent⟩
    rw [markedBytes_cons, add_comm _ (markedBytes _), add_assoc]
    exact hm'

/-- The window holds the bytes of the marked chunks. -/
structure Holds (s : Sender) : Prop where
  marked : markedBytes s.sendBuffer ≤ s.peerRwnd
  lt : s.peerRwnd < 2 ^ 32

/-- It holds the bytes of the marked chunks among those that the SACK leaves, and has room for all
of these that are not given up. -/
structure Covers (k : SackChunk) (s : Sender) : Prop where
  marked : markedBytes (s.scanned k) ≤ s.peerRwnd
  room : s.peerRwnd + keptBytes (s.scanned k) < 2 ^ 32

theorem Holds.of_still (h : Holds s) (hs : Still s t) (hb : t.sendBuffer = s.sendBuffer) :
    Holds t :=
  ⟨hb ▸ hs.peerRwnd ▸ h.marked, hs.peerRwnd ▸ h.lt⟩

theorem holds_processGapAckBlocks (b : Bool) (hm : markedBytes s.sendBuffer ≤ s.peerRwnd)
    (hroom : s.peerRwnd + keptBytes s.sendBuffer < 2 ^ 32) :
    Holds (s.processGapAckBlocks c k b).1 ∧ (s.processGapAckBlocks c k b).1.sent = s.sent := by
  unfold processGapAckBlocks
  split_ifs
  · exact ⟨⟨hm, (Nat.le_add_right _ _).trans_lt hroom⟩, rfl⟩
  · have hclear : Still s (s.withDests fun x => { x with firstOutstanding := none }) :=
      still_withDests _
    dsimp only
    generalize (s.withDests fun x => { x with firstOutstanding := none }) = t at hclear
    obtain ⟨hscan, hmarked, hkept⟩ :=
      still_mapAccum_gapStep (k := k) b s.sendBuffer ⟨t, 0, t.highestTsnNewlyAcked⟩
    generalize mapAccum (gapStep k b) ⟨t, 0, t.highestTsnNewlyAcked⟩ s.sendBuffer = r
      at hscan hmarked hkept
    have hstill := hclear.trans hscan
    obtain ⟨hm', hlt, hsent⟩ := reportMissing_covers (c := c) b r.1.highestTsnSacked r.2
      (r.1.sender, false) 0 (hmarked.trans (hstill.peerRwnd ▸ hm)) (hkept ▸ hstill.peerRwnd ▸ hroom)
    exact ⟨⟨hm', hlt⟩, hsent.trans hstill.sent⟩

theorem holds_ackChunks (h : Covers k s) :
    Holds (s.ackChunks c k).1 ∧ (s.ackChunks c k).1.sent = s.sent := by
  obtain ⟨g, hg⟩ := withDests_frame (s := s) fun x =>
    { x with numNewlyAckedBytes := 0, firstOutstanding := none }
  unfold ackChunks
  dsimp only
  rw [hg]
  have hdequeue : ∃ u, (if decide (s.cumAckPoint < k.cumAck) then
      { { s with dest := g }.sendBufferDequeueUpTo k.cumAck with cumAckPoint := k.cumAck }
        else { s with dest := g }) = u ∧ Still s u ∧ u.sendBuffer = s.scanned k := by
    refine ⟨_, rfl, ?_⟩
    by_cases hle : s.cumAckPoint < k.cumAck
    · rw [if_pos (decide_eq_true hle), scanned, if_pos hle]
      obtain ⟨hstill, hbuffer⟩ :=
        still_dequeueLoop k.cumAck s.sendBuffer { s with dest := g, assocErrorCount := 0 }
      exact ⟨⟨hstill.peerRwnd, hstill.sent⟩, hbuffer⟩
    · rw [if_neg (by simpa using hle), scanned, if_neg hle]
      exact ⟨⟨rfl, rfl⟩, rfl⟩
  obtain ⟨u, hu, hstill, hbuffer⟩ := hdequeue
  rw [hu]
  have hm : markedBytes u.sendBuffer ≤ u.peerRwnd := hbuffer ▸ hstill.peerRwnd ▸ h.marked
  have hroom : u.peerRwnd + keptBytes u.sendBuffer < 2 ^ 32 := hbuffer ▸ hstill.peerRwnd ▸ h.room
  split_ifs
  · obtain ⟨hholds, hsent⟩ := holds_processGapAckBlocks (c := c) (k := k)
      (decide (s.cumAckPoint < k.cumAck)) hm hroom
    exact ⟨hholds, hsent.trans hstill.sent⟩
  · exact ⟨⟨hm, (Nat.le_add_right _ _).trans_lt hroom⟩, hstill.sent⟩

theorem processSackChunk_window (h : Covers k s) (hcum : s.cumAckPoint ≤ k.cumAck)
    (ht : s.processSackChunk c k = some t) : t.peerRwnd ≤ k.arwnd.toNat ∧ Resends s t := by
  unfold processSackChunk at ht
  rw [if_neg (not_lt.2 hcum)] at ht
  obtain ⟨w, hw, rfl⟩ := Option.map_eq_some_iff.1 ht
  obtain ⟨hacked, hsent⟩ := holds_ackChunks (c := c) h
  constructor
  · unfold setPeerRwnd
    dsimp only
    split_ifs
    · exact Nat.sub_le _ _
    · exact Nat.zero_le _
  obtain ⟨u, hu, hrtx⟩ := rtxForSack_cases hw
  have hsettle := still_withDests (s := (s.ackChunks c k).1)
    (settleDest c k (decide (s.cumAckPoint < k.cumAck)) (s.ackChunks c k).1.recover)
  have hstill : Still (s.ackChunks c k).1 u := hsettle.trans ⟨hu.peerRwnd, hu.sent⟩
  have hholds : Holds u := hacked.of_still hstill (hu.sendBuffer.trans (sendBuffer_withDests _))
  have hresends : Resends u w := by
    rcases hrtx with ⟨limit, -, hrtx⟩ | hrtx
    · obtain ⟨b, hb⟩ := debits_rtxMarkedChunks hholds.lt hholds.marked hrtx
      exact hb.resends
    · exact Option.some.inj hrtx ▸ Still.rfl.resends
  exact (Sends.of_eq (hstill.sent.trans hsent)).trans hresends

theorem markForTimeout_window (hs : s.peerRwnd < 2 ^ 32) :
    ((s.markForTimeout e n).1.peerRwnd : ℤ) = (s.peerRwnd + n.outstandingOn e) % 2 ^ 32 ∧
      (s.markForTimeout e n).1.sent = s.sent ∧
      (s.markForTimeout e n).1.outStreams = s.outStreams ∧
      ((s.markForTimeout e n).1.markedChunksPending ↔
        s.markedChunksPending ∨ n.TimesOut s.outStreams e) ∧
      (s.markForTimeout e n).2.chunk = n.chunk ∧
      (s.markForTimeout e n).2.isMarked = n.markedAfter s.outStreams e := by
  unfold markForTimeout SendBufferNode.markedAfter SendBufferNode.TimesOut
  split_ifs with hn
  · rw [outstandingOn_of_unacked hn.2, if_pos hn.1]
    unfold markChunkForRtx
    dsimp only
    split_ifs with hgive
    · refine ⟨rfl, rfl, rfl, ?_, rfl, ?_⟩
      · exact (or_iff_left fun h => h.2 hgive).symm
      · exact (decide_eq_false (not_not.2 hgive)).symm
    · refine ⟨rfl, rfl, rfl, iff_of_true rfl (.inr ⟨hn, hgive⟩), rfl, ?_⟩
      exact (decide_eq_true hgive).symm
  · refine ⟨?_, rfl, rfl, (or_iff_left fun h => hn h.1).symm, rfl, rfl⟩
    rw [SendBufferNode.outstandingOn, if_neg hn]
    dsimp only
    omega

/-- What the marks of a timeout leave. -/
structure TimesOut (d : ℕ) (s : Sender) (l : List SendBufferNode) (t : Sender)
    (l' : List SendBufferNode) : Prop where
  peerRwnd : (t.peerRwnd : ℤ) = (s.peerRwnd + outstandingOn d l) % 2 ^ 32
  sent : t.sent = s.sent
  outStreams : t.outStreams = s.outStreams
  pending : t.markedChunksPending ↔ s.markedChunksPending ∨ ∃ n ∈ l, n.TimesOut s.outStreams d
  packet (maxPayloadSize size : ℕ) : packetBytes maxPayloadSize isMarked size l' =
    packetBytes maxPayloadSize (SendBufferNode.markedAfter s.outStreams d) size l

theorem mapAccum_markForTimeout (l : List SendBufferNode) (hs : s.peerRwnd < 2 ^ 32) :
    TimesOut e s l (mapAccum (markForTimeout e) s l).1 (mapAccum (markForTimeout e) s l).2 := by
  induction l generalizing s with
  | nil =>
    refine ⟨?_, rfl, rfl, (or_iff_left fun h => ?_).symm, fun _ _ => rfl⟩
    · change (s.peerRwnd : ℤ) = (s.peerRwnd + 0) % 2 ^ 32
      omega
    · obtain ⟨n, hn, -⟩ := h
      exact absurd hn List.not_mem_nil
  | cons n l ih =>
    obtain ⟨hrwnd, hsent, hstreams, hpending, hchunk, hmarked⟩ :=
      markForTimeout_window (e := e) (n := n) hs
    have hrest := ih (s := (s.markForTimeout e n).1) (by omega)
    rw [mapAccum_cons]
    refine ⟨?_, hrest.sent.trans hsent, hrest.outStreams.trans hstreams, ?_, fun max size => ?_⟩
    · rw [hrest.peerRwnd, hrwnd, outstandingOn_cons]
      omega
    · rw [hrest.pending, hpending, hstreams, or_assoc]
      simp only [List.exists_mem_cons_iff]
    · have hpacket (size : ℕ) := hrest.packet max size
      rw [hstreams] at hpacket
      rw [packetBytes, packetBytes, hmarked, hchunk, hpacket, hpacket]

/-- The bytes of the packet after a timeout of `d`. -/
def timeoutPacket (c : Config) (d : ℕ) (s : Sender) : ℕ :=
  if s.markedChunksPending ∨ ∃ n ∈ s.sendBuffer, n.TimesOut s.outStreams d then
    packetBytes c.maxPayloadSize (SendBufferNode.markedAfter s.outStreams d) 0 s.sendBuffer
  else 0

/-- The window that a timeout of `d` leaves before the packet. -/
def timeoutRwnd (d : ℕ) (s : Sender) : ℤ := (s.peerRwnd + outstandingOn d s.sendBuffer) % 2 ^ 32

theorem timeoutRtx_window (hs : s.peerRwnd < 2 ^ 32) (hfit : s.timeoutPacket c e ≤ s.timeoutRwnd e)
    (ht : s.timeoutRtx c e = some t) :
    (t.peerRwnd : ℤ) = s.timeoutRwnd e - s.timeoutPacket c e ∧ Resends s t := by
  have hmarks := mapAccum_markForTimeout (e := e) s.sendBuffer hs
  unfold timeoutRtx at ht
  dsimp only at ht
  generalize mapAccum (markForTimeout e) s s.sendBuffer = r at ht hmarks
  have hrwnd : (r.1.peerRwnd : ℤ) = s.timeoutRwnd e := hmarks.peerRwnd
  have hresends {u : Sender} (h : Resends r.1 u) : Resends s u := (Sends.of_eq hmarks.sent).trans h
  rw [← hrwnd] at hfit ⊢
  by_cases hpending : r.1.markedChunksPending
  · have hpacket : s.timeoutPacket c e = packetBytes c.maxPayloadSize isMarked 0 r.2 := by
      rw [timeoutPacket, if_pos (hmarks.pending.1 hpending), hmarks.packet]
    rw [if_pos hpending] at ht
    rw [hpacket] at hfit ⊢
    have hlt : r.1.peerRwnd < 2 ^ 32 := by
      have := hmarks.peerRwnd
      omega
    have hb := debits_rtxMarkedChunks_onePacket (s := { r.1 with sendBuffer := r.2 }) hlt
      (Nat.cast_le.1 hfit) ht
    have hleft : t.peerRwnd + packetBytes c.maxPayloadSize isMarked 0 r.2 = r.1.peerRwnd := hb.peerRwnd
    exact ⟨by omega, hresends hb.resends⟩
  · have hpacket : s.timeoutPacket c e = 0 := by
      rw [timeoutPacket, if_neg fun h => hpending (hmarks.pending.2 h)]
    rw [if_neg hpending] at ht
    obtain rfl := Option.some.inj ht
    rw [hpacket]
    exact ⟨(sub_zero _).symm, hresends Still.rfl.resends⟩

end

end Sender

end Ns2.Sctp
