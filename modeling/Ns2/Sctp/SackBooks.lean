import Ns2.Sctp.SenderBooks
import Mathlib.Tactic.LinearCombination

/-! The outstanding bytes over a SACK. They follow the send buffer, except where a gap ack is
withdrawn from a chunk that was given up: its bytes are counted again. -/

namespace Ns2.Sctp

variable {tsn : ℕ}

/-- The chunks that stay when those up to `tsn` at the head leave. -/
def chunksAbove (tsn : ℕ) (l : List SendBufferNode) : List SendBufferNode :=
  l.dropWhile fun n => n.chunk.tsn ≤ tsn

theorem chunksAbove_cons_of_le {n : SendBufferNode} (l : List SendBufferNode)
    (h : n.chunk.tsn ≤ tsn) : chunksAbove tsn (n :: l) = chunksAbove tsn l :=
  List.dropWhile_cons_of_pos (decide_eq_true h)

theorem chunksAbove_cons_of_not_le {n : SendBufferNode} (l : List SendBufferNode)
    (h : ¬ n.chunk.tsn ≤ tsn) : chunksAbove tsn (n :: l) = n :: l :=
  List.dropWhile_cons_of_neg (by simpa using h)

theorem chunksAbove_subset (tsn : ℕ) (l : List SendBufferNode) : chunksAbove tsn l ⊆ l :=
  (List.dropWhile_sublist _).subset

namespace SackChunk

/-- The block `i` acks the chunk; after the last block none is acked. -/
def Acks (k : SackChunk) (i tsn : ℕ) : Prop :=
  i ≠ k.numGapAckBlocks ∧ k.startTsn i ≤ tsn ∧ tsn ≤ k.endTsn i

instance (k : SackChunk) (i tsn : ℕ) : Decidable (k.Acks i tsn) := by
  unfold Acks
  infer_instance

/-- The block that is looked at after a chunk. -/
def nextBlock (k : SackChunk) (i tsn : ℕ) : ℕ :=
  if i ≠ k.numGapAckBlocks ∧ k.startTsn i ≤ tsn ∧ k.endTsn i < tsn then i + 1 else i

/-- The bytes on `d` of the chunks that were given up and lose a gap ack, from the block `i` on. -/
def withdrawnOn (d : ℕ) (k : SackChunk) : ℕ → List SendBufferNode → ℤ
  | _, [] => 0
  | i, n :: l =>
    (if ¬ k.Acks i n.chunk.tsn ∧ n.gapAcked ∧ n.advancedAcked ∧ n.dest = d then
      (n.chunk.length : ℤ) else 0) + k.withdrawnOn d (k.nextBlock i n.chunk.tsn) l

theorem withdrawnOn_nonneg (d : ℕ) (k : SackChunk) (i : ℕ) (l : List SendBufferNode) :
    0 ≤ k.withdrawnOn d i l := by
  induction l generalizing i with
  | nil => exact le_rfl
  | cons n l ih =>
    refine add_nonneg ?_ (ih _)
    split_ifs <;> omega

end SackChunk

namespace Sender

section

variable {L : List ℕ} {d : ℕ} {s t u : Sender} {n : SendBufferNode} {c : Config} {k : SackChunk}

theorem moves_addNewlyAcked {e : ℕ} {bytes partialBytes : ℤ} :
    Moves d 0 (if e = d then bytes else 0) s (s.addNewlyAcked e bytes partialBytes) :=
  (moves_withDest (add_zero _).symm rfl).cast (ite_self 0) rfl

theorem moves_dequeueNode : Moves d 0 (n.outstandingOn d) s (s.dequeueNode n) := by
  have hbytes (b : ℤ) : Moves d 0 (n.outstandingOn d) s (if n.Unacked then
      { s with highestTsnNewlyAcked := n.chunk.tsn }.addNewlyAcked n.dest n.chunk.length b
      else s) := by
    split_ifs with hn
    · rw [outstandingOn_of_unacked hn]
      have hhighest : Moves d 0 0 s { s with highestTsnNewlyAcked := n.chunk.tsn } :=
        .of_eq rfl rfl rfl rfl rfl rfl rfl rfl
      exact (hhighest.trans moves_addNewlyAcked).cast rfl (zero_add _)
    · rw [outstandingOn_of_not_unacked hn]
      exact Moves.rfl
  have hburst (v : Sender) :
      Quiet v (if n.ineligibleForFastRtx then { v with applyMaxBurst := true } else v) := by
    split_ifs
    · exact .of_burst
    · exact Quiet.rfl
  have hstop (v : Sender) : Quiet v
      (if (v.dest n.dest).rtxTimerIsRunning then v.stopT3RtxTimer n.dest else v) := by
    split_ifs
    · exact quiet_stopT3RtxTimer
    · exact Quiet.rfl
  unfold dequeueNode
  exact (((hbytes _).quiet (hburst _)).quiet (hstop _)).quiet quiet_clearErrorCount

/-- The chunks up to a cum ack leave the buffer, and those that were outstanding are newly acked. -/
theorem dequeueLoop_cases (tsn : ℕ) (l : List SendBufferNode) (s : Sender) : ∃ u,
    (∀ d, Moves d 0 (outstandingOn d l - outstandingOn d (chunksAbove tsn l)) s u) ∧
      dequeueLoop tsn s l = { u with sendBuffer := chunksAbove tsn l } := by
  induction l generalizing s with
  | nil => exact ⟨s, fun d => Moves.rfl.cast rfl (sub_self _).symm, rfl⟩
  | cons n l ih =>
    rw [dequeueLoop]
    split_ifs with htsn
    · obtain ⟨u, hmoves, hloop⟩ := ih (s.dequeueNode n)
      rw [chunksAbove_cons_of_le l htsn]
      refine ⟨u, fun d => (moves_dequeueNode.trans (hmoves d)).cast (add_zero 0) ?_, hloop⟩
      rw [outstandingOn_cons]
      ring
    · rw [chunksAbove_cons_of_not_le l htsn]
      exact ⟨s, fun d => Moves.rfl.cast rfl (sub_self _).symm, rfl⟩

theorem moves_withdrawGapAck (hn : n.Booked L) :
    Moves d ((s.withdrawGapAck n).2.outstandingOn d - n.outstandingOn d +
      if n.gapAcked ∧ n.advancedAcked ∧ n.dest = d then (n.chunk.length : ℤ) else 0) 0 s
      (s.withdrawGapAck n).1 ∧ (s.withdrawGapAck n).2.Booked L := by
  by_cases hgap : n.gapAcked
  · have hacked : ¬ n.Unacked := fun h => by rw [h.1] at hgap; exact absurd hgap (by decide)
    have hw : s.withdrawGapAck n =
        (s.addOutstanding n.dest n.chunk.length, { n with gapAcked := false }) := if_pos hgap
    rw [hw, outstandingOn_of_not_unacked hacked]
    refine ⟨moves_addOutstanding.cast ?_ rfl, hn.dest, fun hm => absurd (hn.unacked hm) hacked⟩
    unfold SendBufferNode.outstandingOn SendBufferNode.Unacked
    dsimp only
    cases n.advancedAcked <;> split_ifs <;> simp_all
  · have hw : s.withdrawGapAck n = (s, n) := if_neg hgap
    rw [hw]
    refine ⟨Moves.rfl.cast ?_ rfl, hn⟩
    rw [if_neg fun h => hgap h.1, sub_self, add_zero]

theorem moves_gapAckNode (b : Bool) (hn : n.Booked L) :
    Moves d 0 (n.outstandingOn d - (s.gapAckNode b n).2.outstandingOn d) s (s.gapAckNode b n).1 ∧
      (s.gapAckNode b n).2.Booked L := by
  by_cases hgap : n.gapAcked
  · have hw : s.gapAckNode b n = (s, n) := if_pos hgap
    rw [hw]
    exact ⟨Moves.rfl.cast rfl (sub_self _).symm, hn⟩
  · have hbytes (b : ℤ) : Moves d 0 (n.outstandingOn d) s
        ({ s with highestTsnNewlyAcked := max s.highestTsnNewlyAcked n.chunk.tsn }.addNewlyAcked n.dest
          (if n.advancedAcked then 0 else n.chunk.length) b) := by
      have hhighest : Moves d 0 0 s
          { s with highestTsnNewlyAcked := max s.highestTsnNewlyAcked n.chunk.tsn } :=
        .of_eq rfl rfl rfl rfl rfl rfl rfl rfl
      refine (hhighest.trans moves_addNewlyAcked).cast (add_zero 0) ?_
      unfold SendBufferNode.outstandingOn SendBufferNode.Unacked
      by_cases hadv : n.advancedAcked <;> simp [hgap, hadv]
    have hstop (v : Sender) (x : Dest) : Quiet v
        (if x.firstOutstanding = some n.chunk.tsn ∧ x.rtxTimerIsRunning then v.stopT3RtxTimer n.dest
          else v) := by
      split_ifs
      · exact quiet_stopT3RtxTimer
      · exact Quiet.rfl
    have hcount (v : Sender) : Quiet v { v with assocErrorCount := 0 } :=
      ⟨⟨rfl, rfl, rfl, .inl rfl, rfl, rfl, rfl⟩, fun _ => rfl, fun _ => rfl, rfl, rfl⟩
    have hacked : (s.gapAckNode b n).2.outstandingOn d = 0 := by
      rw [gapAckNode, if_neg hgap]
      exact outstandingOn_of_not_unacked fun h => Bool.noConfusion h.1
    rw [hacked, sub_zero, gapAckNode, if_neg hgap]
    exact ⟨(((hbytes _).quiet (hstop _ _)).quiet (hcount _)).quiet quiet_clearErrorCount, hn.dest,
      fun h => absurd rfl h⟩

theorem gapStep_moves (b : Bool) (g : GapScan) (hn : n.Booked L) :
    (gapStep k b g n).1.numGapAcksProcessed = k.nextBlock g.numGapAcksProcessed n.chunk.tsn ∧
      (∃ δ ε, Moves d δ ε g.sender (gapStep k b g n).1.sender ∧
        δ - ε = (gapStep k b g n).2.outstandingOn d - n.outstandingOn d +
          if ¬ k.Acks g.numGapAcksProcessed n.chunk.tsn ∧ n.gapAcked ∧ n.advancedAcked ∧ n.dest = d
          then (n.chunk.length : ℤ) else 0) ∧
      (gapStep k b g n).2.Booked L := by
  have hfirst : Quiet g.sender (g.sender.noteFirstOutstanding n) := quiet_noteFirstOutstanding
  have hwithdraw {v : Sender} (hv : Quiet g.sender v)
      (hacks : ¬ k.Acks g.numGapAcksProcessed n.chunk.tsn) :
      ∃ δ ε, Moves d δ ε g.sender (v.withdrawGapAck n).1 ∧
        δ - ε = (v.withdrawGapAck n).2.outstandingOn d - n.outstandingOn d +
          if ¬ k.Acks g.numGapAcksProcessed n.chunk.tsn ∧ n.gapAcked ∧ n.advancedAcked ∧ n.dest = d
          then (n.chunk.length : ℤ) else 0 := by
    refine ⟨_, 0, hv.then_moves (moves_withdrawGapAck hn).1, ?_⟩
    rw [sub_zero]
    simp only [hacks, not_false_eq_true, true_and]
  by_cases hlast : g.numGapAcksProcessed = k.numGapAckBlocks
  · rw [gapStep, if_pos hlast]
    exact ⟨(if_neg fun h => h.1 hlast).symm, hwithdraw Quiet.rfl fun h => h.1 hlast,
      (moves_withdrawGapAck (d := d) hn).2⟩
  · rw [gapStep, if_neg hlast]
    dsimp only
    by_cases hlt : n.chunk.tsn < k.startTsn g.numGapAcksProcessed
    · rw [if_pos hlt]
      exact ⟨(if_neg fun h => absurd hlt (not_lt.2 h.2.1)).symm,
        hwithdraw hfirst fun h => absurd hlt (not_lt.2 h.2.1), (moves_withdrawGapAck (d := d) hn).2⟩
    rw [if_neg hlt]
    by_cases hle : n.chunk.tsn ≤ k.endTsn g.numGapAcksProcessed
    · have hacks : k.Acks g.numGapAcksProcessed n.chunk.tsn := ⟨hlast, not_lt.1 hlt, hle⟩
      rw [if_pos hle]
      obtain ⟨hmoves, hbooked⟩ :=
        moves_gapAckNode (d := d) (s := g.sender.noteFirstOutstanding n) b hn
      refine ⟨(if_neg fun h => absurd hle (not_le.2 h.2.2)).symm,
        ⟨0, _, hfirst.then_moves hmoves, ?_⟩, hbooked⟩
      rw [if_neg fun h => h.1 hacks]
      ring
    · rw [if_neg hle]
      exact ⟨(if_pos ⟨hlast, not_lt.1 hlt, not_le.1 hle⟩).symm,
        hwithdraw hfirst fun h => hle h.2.2, (moves_withdrawGapAck (d := d) hn).2⟩

theorem mapAccum_gapStep (b : Bool) {l : List SendBufferNode} (hl : ∀ n ∈ l, n.Booked L)
    (g : GapScan) :
    (∃ δ ε, Moves d δ ε g.sender (mapAccum (gapStep k b) g l).1.sender ∧
      δ - ε = outstandingOn d (mapAccum (gapStep k b) g l).2 - outstandingOn d l +
        k.withdrawnOn d g.numGapAcksProcessed l) ∧
      ∀ n ∈ (mapAccum (gapStep k b) g l).2, n.Booked L := by
  induction l generalizing g with
  | nil => exact ⟨⟨0, 0, Moves.rfl, rfl⟩, hl⟩
  | cons n l ih =>
    obtain ⟨hn, hl⟩ := List.forall_mem_cons.1 hl
    obtain ⟨hnext, ⟨δ, ε, hmoves, hsum⟩, hbooked⟩ := gapStep_moves (d := d) (k := k) b g hn
    obtain ⟨⟨δ', ε', hmoves', hsum'⟩, hbooked'⟩ := ih hl (gapStep k b g n).1
    rw [mapAccum_cons]
    refine ⟨⟨δ + δ', ε + ε', hmoves.trans hmoves', ?_⟩, List.forall_mem_cons.2 ⟨hbooked, hbooked'⟩⟩
    rw [outstandingOn_cons, outstandingOn_cons, SackChunk.withdrawnOn, ← hnext]
    linear_combination hsum + hsum'

theorem moves_reportMissing (b : Bool) (highest : ℕ) (r : Sender × Bool) (hn : n.Booked L) :
    Moves d ((reportMissing c b highest r n).2.outstandingOn d - n.outstandingOn d) 0 r.1
      (reportMissing c b highest r n).1.1 ∧ (reportMissing c b highest r n).2.Booked L := by
  unfold reportMissing
  dsimp only
  split_ifs with hmissing hmark
  · have hun : n.Unacked := ⟨hmissing.1, hmark.2.2⟩
    have hbooked := booked_markChunkForRtx (s := r.1)
      (n := { n with numMissingReports := n.numMissingReports + 1 }) .fastRtx hn.dest hun
    refine ⟨?_, hbooked.dest, hbooked.unacked⟩
    exact moves_markChunkForRtx (n := { n with numMissingReports := n.numMissingReports + 1 }) .fastRtx hun
  · exact ⟨Moves.rfl.cast (sub_self _).symm rfl, hn.dest, hn.unacked⟩
  · exact ⟨Moves.rfl.cast (sub_self _).symm rfl, hn⟩

theorem chunk_gapStep (b : Bool) (g : GapScan) (n : SendBufferNode) :
    (gapStep k b g n).2.chunk = n.chunk := by
  unfold gapStep withdrawGapAck gapAckNode
  dsimp only
  split_ifs <;> rfl

theorem chunk_reportMissing (b : Bool) (highest : ℕ) (r : Sender × Bool) (n : SendBufferNode) :
    (reportMissing c b highest r n).2.chunk = n.chunk := by
  unfold reportMissing markChunkForRtx
  dsimp only
  split_ifs <;> rfl

theorem processGapAckBlocks_cases (c : Config) (k : SackChunk) (b : Bool)
    (hl : ∀ n ∈ s.sendBuffer, n.Booked L) : ∃ u l,
    (s.processGapAckBlocks c k b).1 = { u with sendBuffer := l } ∧ (∀ n ∈ l, n.Booked L) ∧
      l.map (·.chunk) = s.sendBuffer.map (·.chunk) ∧
      ∀ d, ∃ δ ε, Moves d δ ε s u ∧ δ - ε = outstandingOn d l - outstandingOn d s.sendBuffer +
        k.withdrawnOn d 0 s.sendBuffer := by
  unfold processGapAckBlocks
  split_ifs with hnil
  · refine ⟨s, s.sendBuffer, rfl, hl, rfl, fun d => ⟨0, 0, Moves.rfl, ?_⟩⟩
    rw [hnil]
    rfl
  · have hclear : Quiet s (s.withDests fun x => { x with firstOutstanding := none }) :=
      quiet_withDests (fun _ => rfl) fun _ => rfl
    dsimp only
    generalize (s.withDests fun x => { x with firstOutstanding := none }) = t at hclear
    have hscan (d : ℕ) := mapAccum_gapStep (d := d) (k := k) b hl ⟨t, 0, t.highestTsnNewlyAcked⟩
    have hchunks := map_mapAccum (s := ⟨t, 0, t.highestTsnNewlyAcked⟩) (l := s.sendBuffer)
      (chunk_gapStep (k := k) b)
    generalize mapAccum (gapStep k b) ⟨t, 0, t.highestTsnNewlyAcked⟩ s.sendBuffer = r at hscan hchunks
    have hreport (d : ℕ) : Moves d _ 0 r.1.sender _ := moves_mapAccum (b := Prod.fst)
      (J := SendBufferNode.Booked L) (w := SendBufferNode.outstandingOn d) (x := (r.1.sender, false))
      (fun x n hn => (moves_reportMissing (c := c) b r.1.highestTsnSacked x hn).1) (hscan 0).2
    have hbooked := (mapAccum_keeps (I := fun _ => True) (J := SendBufferNode.Booked L)
      (K := SendBufferNode.Booked L) (s := (r.1.sender, false)) (fun x n _ hn => ⟨trivial,
        (moves_reportMissing (c := c) (d := 0) b r.1.highestTsnSacked x hn).2⟩) trivial
      (hscan 0).2).2
    refine ⟨_, _, rfl, hbooked, (map_mapAccum (chunk_reportMissing b _)).trans hchunks, fun d => ?_⟩
    obtain ⟨δ, ε, hmoves, hsum⟩ := (hscan d).1
    refine ⟨_, _, (hclear.then_moves hmoves).trans (hreport d), ?_⟩
    change δ + (outstandingOn d _ - outstandingOn d _) - (ε + 0) = _
    linear_combination hsum

/-- The books in the middle of a SACK: the newly acked bytes still count as outstanding. -/
structure Unsettled (L : List ℕ) (δ : ℕ → ℤ) (s : Sender) : Prop extends Wired L s where
  unsettled : ∀ d ∈ L, (s.dest d).outstandingBytes - (s.dest d).numNewlyAckedBytes =
    outstandingOn d s.sendBuffer + δ d

end

section

variable {L : List ℕ} {δ : ℕ → ℤ} {d : ℕ} {s t u : Sender} {c : Config} {k : SackChunk}
variable {η : ℕ → ℤ} {fast : Bool}

theorem Unsettled.of_moves {l : List SendBufferNode} (h : Unsettled L δ s)
    (hl : ∀ n ∈ l, n.Booked L)
    (hm : ∀ d, ∃ a b, Moves d a b s t ∧
      a - b = outstandingOn d l - outstandingOn d s.sendBuffer + η d) :
    Unsettled L (fun d => δ d + η d) { t with sendBuffer := l } where
  toWired := by
    obtain ⟨a, b, hmoves, -⟩ := hm 0
    exact (h.toWired.frame hmoves.toFrame).withBuffer hl
  unsettled d hd := by
    obtain ⟨a, b, hmoves, hsum⟩ := hm d
    change (t.dest d).outstandingBytes - (t.dest d).numNewlyAckedBytes = outstandingOn d l + _
    rw [hmoves.outstanding, hmoves.newlyAcked]
    linear_combination h.unsettled d hd + hsum

/-- The chunks that a SACK scans for its gap ack blocks. -/
def scanned (k : SackChunk) (s : Sender) : List SendBufferNode :=
  if s.cumAckPoint < k.cumAck then chunksAbove k.cumAck s.sendBuffer else s.sendBuffer

/-- The bytes on `d` that a SACK counts too much from now on. -/
def withdrawn (k : SackChunk) (s : Sender) (d : ℕ) : ℤ :=
  if k.numGapAckBlocks ≠ 0 then k.withdrawnOn d 0 (s.scanned k) else 0

theorem Unsettled.dequeue (h : Unsettled L δ s) (hle : s.cumAckPoint < k.cumAck) :
    Unsettled L δ (s.sendBufferDequeueUpTo k.cumAck) ∧
      (s.sendBufferDequeueUpTo k.cumAck).sendBuffer = s.scanned k := by
  obtain ⟨u, hmoves, hloop⟩ :=
    dequeueLoop_cases k.cumAck s.sendBuffer { s with assocErrorCount := 0 }
  unfold sendBufferDequeueUpTo scanned
  rw [hloop, if_pos hle]
  refine ⟨?_, rfl⟩
  have hcount : Unsettled L δ { s with assocErrorCount := 0 } := ⟨⟨h.nodup, h.destList,
    h.primaryDest, h.newTxDest, h.booked⟩, h.unsettled⟩
  have hout := hcount.of_moves (η := fun _ => 0) (l := chunksAbove k.cumAck s.sendBuffer)
    (fun n hn => h.booked n (chunksAbove_subset _ _ hn)) fun d => ⟨_, _, hmoves d, by ring⟩
  exact ⟨hout.toWired, fun d hd => (hout.unsettled d hd).trans (by rw [add_zero])⟩

theorem Unsettled.processGapAckBlocks (b : Bool) (h : Unsettled L δ s)
    (hη : ∀ d, η d = k.withdrawnOn d 0 s.sendBuffer) :
    Unsettled L (fun d => δ d + η d) (s.processGapAckBlocks c k b).1 := by
  obtain ⟨u, l, hgap, hl, -, hmoves⟩ := processGapAckBlocks_cases c k b h.booked
  rw [hgap]
  refine h.of_moves hl fun d => ?_
  rw [hη]
  exact hmoves d

theorem Books.ackChunks (h : Books L δ s) :
    Unsettled L (fun d => δ d + withdrawn k s d) (s.ackChunks c k).1 := by
  have hfresh (d : ℕ) := dest_withDests (d := d) (s := s) (f := fun x =>
    { x with numNewlyAckedBytes := 0, firstOutstanding := none }) (h.destList ▸ h.nodup)
  obtain ⟨g, hg⟩ := withDests_frame (s := s) fun x =>
    { x with numNewlyAckedBytes := 0, firstOutstanding := none }
  unfold Sender.ackChunks
  dsimp only
  generalize (s.withDests fun x => { x with numNewlyAckedBytes := 0, firstOutstanding := none }) = t
    at hfresh hg
  have hstart : Unsettled L δ t := by
    subst hg
    refine ⟨⟨h.nodup, h.destList, h.primaryDest, h.newTxDest, h.booked⟩, fun d hd => ?_⟩
    rw [hfresh d, if_pos (h.destList ▸ hd)]
    exact (sub_zero _).trans (h.outstanding d hd)
  have hscanned : t.scanned k = s.scanned k := by rw [hg]; rfl
  have hdequeue : ∃ u, (if decide (t.cumAckPoint < k.cumAck) then
      { t.sendBufferDequeueUpTo k.cumAck with cumAckPoint := k.cumAck } else t) = u ∧
        Unsettled L δ u ∧ u.sendBuffer = t.scanned k := by
    refine ⟨_, rfl, ?_⟩
    by_cases hle : t.cumAckPoint < k.cumAck
    · obtain ⟨hout, hbuffer⟩ := hstart.dequeue hle
      rw [if_pos (decide_eq_true hle)]
      exact ⟨⟨⟨hout.nodup, hout.destList, hout.primaryDest, hout.newTxDest, hout.booked⟩,
        hout.unsettled⟩, hbuffer⟩
    · rw [if_neg (by simpa using hle)]
      exact ⟨hstart, (if_neg hle).symm⟩
  obtain ⟨u, hu, hout, hbuffer⟩ := hdequeue
  rw [hu]
  by_cases hgap : k.numGapAckBlocks ≠ 0
  · rw [if_pos hgap]
    refine hout.processGapAckBlocks _ fun d => ?_
    rw [withdrawn, if_pos hgap, hbuffer, hscanned]
  · rw [if_neg hgap]
    refine ⟨hout.toWired, fun d hd => ?_⟩
    rw [hout.unsettled d hd, withdrawn, if_neg hgap, add_zero]

theorem adjustCwnd_bytes (x : Dest) : (adjustCwnd c x).outstandingBytes = x.outstandingBytes ∧
    (adjustCwnd c x).numNewlyAckedBytes = x.numNewlyAckedBytes := by
  unfold adjustCwnd
  split_ifs <;> exact ⟨rfl, rfl⟩

theorem settleDest_outstandingBytes (b : Bool) (recover : ℕ) (x : Dest) :
    (settleDest c k b recover x).outstandingBytes =
      if x.numNewlyAckedBytes ≤ x.outstandingBytes then x.outstandingBytes - x.numNewlyAckedBytes
      else 0 := by
  have hcwnd : ∃ y, (if b ∧ 0 < x.numNewlyAckedBytes ∧ recover ≤ k.cumAck then adjustCwnd c x
      else x) = y ∧ y.outstandingBytes = x.outstandingBytes ∧
        y.numNewlyAckedBytes = x.numNewlyAckedBytes := by
    refine ⟨_, rfl, ?_⟩
    split_ifs
    · exact adjustCwnd_bytes x
    · exact ⟨rfl, rfl⟩
  obtain ⟨y, hy, hout, hnewly⟩ := hcwnd
  unfold settleDest
  rw [hy, ← hout, ← hnewly]
  dsimp only
  split_ifs <;> rfl

/-- The clamp is not taken where the bytes counted too much are not negative, and the books are
closed again. -/
theorem Unsettled.settle (b : Bool) (recover : ℕ) (h : Unsettled L δ s) (hδ : ∀ d ∈ L, 0 ≤ δ d) :
    (∀ d ∈ L, (s.dest d).numNewlyAckedBytes ≤ (s.dest d).outstandingBytes) ∧
      Books L δ (s.withDests (settleDest c k b recover)) := by
  have hclamp : ∀ d ∈ L, (s.dest d).numNewlyAckedBytes ≤ (s.dest d).outstandingBytes := by
    intro d hd
    have hsum := h.unsettled d hd
    have hnonneg := outstandingOn_nonneg d s.sendBuffer
    have := hδ d hd
    omega
  have hdest (d : ℕ) := dest_withDests (d := d) (s := s) (f := settleDest c k b recover)
    (h.destList ▸ h.nodup)
  obtain ⟨g, hg⟩ := withDests_frame (s := s) (settleDest c k b recover)
  refine ⟨hclamp, ?_, fun d hd => ?_⟩
  · rw [hg]
    exact ⟨h.nodup, h.destList, h.primaryDest, h.newTxDest, h.booked⟩
  · rw [hdest, if_pos (h.destList ▸ hd), settleDest_outstandingBytes, if_pos (hclamp d hd), hg]
    exact h.unsettled d hd

theorem Books.of_eq (h : Books L δ s) (hl : t.destList = s.destList)
    (hb : t.sendBuffer = s.sendBuffer) (hp : t.primaryDest = s.primaryDest)
    (hn : t.newTxDest = s.newTxDest) (hd : t.dest = s.dest) : Books L δ t where
  toWired := ⟨h.nodup, hl.trans h.destList, hp ▸ h.primaryDest, hn ▸ h.newTxDest, hb ▸ h.booked⟩
  outstanding d hdL := by rw [hd, hb, h.outstanding d hdL]

theorem rtxForSack_cases {r : Option Sender} (h : s.rtxForSack c fast = r) : ∃ u, Quiet s u ∧
    ((∃ limit, (limit = .cwnd → u.anyMarkedChunks = true) ∧ u.rtxMarkedChunks c limit = r) ∨
      r = some u) := by
  unfold rtxForSack at h
  have hpending : Quiet s { s with markedChunksPending := s.anyMarkedChunks } :=
    ⟨⟨rfl, rfl, rfl, .inl rfl, rfl, rfl, rfl⟩, fun _ => rfl, fun _ => rfl, rfl, rfl⟩
  dsimp only at h
  split_ifs at h with _ hany
  · obtain ⟨u, hu, hrtx⟩ := fastRtx_cases h
    exact ⟨u, hu, hrtx.imp_left fun h => ⟨.onePacket, nofun, h⟩⟩
  · exact ⟨_, hpending, .inl ⟨_, fun _ => hany, h⟩⟩
  · exact ⟨_, hpending, .inr h.symm⟩

theorem Books.rtxForSack (h : Books L δ s) (ht : s.rtxForSack c fast = some t) : Books L δ t := by
  obtain ⟨u, hu, ⟨limit, -, hrtx⟩ | hrtx⟩ := rtxForSack_cases ht
  · exact (h.quiet hu).rtxMarkedChunks hrtx
  · exact Option.some.inj hrtx ▸ h.quiet hu

/-- A SACK that is not stale takes no clamp, and adds what it withdraws to what is counted too
much. -/
theorem Books.processSackChunk (h : Books L δ s) (hδ : ∀ d ∈ L, 0 ≤ δ d)
    (hcum : s.cumAckPoint ≤ k.cumAck) :
    (∀ d ∈ L, ((s.ackChunks c k).1.dest d).numNewlyAckedBytes ≤
        ((s.ackChunks c k).1.dest d).outstandingBytes) ∧
      ∀ t, s.processSackChunk c k = some t → Books L (fun d => δ d + withdrawn k s d) t := by
  have hδ' : ∀ d ∈ L, 0 ≤ δ d + withdrawn k s d := by
    intro d hd
    refine add_nonneg (hδ d hd) ?_
    unfold withdrawn
    split_ifs
    · exact SackChunk.withdrawnOn_nonneg d k 0 _
    · exact le_rfl
  obtain ⟨hclamp, hsettled⟩ := (h.ackChunks (c := c) (k := k)).settle (c := c) (k := k)
    (decide (s.cumAckPoint < k.cumAck)) (s.ackChunks c k).1.recover hδ'
  refine ⟨hclamp, fun t ht => ?_⟩
  unfold Sender.processSackChunk at ht
  rw [if_neg (not_lt.2 hcum)] at ht
  obtain ⟨w, hw, rfl⟩ := Option.map_eq_some_iff.1 ht
  have hadvanced := hsettled.of_eq (t := advancePeerAckPoint _) rfl rfl rfl rfl rfl
  exact (hadvanced.rtxForSack hw).of_eq rfl rfl rfl rfl rfl

end

end Sender

end Ns2.Sctp
