import Ns2.Sctp.SenderEvents
import Mathlib.Algebra.Order.BigOperators.Group.List
import Mathlib.Tactic.Ring

/-! The outstanding bytes of the destinations against the chunks in the send buffer: what each
function of the sender moves, and that new data and retransmissions keep the two in step. -/

namespace Ns2.Sctp

open List Option

namespace SendBufferNode

/-- The bytes that a chunk has outstanding on `d`. -/
def outstandingOn (d : ℕ) (n : SendBufferNode) : ℤ :=
  if n.dest = d ∧ n.Unacked then n.chunk.length else 0

/-- The same while a marked chunk counts as not outstanding. -/
def unmarkedOn (d : ℕ) (n : SendBufferNode) : ℤ :=
  if n.markedForRtx = .noRtx then n.outstandingOn d else 0

/-- A chunk on one of the destinations `L`, and marked only while it is unacked. -/
structure Booked (L : List ℕ) (n : SendBufferNode) : Prop where
  dest : n.dest ∈ L
  unacked : n.markedForRtx ≠ .noRtx → n.Unacked

theorem outstandingOn_nonneg (d : ℕ) (n : SendBufferNode) : 0 ≤ n.outstandingOn d := by
  unfold outstandingOn
  split_ifs <;> omega

end SendBufferNode

/-- The bytes of the chunks on `d` that are neither gap acked nor given up. -/
def outstandingOn (d : ℕ) (l : List SendBufferNode) : ℤ := (l.map (·.outstandingOn d)).sum

theorem outstandingOn_nonneg (d : ℕ) (l : List SendBufferNode) : 0 ≤ outstandingOn d l := by
  refine sum_nonneg fun x hx => ?_
  obtain ⟨n, -, rfl⟩ := mem_map.1 hx
  exact n.outstandingOn_nonneg d

@[simp] theorem outstandingOn_cons (d : ℕ) (n : SendBufferNode) (l : List SendBufferNode) :
    outstandingOn d (n :: l) = n.outstandingOn d + outstandingOn d l := rfl

theorem outstandingOn_append (d : ℕ) (l l' : List SendBufferNode) :
    outstandingOn d (l ++ l') = outstandingOn d l + outstandingOn d l' := by
  rw [outstandingOn, map_append, sum_append]
  rfl

/-- The bytes that are outstanding on `d` while marked chunks do not count. -/
def unmarkedOn (d : ℕ) (l : List SendBufferNode) : ℤ := (l.map (·.unmarkedOn d)).sum

@[simp] theorem unmarkedOn_cons (d : ℕ) (n : SendBufferNode) (l : List SendBufferNode) :
    unmarkedOn d (n :: l) = n.unmarkedOn d + unmarkedOn d l := rfl

theorem unmarkedOn_append (d : ℕ) (l l' : List SendBufferNode) :
    unmarkedOn d (l ++ l') = unmarkedOn d l + unmarkedOn d l' := by
  rw [unmarkedOn, map_append, sum_append]
  rfl

namespace Sender

/-- The destinations, the send buffer and the messages stay. New data may go to the primary destination again. -/
structure Frame (s t : Sender) : Prop where
  destList : t.destList = s.destList
  sendBuffer : t.sendBuffer = s.sendBuffer
  primaryDest : t.primaryDest = s.primaryDest
  newTxDest : t.newTxDest = s.newTxDest ∨ t.newTxDest = s.primaryDest
  dataSource : t.dataSource = s.dataSource
  numOutStreams : t.numOutStreams = s.numOutStreams
  appLayerBuffer : t.appLayerBuffer = s.appLayerBuffer

/-- The outstanding bytes of `d` grow by `δ`, and the newly acked ones by `ε`. -/
structure Moves (d : ℕ) (δ ε : ℤ) (s t : Sender) : Prop extends Frame s t where
  outstanding : (t.dest d).outstandingBytes = (s.dest d).outstandingBytes + δ
  newlyAcked : (t.dest d).numNewlyAckedBytes = (s.dest d).numNewlyAckedBytes + ε

/-- Nothing of this moves, nothing is sent and the window of the peer stays. -/
structure Quiet (s t : Sender) : Prop extends Frame s t where
  outstanding : ∀ d, (t.dest d).outstandingBytes = (s.dest d).outstandingBytes
  newlyAcked : ∀ d, (t.dest d).numNewlyAckedBytes = (s.dest d).numNewlyAckedBytes
  peerRwnd : t.peerRwnd = s.peerRwnd
  sent : t.sent = s.sent

section

variable {L : List ℕ} {d e : ℕ} {δ δ' ε ε' : ℤ} {s t u : Sender} {n : SendBufferNode} {c : Config}
variable {f : Dest → Dest} {l : List SendBufferNode} {rtxDest : Option ℕ} {fuel : ℕ}
variable {limit : RtxLimit} {l' : List SendBufferNode} {packets : ℕ}

theorem Frame.trans (h : Frame s t) (h' : Frame t u) : Frame s u where
  destList := h'.destList.trans h.destList
  sendBuffer := h'.sendBuffer.trans h.sendBuffer
  primaryDest := h'.primaryDest.trans h.primaryDest
  newTxDest := by
    rcases h'.newTxDest with hn | hn
    · rw [hn]
      exact h.newTxDest
    · exact .inr (hn.trans h.primaryDest)
  dataSource := h'.dataSource.trans h.dataSource
  numOutStreams := h'.numOutStreams.trans h.numOutStreams
  appLayerBuffer := h'.appLayerBuffer.trans h.appLayerBuffer

theorem Moves.trans (h : Moves d δ ε s t) (h' : Moves d δ' ε' t u) :
    Moves d (δ + δ') (ε + ε') s u where
  toFrame := h.toFrame.trans h'.toFrame
  outstanding := by rw [h'.outstanding, h.outstanding, add_assoc]
  newlyAcked := by rw [h'.newlyAcked, h.newlyAcked, add_assoc]

theorem Moves.cast (h : Moves d δ ε s t) (hδ : δ = δ') (hε : ε = ε') : Moves d δ' ε' s t := by
  subst hδ hε
  exact h

theorem Moves.of_eq (hl : t.destList = s.destList) (hb : t.sendBuffer = s.sendBuffer)
    (hp : t.primaryDest = s.primaryDest) (hn : t.newTxDest = s.newTxDest) (hd : t.dest = s.dest)
    (hs : t.dataSource = s.dataSource) (ho : t.numOutStreams = s.numOutStreams)
    (ha : t.appLayerBuffer = s.appLayerBuffer) : Moves d 0 0 s t :=
  ⟨⟨hl, hb, hp, .inl hn, hs, ho, ha⟩, by rw [hd, add_zero], by rw [hd, add_zero]⟩

theorem Moves.rfl : Moves d 0 0 s s :=
  .of_eq (.refl _) (.refl _) (.refl _) (.refl _) (.refl _) (.refl _) (.refl _) (.refl _)

theorem Quiet.rfl : Quiet s s :=
  ⟨⟨.refl _, .refl _, .refl _, .inl (.refl _), .refl _, .refl _, .refl _⟩, fun _ => .refl _,
    fun _ => .refl _, .refl _, .refl _⟩

theorem Quiet.trans (h : Quiet s t) (h' : Quiet t u) : Quiet s u where
  toFrame := h.toFrame.trans h'.toFrame
  outstanding d := (h'.outstanding d).trans (h.outstanding d)
  newlyAcked d := (h'.newlyAcked d).trans (h.newlyAcked d)
  peerRwnd := h'.peerRwnd.trans h.peerRwnd
  sent := h'.sent.trans h.sent

theorem Quiet.of_burst {b : Bool} {k : ℕ} :
    Quiet s { s with applyMaxBurst := b, burstLength := k } :=
  ⟨⟨.refl _, .refl _, .refl _, .inl (.refl _), .refl _, .refl _, .refl _⟩, fun _ => .refl _,
    fun _ => .refl _, .refl _, .refl _⟩

theorem Quiet.moves (h : Quiet s t) : Moves d 0 0 s t :=
  ⟨h.toFrame, by rw [h.outstanding, add_zero], by rw [h.newlyAcked, add_zero]⟩

theorem Moves.quiet (h : Moves d δ ε s t) (h' : Quiet t u) : Moves d δ ε s u :=
  (h.trans h'.moves).cast (add_zero δ) (add_zero ε)

theorem Quiet.then_moves (h : Quiet s t) (h' : Moves d δ ε t u) : Moves d δ ε s u :=
  (h.moves.trans h').cast (zero_add δ) (zero_add ε)

@[simp] theorem dest_withDest (f : Dest → Dest) :
    (s.withDest e f).dest d = if d = e then f (s.dest e) else s.dest d := Function.update_apply ..

theorem moves_withDest (hδ : (f (s.dest e)).outstandingBytes = (s.dest e).outstandingBytes + δ)
    (hε : (f (s.dest e)).numNewlyAckedBytes = (s.dest e).numNewlyAckedBytes + ε) :
    Moves d (if e = d then δ else 0) (if e = d then ε else 0) s (s.withDest e f) := by
  refine ⟨⟨rfl, rfl, rfl, .inl rfl, rfl, rfl, rfl⟩, ?_, ?_⟩
  all_goals
    rw [dest_withDest]
    by_cases hd : d = e
    · subst hd
      simp only [if_pos, hδ, hε]
    · rw [if_neg hd, if_neg (Ne.symm hd), add_zero]

theorem quiet_withDest (hδ : (f (s.dest e)).outstandingBytes = (s.dest e).outstandingBytes)
    (hε : (f (s.dest e)).numNewlyAckedBytes = (s.dest e).numNewlyAckedBytes) :
    Quiet s (s.withDest e f) := by
  refine ⟨⟨rfl, rfl, rfl, .inl rfl, rfl, rfl, rfl⟩, fun d => ?_, fun d => ?_, rfl, rfl⟩
  all_goals
    rw [dest_withDest]
    split_ifs with hd
    · subst hd
      assumption
    · rfl

theorem quiet_startT3RtxTimer : Quiet s (s.startT3RtxTimer e) := quiet_withDest rfl rfl

theorem quiet_stopT3RtxTimer : Quiet s (s.stopT3RtxTimer e) := quiet_withDest rfl rfl

theorem quiet_ensureT3RtxTimer : Quiet s (s.ensureT3RtxTimer e) := by
  unfold ensureT3RtxTimer
  split_ifs
  · exact Quiet.rfl
  · exact quiet_startT3RtxTimer

theorem moves_addOutstanding :
    Moves d (if e = d then δ else 0) 0 s (s.addOutstanding e δ) :=
  (moves_withDest rfl (add_zero _).symm).cast rfl (ite_self 0)

theorem quiet_foldl {α : Type*} {f : Sender → α → Sender} (h : ∀ s a, Quiet s (f s a)) (l : List α) :
    Quiet s (l.foldl f s) := by
  induction l generalizing s with
  | nil => exact Quiet.rfl
  | cons a l ih => exact (h s a).trans ih

theorem quiet_withDests (hδ : ∀ x, (f x).outstandingBytes = x.outstandingBytes)
    (hε : ∀ x, (f x).numNewlyAckedBytes = x.numNewlyAckedBytes) : Quiet s (s.withDests f) :=
  quiet_foldl (fun _ _ => quiet_withDest (hδ _) (hε _)) s.destList

theorem withDests_frame (f : Dest → Dest) : ∃ g, s.withDests f = { s with dest := g } := by
  have hloop (l : List ℕ) (s : Sender) :
      ∃ g, l.foldl (fun s d => s.withDest d f) s = { s with dest := g } := by
    induction l generalizing s with
    | nil => exact ⟨s.dest, rfl⟩
    | cons e l ih => exact ih (s.withDest e f)
  exact hloop s.destList s

theorem dest_withDests (hl : s.destList.Nodup) :
    (s.withDests f).dest d = if d ∈ s.destList then f (s.dest d) else s.dest d := by
  have hloop (l : List ℕ) (hl : l.Nodup) (s : Sender) :
      (l.foldl (fun s d => s.withDest d f) s).dest d = if d ∈ l then f (s.dest d) else s.dest d := by
    induction l generalizing s with
    | nil => rfl
    | cons e l ih =>
      rw [nodup_cons] at hl
      rw [foldl_cons, ih hl.2, dest_withDest]
      by_cases hd : d = e
      · subst hd
        rw [if_neg hl.1, if_pos rfl, if_pos mem_cons_self]
      · rw [if_neg hd]
        simp only [mem_cons, hd, false_or]
  exact hloop s.destList hl s

theorem moves_mapAccum {σ : Type*} {b : σ → Sender} {f : σ → SendBufferNode → σ × SendBufferNode}
    {w : SendBufferNode → ℤ} {J : SendBufferNode → Prop} {x : σ}
    (h : ∀ x n, J n → Moves d (w (f x n).2 - w n) 0 (b x) (b (f x n).1)) (hl : ∀ n ∈ l, J n) :
    Moves d (((mapAccum f x l).2.map w).sum - (l.map w).sum) 0 (b x) (b (mapAccum f x l).1) := by
  induction l generalizing x with
  | nil => exact Moves.rfl
  | cons n l ih =>
    rw [forall_mem_cons] at hl
    rw [mapAccum_cons, map_cons, map_cons, sum_cons, sum_cons]
    refine ((h x n hl.1).trans (ih hl.2)).cast ?_ (add_zero 0)
    ring

theorem quiet_noteFirstOutstanding : Quiet s (s.noteFirstOutstanding n) := by
  unfold noteFirstOutstanding
  split_ifs
  · exact quiet_withDest rfl rfl
  · exact Quiet.rfl

theorem quiet_restartForAbandoned : Quiet s (s.restartForAbandoned n) := by
  unfold restartForAbandoned
  split_ifs
  · exact quiet_startT3RtxTimer
  · exact quiet_stopT3RtxTimer
  · exact Quiet.rfl

theorem quiet_restartForRtx : Quiet s (s.restartForRtx e n) := by
  have hnote (u : Sender) : Quiet u ((u.withDest e fun x =>
      { x with firstOutstanding := some n.chunk.tsn }).startT3RtxTimer e) :=
    Quiet.trans (quiet_withDest rfl rfl) quiet_startT3RtxTimer
  unfold restartForRtx
  dsimp only
  split_ifs
  · exact quiet_startT3RtxTimer.trans (hnote _)
  · exact quiet_startT3RtxTimer
  · exact hnote s
  · exact Quiet.rfl

theorem quiet_clearErrorCount : Quiet s (s.clearErrorCount n) := by
  have hclear : Quiet s (s.withDest n.dest fun x =>
      { x with errorCount := 0, status := .active }) := quiet_withDest rfl rfl
  unfold clearErrorCount
  dsimp only
  split_ifs
  · exact hclear.trans ⟨⟨rfl, rfl, rfl, .inr rfl, rfl, rfl, rfl⟩, fun _ => rfl, fun _ => rfl, rfl, rfl⟩
  · exact hclear
  · exact Quiet.rfl

theorem quiet_cutCwnd : Quiet s (s.cutCwnd c n) := by
  have hcut : Quiet s (s.withDest n.dest (cutDest c)) := quiet_withDest rfl rfl
  unfold cutCwnd
  split_ifs
  · exact hcut.trans ⟨⟨rfl, rfl, rfl, .inl rfl, rfl, rfl, rfl⟩, fun _ => rfl, fun _ => rfl, rfl, rfl⟩
  · exact Quiet.rfl

theorem outstandingOn_of_unacked (h : n.Unacked) :
    n.outstandingOn d = if n.dest = d then (n.chunk.length : ℤ) else 0 := by
  unfold SendBufferNode.outstandingOn
  simp only [h, and_true]

theorem outstandingOn_of_not_unacked (h : ¬ n.Unacked) : n.outstandingOn d = 0 :=
  if_neg fun hn => h hn.2

theorem moves_markChunkForRtx (m : MarkedForRtx) (hn : n.Unacked) :
    Moves d ((s.markChunkForRtx m n).2.outstandingOn d - n.outstandingOn d) 0 s
      (s.markChunkForRtx m n).1 := by
  have hcredit : Moves d 0 0 s (s.creditPeerRwnd n.chunk.length) :=
    .of_eq rfl rfl rfl rfl rfl rfl rfl rfl
  unfold markChunkForRtx
  dsimp only
  split_ifs
  · -- the chunk is given up
    rw [outstandingOn_of_not_unacked (n := { n with advancedAcked := true, markedForRtx := .noRtx })
      fun h => Bool.noConfusion h.2, outstandingOn_of_unacked hn]
    refine ((hcredit.trans moves_addOutstanding).cast (zero_add _) (add_zero 0)).cast ?_ rfl
    split_ifs <;> omega
  · exact Moves.cast (.of_eq rfl rfl rfl rfl rfl rfl rfl rfl) (sub_self _).symm rfl

theorem booked_markChunkForRtx (m : MarkedForRtx) (hd : n.dest ∈ L) (hn : n.Unacked) :
    (s.markChunkForRtx m n).2.Booked L := by
  unfold markChunkForRtx
  dsimp only
  split_ifs
  · exact ⟨hd, fun h => absurd rfl h⟩
  · exact ⟨hd, fun _ => hn⟩

theorem unmarkedOn_of_marked (h : n.markedForRtx ≠ .noRtx) : n.unmarkedOn d = 0 := if_neg h

theorem unmarkedOn_of_noRtx (h : n.markedForRtx = .noRtx) : n.unmarkedOn d = n.outstandingOn d :=
  if_pos h

theorem moves_countMarked (sign : ℤ) (hn : n.Booked L) :
    Moves d (sign * (n.outstandingOn d - n.unmarkedOn d)) 0 s (countMarked sign s n) := by
  unfold countMarked
  split_ifs with hm
  · rw [unmarkedOn_of_marked hm, outstandingOn_of_unacked (hn.unacked hm)]
    refine moves_addOutstanding.cast ?_ rfl
    split_ifs <;> ring
  · rw [unmarkedOn_of_noRtx (not_not.1 hm), sub_self, mul_zero]
    exact Moves.rfl

theorem moves_foldl_countMarked (sign : ℤ) (hl : ∀ n ∈ l, n.Booked L) :
    Moves d (sign * (outstandingOn d l - unmarkedOn d l)) 0 s (l.foldl (countMarked sign) s) := by
  induction l generalizing s with
  | nil => exact Moves.rfl.cast (mul_zero sign).symm rfl
  | cons n l ih =>
    rw [forall_mem_cons] at hl
    refine ((moves_countMarked sign hl.1).trans (ih hl.2)).cast ?_ (add_zero 0)
    rw [outstandingOn_cons, unmarkedOn_cons]
    ring

theorem moves_rtxChunk (hn : n.Booked L) (hm : n.markedForRtx ≠ .noRtx) :
    Moves d ((s.rtxChunk e n).2.unmarkedOn d - n.unmarkedOn d) 0 s (s.rtxChunk e n).1 := by
  have hun : (s.rtxChunk e n).2.Unacked := hn.unacked hm
  rw [unmarkedOn_of_marked hm, unmarkedOn_of_noRtx rfl, outstandingOn_of_unacked hun, sub_zero]
  have hsent : Moves d 0 0 s { s.restartForRtx e n with
      sent := (s.restartForRtx e n).sent ++ [⟨n.chunk, e, true, n.chunk.length,
        (s.restartForRtx e n).peerRwnd, (s.restartForRtx e n).totalOutstanding⟩] } :=
    quiet_restartForRtx.then_moves (.of_eq rfl rfl rfl rfl rfl rfl rfl rfl)
  have hbooked := hsent.trans (moves_addOutstanding (e := e) (δ := n.chunk.length))
  have hdebit := hbooked.trans (u := (s.rtxChunk e n).1)
    (.of_eq rfl rfl rfl rfl rfl rfl rfl rfl)
  exact hdebit.cast ((add_zero _).trans (zero_add _)) rfl

theorem booked_rtxChunk (he : e ∈ L) (hn : n.Booked L) (hm : n.markedForRtx ≠ .noRtx) :
    (s.rtxChunk e n).2.Booked L :=
  ⟨he, fun _ => hn.unacked hm⟩

theorem moves_rtxPacket {passed rest : List SendBufferNode} {size size' : ℕ}
    (hL : ∀ e ∈ rtxDest, e ∈ L) (hl : ∀ n ∈ l, n.Booked L)
    (h : rtxPacket c rtxDest s size l = some (t, size', passed, rest)) :
    Moves d (unmarkedOn d (passed ++ rest) - unmarkedOn d l) 0 s t ∧
      ∀ n ∈ passed ++ rest, n.Booked L := by
  induction l generalizing s size passed with
  | nil =>
    simp only [rtxPacket, some.injEq, Prod.mk.injEq] at h
    obtain ⟨rfl, -, rfl, rfl⟩ := h
    exact ⟨Moves.rfl, hl⟩
  | cons n l ih =>
    have hfirst : Quiet s (s.noteFirstOutstanding n) := quiet_noteFirstOutstanding
    obtain ⟨hn, hl'⟩ := forall_mem_cons.1 hl
    rw [rtxPacket] at h
    dsimp only at h
    split_ifs at h with hm hfit
    · -- the chunk does not fit
      simp only [some.injEq, Prod.mk.injEq] at h
      obtain ⟨rfl, -, rfl, rfl⟩ := h
      exact ⟨hfirst.moves.cast (sub_self _).symm rfl, hl⟩
    · obtain ⟨e, he, h⟩ := bind_eq_some_iff.1 h
      obtain ⟨⟨u, size₁, passed₁, rest₁⟩, hrest, h⟩ := bind_eq_some_iff.1 h
      simp only [some.injEq, Prod.mk.injEq] at h
      obtain ⟨rfl, rfl, rfl, rfl⟩ := h
      obtain ⟨hmoves, hbooked⟩ := ih hl' hrest
      have hchunk := moves_rtxChunk (d := d) (e := e) (s := s.noteFirstOutstanding n) hn hm
      refine ⟨((hfirst.then_moves hchunk).trans hmoves).cast ?_ rfl, ?_⟩
      · rw [cons_append, unmarkedOn_cons, unmarkedOn_cons]
        ring
      · exact forall_mem_cons.2 ⟨booked_rtxChunk (hL e he) hn hm, hbooked⟩
    · obtain ⟨⟨u, size₁, passed₁, rest₁⟩, hrest, h⟩ := bind_eq_some_iff.1 h
      simp only [some.injEq, Prod.mk.injEq] at h
      obtain ⟨rfl, rfl, rfl, rfl⟩ := h
      obtain ⟨hmoves, hbooked⟩ := ih hl' hrest
      refine ⟨((hfirst.trans quiet_restartForAbandoned).then_moves hmoves).cast ?_ rfl, ?_⟩
      · rw [cons_append, unmarkedOn_cons, unmarkedOn_cons]
        ring
      · exact forall_mem_cons.2 ⟨hn, hbooked⟩

theorem rtxPackets_cases (h : rtxPackets c limit rtxDest (fuel + 1) s packets l = some (t, l')) :
    (t = s ∧ l' = l ∧ (l = [] ∨ mayRtx limit rtxDest s packets = some false)) ∨
      ∃ u v size passed rest, rtxPacket c rtxDest s 0 l = some (u, size, passed, rest) ∧
        Quiet u v ∧ mayRtx limit rtxDest s packets = some true ∧
        ((0 < size ∧ t = v ∧ l' = passed ++ rest) ∨ ∃ rest', l' = passed ++ rest' ∧
          rtxPackets c limit rtxDest fuel v (if 0 < size then packets + 1 else packets) rest =
            some (t, rest')) := by
  rw [rtxPackets] at h
  split_ifs at h with hnil
  · simp only [some.injEq, Prod.mk.injEq] at h
    exact .inl ⟨h.1.symm, h.2.symm.trans hnil.symm, .inl hnil⟩
  · obtain ⟨may, hmay, h⟩ := bind_eq_some_iff.1 h
    dsimp only at h
    split_ifs at h with hm
    · subst hm
      obtain ⟨⟨u, size, passed, rest⟩, hpacket, h⟩ := bind_eq_some_iff.1 h
      dsimp only at h
      split_ifs at h with hsize
      · obtain ⟨e, -, h⟩ := bind_eq_some_iff.1 h
        have hstart : Quiet u (u.ensureT3RtxTimer e) := quiet_ensureT3RtxTimer
        generalize u.ensureT3RtxTimer e = v at h hstart
        split_ifs at h with hstop hburst
        · simp only [some.injEq, Prod.mk.injEq] at h
          obtain ⟨rfl, rfl⟩ := h
          exact .inr ⟨u, _, size, passed, rest, hpacket, hstart.trans .of_burst, hmay,
            .inl ⟨hsize, rfl, rfl⟩⟩
        · obtain ⟨⟨w, rest'⟩, hrec, h⟩ := bind_eq_some_iff.1 h
          simp only [some.injEq, Prod.mk.injEq] at h
          exact .inr ⟨u, _, size, passed, rest, hpacket, hstart.trans .of_burst, hmay,
            .inr ⟨rest', h.2.symm, by rw [if_pos hsize, hrec, h.1]⟩⟩
        · obtain ⟨⟨w, rest'⟩, hrec, h⟩ := bind_eq_some_iff.1 h
          simp only [some.injEq, Prod.mk.injEq] at h
          exact .inr ⟨u, v, size, passed, rest, hpacket, hstart, hmay,
            .inr ⟨rest', h.2.symm, by rw [if_pos hsize, hrec, h.1]⟩⟩
      · obtain ⟨⟨v, rest'⟩, hrec, h⟩ := bind_eq_some_iff.1 h
        simp only [some.injEq, Prod.mk.injEq] at h
        exact .inr ⟨u, u, size, passed, rest, hpacket, Quiet.rfl, hmay,
          .inr ⟨rest', h.2.symm, by rw [if_neg hsize, hrec, h.1]⟩⟩
    · simp only [some.injEq, Prod.mk.injEq] at h
      exact .inl ⟨h.1.symm, h.2.symm, .inr (hmay.trans (congrArg some (Bool.not_eq_true may ▸ hm)))⟩

theorem moves_rtxPackets (hL : ∀ e ∈ rtxDest, e ∈ L) (hl : ∀ n ∈ l, n.Booked L)
    (h : rtxPackets c limit rtxDest fuel s packets l = some (t, l')) :
    Moves d (unmarkedOn d l' - unmarkedOn d l) 0 s t ∧ ∀ n ∈ l', n.Booked L := by
  induction fuel generalizing s packets l l' with
  | zero => exact absurd h (some_ne_none _).symm
  | succ fuel ih =>
    rcases rtxPackets_cases h with ⟨rfl, rfl, -⟩ | ⟨u, v, size, passed, rest, hpacket, hq, -, hrest⟩
    · exact ⟨Moves.rfl.cast (sub_self _).symm rfl, hl⟩
    · obtain ⟨hmoves, hbooked⟩ := moves_rtxPacket (d := d) hL hl hpacket
      rcases hrest with ⟨-, rfl, rfl⟩ | ⟨rest', rfl, hrec⟩
      · exact ⟨hmoves.quiet hq, hbooked⟩
      · rw [forall_mem_append] at hbooked
        obtain ⟨hmoves', hbooked'⟩ := ih hbooked.2 hrec
        refine ⟨((hmoves.quiet hq).trans hmoves').cast ?_ rfl,
          forall_mem_append.2 ⟨hbooked.1, hbooked'⟩⟩
        rw [unmarkedOn_append, unmarkedOn_append]
        ring

theorem nextInList_mem {l : List ℕ} (h : d ∈ l) : nextInList l d ∈ l := by
  have hhead : l.headD d ∈ l := by
    cases l with
    | nil => exact absurd h not_mem_nil
    | cons a l => exact mem_cons_self
  unfold nextInList
  split
  · rename_i a e l' heq
    have hsub : a :: e :: l' ⊆ l := heq ▸ (dropWhile_sublist _).subset
    exact hsub (mem_cons_of_mem a mem_cons_self)
  · exact hhead

theorem nextActive_mem (h : e ∈ s.destList) : s.nextActive d fuel e ∈ s.destList := by
  induction fuel generalizing e with
  | zero => exact h
  | succ fuel ih =>
    rw [nextActive]
    split_ifs
    · exact ih (nextInList_mem h)
    · exact nextInList_mem h

theorem getNextDest_mem (hp : s.primaryDest ∈ s.destList) (h : s.getNextDest c d = some e) :
    e ∈ s.destList := by
  unfold getNextDest at h
  split_ifs at h with hd
  have hnext : s.nextActive d s.destList.length d ∈ s.destList := nextActive_mem hd
  dsimp only at h
  generalize s.nextActive d s.destList.length d = e' at h hnext
  cases ha : c.dormantAction
  all_goals
    simp only [ha] at h
    split_ifs at h
    all_goals
      obtain rfl := some.inj h
      first | exact hnext | exact hp | exact nextInList_mem hnext

theorem chooseRtxDest_mem (hp : s.primaryDest ∈ s.destList) (hn : n.dest ∈ s.destList)
    (h : s.chooseRtxDest c n = some e) : e ∈ s.destList := by
  unfold chooseRtxDest at h
  split at h
  · split_ifs at h
    · exact some.inj h ▸ hn
    · exact getNextDest_mem hp h
  · exact getNextDest_mem hp h
  · split_ifs at h
    · exact some.inj h ▸ hn
    · exact getNextDest_mem hp h

end

/-- The destinations of a sender are `L`, and its chunks go to them. -/
structure Wired (L : List ℕ) (s : Sender) : Prop where
  nodup : L.Nodup
  destList : s.destList = L
  primaryDest : s.primaryDest ∈ L
  newTxDest : s.newTxDest ∈ L
  booked : ∀ n ∈ s.sendBuffer, n.Booked L

/-- The outstanding bytes are those of the chunks in the send buffer, but for `δ d` bytes of a
destination `d` that are counted too much. -/
structure Books (L : List ℕ) (δ : ℕ → ℤ) (s : Sender) : Prop extends Wired L s where
  outstanding : ∀ d ∈ L, (s.dest d).outstandingBytes = outstandingOn d s.sendBuffer + δ d

section

variable {L : List ℕ} {δ : ℕ → ℤ} {d : ℕ} {s t u : Sender} {c : Config}
variable {size : ℕ}
variable {limit : RtxLimit} {I : Sender → Prop}

theorem Wired.frame (h : Wired L s) (hf : Frame s t) : Wired L t where
  nodup := h.nodup
  destList := hf.destList.trans h.destList
  primaryDest := hf.primaryDest ▸ h.primaryDest
  newTxDest := by
    rcases hf.newTxDest with hn | hn
    · exact hn ▸ h.newTxDest
    · exact hn ▸ h.primaryDest
  booked := hf.sendBuffer ▸ h.booked

theorem Wired.withBuffer {l : List SendBufferNode} (h : Wired L s) (hl : ∀ n ∈ l, n.Booked L) :
    Wired L { s with sendBuffer := l } :=
  ⟨h.nodup, h.destList, h.primaryDest, h.newTxDest, hl⟩

theorem Books.quiet (h : Books L δ s) (hq : Quiet s t) : Books L δ t where
  toWired := h.toWired.frame hq.toFrame
  outstanding d hd := by rw [hq.outstanding, hq.sendBuffer, h.outstanding d hd]

/-- A loop over the send buffer that moves what it changes of the chunks, in part after the new
buffer is there. -/
theorem Books.of_moves {a b : ℕ → ℤ} {l : List SendBufferNode} (h : Books L δ s)
    (hs : ∀ d, Moves d (a d) 0 s t) (ht : ∀ d, Moves d (b d) 0 { t with sendBuffer := l } u)
    (hl : ∀ n ∈ l, n.Booked L)
    (hsum : ∀ d, a d + b d = outstandingOn d l - outstandingOn d s.sendBuffer) : Books L δ u where
  toWired := ((h.toWired.frame (hs 0).toFrame).withBuffer hl).frame (ht 0).toFrame
  outstanding d hd := by
    rw [(ht d).sendBuffer, (ht d).outstanding]
    change (t.dest d).outstandingBytes + b d = _
    rw [(hs d).outstanding, h.outstanding d hd, add_assoc, hsum]
    ring

theorem quiet_clearFirst : Quiet s ({ s with burstLength := 0 }.withDests fun x =>
    { x with firstOutstanding := none }) :=
  Quiet.of_burst.trans (quiet_withDests (fun _ => rfl) fun _ => rfl)

theorem rtxMarkedChunks_cases (h : s.rtxMarkedChunks c limit = some t) :
    ∃ u v rtxDest l, Quiet s u ∧
      (∀ e ∈ rtxDest, ∃ n ∈ s.sendBuffer, u.chooseRtxDest c n = some e) ∧
      rtxPackets c limit rtxDest (s.sendBuffer.length + 1) (s.sendBuffer.foldl (countMarked (-1)) u) 0
        s.sendBuffer = some (v, l) ∧
      Quiet (l.foldl (countMarked 1) { v with sendBuffer := l }) t := by
  have hclear := quiet_clearFirst (s := s)
  unfold rtxMarkedChunks at h
  dsimp only at h
  generalize ({ s with burstLength := 0 }.withDests fun x => { x with firstOutstanding := none }) = u
    at h hclear
  obtain ⟨rtxDest, hdest, h⟩ := bind_eq_some_iff.1 h
  obtain ⟨⟨v, l⟩, hpackets, h⟩ := bind_eq_some_iff.1 h
  obtain rfl := some.inj h
  refine ⟨u, v, rtxDest, l, hclear, fun e he => ?_, hpackets,
    ⟨rfl, rfl, rfl, .inl rfl, rfl, rfl, rfl⟩, fun _ => rfl, fun _ => rfl, rfl, rfl⟩
  obtain rfl : rtxDest = some e := he
  unfold findRtxDest at hdest
  split at hdest
  · exact absurd hdest (by simp)
  · rename_i n hn
    obtain ⟨e', hchoose, heq⟩ := map_eq_some_iff.1 hdest
    obtain rfl := some.inj heq
    exact ⟨n, hclear.sendBuffer ▸ mem_of_find?_eq_some hn, hchoose⟩

/-- Retransmissions keep the books: what is taken off for the marked chunks before is put back for
those that are marked still, and the others were booked when they were sent. -/
theorem Books.rtxMarkedChunks (h : Books L δ s) (ht : s.rtxMarkedChunks c limit = some t) :
    Books L δ t := by
  obtain ⟨u, v, rtxDest, l, hu, hdest, hpackets, ht⟩ := rtxMarkedChunks_cases ht
  have hbu := h.quiet hu
  have hL : ∀ e ∈ rtxDest, e ∈ L := by
    intro e he
    obtain ⟨n, hn, hchoose⟩ := hdest e he
    have hn' : n.dest ∈ u.destList := hbu.destList.symm ▸ (h.booked n hn).dest
    exact hbu.destList ▸ chooseRtxDest_mem (hbu.destList.symm ▸ hbu.primaryDest) hn' hchoose
  have hoff (d : ℕ) := moves_foldl_countMarked (d := d) (s := u) (-1) h.booked
  have hsent (d : ℕ) := moves_rtxPackets (d := d) hL h.booked hpackets
  have hback (d : ℕ) := moves_foldl_countMarked (d := d) (s := { v with sendBuffer := l }) 1
    (hsent 0).2
  refine (hbu.of_moves (fun d => (hoff d).trans (hsent d).1) hback (hsent 0).2 fun d => ?_).quiet ht
  rw [hu.sendBuffer]
  ring

theorem fastRtx_cases {r : Option Sender} (h : s.fastRtx c = r) : ∃ u, Quiet s u ∧
    (u.rtxMarkedChunks c .onePacket = r ∨ r = some u) := by
  have hcc : Quiet s (s.withDests fun x => { x with ccApplied := false }) :=
    quiet_withDests (fun _ => rfl) fun _ => rfl
  unfold Sender.fastRtx at h
  dsimp only at h
  generalize (s.withDests fun x => { x with ccApplied := false }) = u at h hcc
  have hcut : Quiet s (u.sendBuffer.foldl (cutCwnd c) u) :=
    hcc.trans (quiet_foldl (fun s n => quiet_cutCwnd) u.sendBuffer)
  split_ifs at h
  · exact ⟨_, hcut, .inl h⟩
  · exact ⟨_, hcut, .inr h.symm⟩

theorem Books.timedOut (h : Books L δ s) (d : ℕ) :
    Frame s (mapAccum (markForTimeout d) s s.sendBuffer).1 ∧
      Books L δ { (mapAccum (markForTimeout d) s s.sendBuffer).1 with
        sendBuffer := (mapAccum (markForTimeout d) s s.sendBuffer).2 } := by
  have hmoves (e : ℕ) : Moves e
      (outstandingOn e (mapAccum (markForTimeout d) s s.sendBuffer).2 -
        outstandingOn e s.sendBuffer) 0 s (mapAccum (markForTimeout d) s s.sendBuffer).1 := by
    refine moves_mapAccum (b := id) (J := fun _ => True) (fun s n _ => ?_) fun _ _ => trivial
    unfold markForTimeout
    split_ifs with hn
    · exact moves_markChunkForRtx .timeoutRtx hn.2
    · exact Moves.rfl.cast (sub_self _).symm rfl
  have hbooked := (mapAccum_keeps (f := markForTimeout d) (I := fun _ => True) (s := s)
    (J := fun n => n.Booked L) (K := fun n => n.Booked L) (fun s n _ hn => ⟨trivial, by
      unfold markForTimeout
      split_ifs with hu
      · exact ⟨(booked_markChunkForRtx (s := s) .timeoutRtx hn.dest hu.2).dest,
          (booked_markChunkForRtx (s := s) .timeoutRtx hn.dest hu.2).unacked⟩
      · exact hn⟩) trivial h.booked).2
  exact ⟨(hmoves 0).toFrame, h.of_moves (b := fun _ => 0) hmoves (fun _ => Moves.rfl) hbooked
    fun _ => add_zero _⟩

theorem Books.timeoutRtx (h : Books L δ s) (ht : s.timeoutRtx c d = some t) : Books L δ t := by
  have hmark := (h.timedOut d).2
  unfold Sender.timeoutRtx at ht
  dsimp only at ht
  split_ifs at ht
  · exact hmark.rtxMarkedChunks ht
  · exact some.inj ht ▸ hmark

theorem countStreamSeqNum_frame (i : ℕ) (b : Bool) :
    ∃ o, s.countStreamSeqNum i b = { s with outStreams := o } := by
  unfold countStreamSeqNum
  split_ifs
  · exact ⟨s.outStreams, rfl⟩
  · exact ⟨_, rfl⟩

theorem le_pad (n : ℕ) : n ≤ pad n := by
  unfold pad
  split_ifs <;> omega

theorem genDataChunk_frame {chunk : DataChunk} (h : s.genDataChunk c = some (t, chunk, size)) :
    size = s.nextDataChunkSize c ∧
      (chunk.length ≤ size ∧
        (s.dataSource = .infinite → chunk.length = c.dataChunkSize % 2 ^ 16)) ∧
      ∃ k i o, t = { s with nextTsn := k, nextStreamId := i, outStreams := o } := by
  unfold genDataChunk at h
  split at h
  · exact absurd h (by simp)
  · rename_i m l hs ha
    obtain ⟨rfl, h'⟩ := Prod.mk.inj (some.inj h)
    obtain ⟨rfl, rfl⟩ := Prod.mk.inj h'
    obtain ⟨o, ho⟩ := countStreamSeqNum_frame (s := { s with nextTsn := s.nextTsn + 1 }) m.streamId
      m.unordered
    exact ⟨by simp only [nextDataChunkSize, hs, ha],
      ⟨(Nat.mod_le _ _).trans (le_pad _), fun hinf => by simp [hinf] at hs⟩,
      s.nextTsn + 1, s.nextStreamId, o, ho⟩
  · rename_i hs
    split_ifs at h
    obtain ⟨rfl, h'⟩ := Prod.mk.inj (some.inj h)
    obtain ⟨rfl, rfl⟩ := Prod.mk.inj h'
    obtain ⟨o, ho⟩ := countStreamSeqNum_frame (s := { s with
      nextTsn := s.nextTsn + 1, nextStreamId := (s.nextStreamId + 1) % 2 ^ 16 })
      (s.nextStreamId % s.numOutStreams) c.unordered
    exact ⟨by simp only [nextDataChunkSize, hs], ⟨(Nat.mod_le _ _).trans (le_pad _), fun _ => rfl⟩,
      s.nextTsn + 1, (s.nextStreamId + 1) % 2 ^ 16, o, ho⟩

theorem deleteMessage_frame : ∃ l, s.deleteMessage = { s with appLayerBuffer := l } ∧
    l = if s.dataSource = .application then s.appLayerBuffer.tail else s.appLayerBuffer := by
  unfold deleteMessage
  split
  · next hs => exact ⟨_, rfl, by rw [if_pos hs]⟩
  · next hs => exact ⟨s.appLayerBuffer, rfl, by rw [hs]; rfl⟩

/-- What a new chunk of `size` bytes brings. -/
structure NewData (c : Config) (s t : Sender) (size : ℕ) (n : SendBufferNode) : Prop where
  destList : t.destList = s.destList
  primaryDest : t.primaryDest = s.primaryDest
  newTxDest : t.newTxDest = s.newTxDest
  dest : n.dest = s.newTxDest
  unacked : n.Unacked
  noRtx : n.markedForRtx = .noRtx
  sendBuffer : t.sendBuffer = s.sendBuffer ++ [n]
  outstanding : ∀ d, (t.dest d).outstandingBytes = (s.dest d).outstandingBytes + n.outstandingOn d
  size_eq : size = s.nextDataChunkSize c
  peerRwnd : t.peerRwnd = if s.peerRwnd < 2 ^ 31 ∧ size ≤ s.peerRwnd then s.peerRwnd - size else 0
  sent : t.sent = s.sent ++
    [⟨n.chunk, s.newTxDest, false, size, s.peerRwnd, s.totalOutstanding⟩]
  length : n.chunk.length ≤ size ∧
    (s.dataSource = .infinite → n.chunk.length = c.dataChunkSize % 2 ^ 16)
  dataSource : t.dataSource = s.dataSource
  numOutStreams : t.numOutStreams = s.numOutStreams
  appLayerBuffer : t.appLayerBuffer =
    if s.dataSource = .application then s.appLayerBuffer.tail else s.appLayerBuffer

theorem NewData.ensureT3RtxTimer {n : SendBufferNode} (h : NewData c s t size n) :
    NewData c s (t.ensureT3RtxTimer d) size n := by
  unfold Sender.ensureT3RtxTimer
  split_ifs
  · exact h
  · exact ⟨h.destList, h.primaryDest, h.newTxDest, h.dest, h.unacked, h.noRtx, h.sendBuffer,
      fun e => (quiet_startT3RtxTimer.outstanding e).trans (h.outstanding e), h.size_eq, h.peerRwnd,
      h.sent, h.length, h.dataSource, h.numOutStreams, h.appLayerBuffer⟩

theorem newData_of_genOneDataChunk (h : s.genOneDataChunk c = some (t, size)) :
    ∃ n, NewData c s t size n := by
  unfold genOneDataChunk at h
  obtain ⟨⟨u, chunk, size'⟩, hgen, heq⟩ := map_eq_some_iff.1 h
  obtain ⟨hsize, hlength, k, i, o, rfl⟩ := genDataChunk_frame hgen
  obtain ⟨rfl, rfl⟩ := Prod.mk.inj heq
  clear h hgen
  obtain ⟨l, hl, happ⟩ := deleteMessage_frame (s := addToSendBuffer chunk (s.nextReliability c) s.newTxDest
    { s with
      nextTsn := k, nextStreamId := i, outStreams := o
      sent := s.sent ++ [⟨chunk, s.newTxDest, false, size', s.peerRwnd, s.totalOutstanding⟩] })
  have hbytes (d : ℕ) := (moves_addOutstanding (d := d) (s := s) (e := s.newTxDest)
    (δ := chunk.length)).outstanding
  refine ⟨⟨chunk, false, false, false, 0, s.nextReliability c, .noRtx, false, 1, s.newTxDest⟩, ?_⟩
  rw [hl]
  refine NewData.ensureT3RtxTimer ?_
  refine ⟨rfl, rfl, rfl, rfl, ⟨rfl, rfl⟩, rfl, rfl, fun d => ?_, hsize, rfl, rfl, hlength, rfl, rfl,
    happ⟩
  rw [outstandingOn_of_unacked ⟨rfl, rfl⟩]
  exact hbytes d

theorem Books.newData {n : SendBufferNode} (h : Books L δ s) (hn : NewData c s t size n) :
    Books L δ t where
  nodup := h.nodup
  destList := hn.destList.trans h.destList
  primaryDest := hn.primaryDest ▸ h.primaryDest
  newTxDest := hn.newTxDest ▸ h.newTxDest
  booked := by
    rw [hn.sendBuffer]
    refine forall_mem_append.2 ⟨h.booked, forall_mem_singleton.2 ⟨?_, ?_⟩⟩
    · exact hn.dest ▸ h.newTxDest
    · exact fun _ => hn.unacked
  outstanding d hd := by
    rw [hn.outstanding, hn.sendBuffer, h.outstanding d hd, outstandingOn_append, outstandingOn_cons]
    simp only [outstandingOn, map_nil, sum_nil]
    ring

/-- What the generation of new data keeps. A new chunk fits the window of the peer, or it is a
probe. -/
theorem genMultipleDataChunks_keeps
    (hgen : ∀ s t size n, I s → (size ≤ s.peerRwnd ∨ s.totalOutstanding = 0) →
      NewData c s t size n → I t) {fuel : ℕ} (h : I s)
    (ht : genMultipleDataChunks c fuel s size = some t) : I t := by
  induction fuel generalizing s size with
  | zero => exact absurd ht (some_ne_none _).symm
  | succ fuel ih =>
    rw [genMultipleDataChunks] at ht
    split_ifs at ht with hfits
    · obtain ⟨⟨u, k⟩, hone, ht⟩ := bind_eq_some_iff.1 ht
      obtain ⟨n, hn⟩ := newData_of_genOneDataChunk hone
      exact ih (hgen s u k n h (.inl (hn.size_eq ▸ hfits.2.1)) hn) ht
    · exact some.inj ht ▸ h

theorem sendMuch_keeps (hburst : ∀ s t, I s → Quiet s t → I t)
    (hgen : ∀ s t size n, I s → (size ≤ s.peerRwnd ∨ s.totalOutstanding = 0) →
      NewData c s t size n → I t) (h : I s) (ht : s.sendMuch c = some t) : I t := by
  have hloop (fuel : ℕ) (s t : Sender) (h : I s) (ht : sendMuchLoop c fuel s = some t) : I t := by
    induction fuel generalizing s with
    | zero => exact absurd ht (some_ne_none _).symm
    | succ fuel ih =>
      rw [sendMuchLoop] at ht
      split_ifs at ht with hmore hfits hmaxBurst hmax hprobe
      · exact some.inj ht ▸ hburst s _ h .of_burst
      · obtain ⟨u, hu, ht⟩ := bind_eq_some_iff.1 ht
        exact ih u (genMultipleDataChunks_keeps hgen (hburst s _ h .of_burst) hu) ht
      · obtain ⟨u, hu, ht⟩ := bind_eq_some_iff.1 ht
        exact ih u (genMultipleDataChunks_keeps hgen h hu) ht
      · obtain ⟨⟨u, k⟩, hone, ht⟩ := bind_eq_some_iff.1 ht
        obtain ⟨n, hn⟩ := newData_of_genOneDataChunk hone
        exact ih u (hgen s u k n h (.inr hprobe) hn) ht
      · exact some.inj ht ▸ h
      · exact some.inj ht ▸ h
  unfold sendMuch at ht
  obtain ⟨u, hu, rfl⟩ := map_eq_some_iff.1 ht
  exact hburst u _ (hloop _ s u h hu) .of_burst

theorem Books.sendMuch (h : Books L δ s) (ht : s.sendMuch c = some t) : Books L δ t :=
  sendMuch_keeps (fun _ _ h hq => h.quiet hq) (fun _ _ _ _ h _ hn => h.newData hn) h ht

end

end Sender

end Ns2.Sctp
