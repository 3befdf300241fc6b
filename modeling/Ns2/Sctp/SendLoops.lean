import Ns2.Sctp.OutstandingBytes

/-! The loops that send new data and retransmissions end while every chunk, with its padding, fits a
packet. -/

namespace Ns2.Sctp

open List Option

/-- What `Reset` checks. -/
structure Config.Accepted (c : Config) : Prop where
  min : dataChunkHdrSize ≤ c.dataChunkSize
  max : c.dataChunkSize ≤ c.maxDataSize
  payload : c.maxDataSize ≤ c.maxPayloadSize

namespace Sender

variable {rtxDest : Option ℕ} {limit : RtxLimit}

/-- The chunks in the packets of the loop of `SendMuch`. -/
def sendMuchPackets (c : Config) : ℕ → Sender → Option (List (List Sent))
  | 0, _ => none
  | fuel + 1, s =>
    let packet (t : Sender) := (sendMuchPackets c fuel t).map (t.sent.drop s.sent.length :: ·)
    if (s.dest s.newTxDest).outstandingBytes < (s.dest s.newTxDest).cwnd ∧ s.HasData then
      if s.nextDataChunkSize c ≤ s.peerRwnd then
        if c.useMaxBurst ∧ s.applyMaxBurst then
          if maxBurst ≤ s.burstLength then some []
          else
            (genMultipleDataChunks c (c.maxDataSize + 1)
              { s with burstLength := s.burstLength + 1 } 0).bind packet
        else (genMultipleDataChunks c (c.maxDataSize + 1) s 0).bind packet
      else if s.totalOutstanding = 0 then (s.genOneDataChunk c).bind fun (t, _) => packet t
      else some []
    else some []

/-- The loop of `SendMuch` comes back after less than `fuel` turns, and every packet has a chunk and
fits. -/
def SendsIn (c : Config) (fuel : ℕ) (s : Sender) : Prop :=
  ∃ t ps, sendMuchLoop c fuel s = some t ∧ sendMuchPackets c fuel s = some ps ∧
    ∀ p ∈ ps, p ≠ [] ∧ (p.map Sent.size).sum ≤ c.maxPayloadSize

/-- `SendMuch` and `RtxMarkedChunks` come back. With the limit `cwnd` there are marked chunks. -/
def LoopsEnd (c : Config) (s : Sender) : Prop :=
  (∃ fuel, s.SendsIn c fuel) ∧
    ∀ limit, (limit = .cwnd → s.anyMarkedChunks = true) → (s.rtxMarkedChunks c limit).isSome

/-- What waits to be sent fits a packet with its padding, and so does what may be sent again. -/
structure Stocked (c : Config) (s : Sender) : Prop where
  app : ∀ m ∈ s.appLayerBuffer, pad (m.numBytes + dataChunkHdrSize) ≤ c.maxDataSize
  infinite : s.dataSource = .infinite →
    0 < s.numOutStreams ∧ pad c.dataChunkSize ≤ c.maxDataSize ∧ c.dataChunkSize % 2 ^ 16 ≠ 0
  buffer : ∀ n ∈ s.sendBuffer, n.chunk.length ≤ c.maxPayloadSize

/-- What bounds the turns of the loop of `SendMuch`. -/
def supply (s : Sender) : ℕ := s.peerRwnd + s.appLayerBuffer.length

variable {L : List ℕ} {c : Config} {s t : Sender} {d fuel : ℕ} {f : Dest → Dest}
  {l : List SendBufferNode} {k : SackChunk}

theorem pad_mono {m n : ℕ} (h : m ≤ n) : pad m ≤ pad n := by
  unfold pad
  split_ifs <;> omega

theorem min_le_nextDataChunkSize (hc : c.Accepted) (hdata : s.HasData) :
    dataChunkHdrSize ≤ s.nextDataChunkSize c := by
  rw [nextDataChunkSize]
  refine le_trans ?_ (le_pad _)
  split
  · next hs hl =>
    rcases hdata with h | h
    · rw [hs] at h
      cases h
    · exact absurd hl h
  · exact Nat.le_add_left _ _
  · exact hc.min

theorem nextDataChunkSize_le (h : s.Stocked c) : s.nextDataChunkSize c ≤ c.maxDataSize := by
  rw [nextDataChunkSize]
  split
  · exact Nat.zero_le _
  · next m _ _ hl => exact h.app m (hl ▸ mem_cons_self)
  · next hs => exact (h.infinite hs).2.1

theorem exists_genOneDataChunk (h : s.Stocked c) (hdata : s.HasData) :
    ∃ t n, s.genOneDataChunk c = some (t, s.nextDataChunkSize c) ∧
      NewData c s t (s.nextDataChunkSize c) n := by
  obtain ⟨⟨t, k⟩, hone⟩ : ∃ r, s.genOneDataChunk c = some r := by
    refine isSome_iff_exists.1 ?_
    rw [genOneDataChunk, isSome_map, genDataChunk]
    split
    · next hs hl =>
      rcases hdata with hinf | hne
      · rw [hs] at hinf
        cases hinf
      · exact absurd hl hne
    · rfl
    · next hs => rw [if_neg (h.infinite hs).1.ne', isSome_some]
  obtain ⟨n, hn⟩ := newData_of_genOneDataChunk hone
  exact ⟨t, n, hn.size_eq ▸ hone, hn.size_eq ▸ hn⟩

variable {n : SendBufferNode} {size : ℕ}

theorem Stocked.newData (hc : c.Accepted) (h : s.Stocked c) (hn : NewData c s t size n) :
    t.Stocked c where
  app m hm := by
    rw [hn.appLayerBuffer] at hm
    split_ifs at hm
    · exact h.app m (mem_of_mem_tail hm)
    · exact h.app m hm
  infinite ht := by
    rw [hn.numOutStreams]
    exact h.infinite (hn.dataSource ▸ ht)
  buffer := by
    rw [hn.sendBuffer]
    refine forall_mem_append.2 ⟨h.buffer, forall_mem_singleton.2 ?_⟩
    exact (hn.length.1.trans (hn.size_eq ▸ nextDataChunkSize_le h)).trans hc.payload

/-- One chunk takes from the window or from the messages. -/
theorem supply_newData (hc : c.Accepted) (hdata : s.HasData) (hn : NewData c s t size n) :
    t.supply ≤ s.supply ∧ (0 < s.peerRwnd ∨ s.dataSource = .application → t.supply < s.supply) := by
  have hmin : 0 < size := hn.size_eq ▸ (min_le_nextDataChunkSize hc hdata).trans_lt' (by decide)
  have hrwnd : t.peerRwnd ≤ s.peerRwnd ∧ (0 < s.peerRwnd → t.peerRwnd < s.peerRwnd) := by
    rw [hn.peerRwnd]
    split_ifs <;> omega
  rw [supply, supply, hn.appLayerBuffer]
  cases hs : s.dataSource with
  | infinite =>
    simp only [reduceCtorEq, if_false, or_false]
    omega
  | application =>
    have hne : s.appLayerBuffer ≠ [] := hdata.resolve_left (by simp [hs])
    have := length_pos_iff.2 hne
    rw [if_pos rfl, length_tail]
    omega

/-- The chunks of one packet. -/
theorem exists_genMultipleDataChunks (hc : c.Accepted) (fuel : ℕ) (hsize : size ≤ c.maxDataSize)
    (hfuel : c.maxDataSize < fuel + size) (h : s.Stocked c) :
    ∃ t l, genMultipleDataChunks c fuel s size = some t ∧ t.Stocked c ∧ t.supply ≤ s.supply ∧
      t.sent = s.sent ++ l ∧ size + (l.map Sent.size).sum ≤ c.maxDataSize ∧
      (size + s.nextDataChunkSize c ≤ c.maxDataSize ∧ s.nextDataChunkSize c ≤ s.peerRwnd ∧
        s.HasData → l ≠ [] ∧ t.supply < s.supply) := by
  induction fuel generalizing s size with
  | zero => omega
  | succ fuel ih =>
    rw [genMultipleDataChunks]
    by_cases hfits : size + s.nextDataChunkSize c ≤ c.maxDataSize ∧
        s.nextDataChunkSize c ≤ s.peerRwnd ∧ s.HasData
    · obtain ⟨u, n, hone, hn⟩ := exists_genOneDataChunk h hfits.2.2
      have hmin := min_le_nextDataChunkSize hc hfits.2.2
      have hpos : 0 < s.nextDataChunkSize c := hmin.trans_lt' (by decide)
      obtain ⟨t, l, ht, hstock, hle, hsent, hsum, -⟩ :=
        ih hfits.1 (by omega) (h.newData hc hn)
      have hless := (supply_newData hc hfits.2.2 hn).2 (.inl (hpos.trans_le hfits.2.1))
      obtain ⟨r, hr, hrsize⟩ : ∃ r : Sent, u.sent = s.sent ++ [r] ∧ r.size = s.nextDataChunkSize c :=
        ⟨_, hn.sent, rfl⟩
      refine ⟨t, r :: l, ?_, hstock, by omega, ?_, ?_, fun _ => ⟨cons_ne_nil _ _, by omega⟩⟩
      · rw [if_pos hfits, hone]
        exact ht
      · rw [hsent, hr, append_assoc]
        rfl
      · rw [map_cons, sum_cons, hrsize]
        omega
    · refine ⟨s, [], by rw [if_neg hfits], h, le_rfl, (append_nil _).symm, hsize, fun hf => ?_⟩
      exact absurd hf hfits

/-- After a probe something is outstanding. -/
theorem totalOutstanding_newData (hnodup : s.destList.Nodup) (hnew : s.newTxDest ∈ s.destList)
    (hn : NewData c s t size n) (hpos : 0 < n.chunk.length) (hlt : n.chunk.length < 2 ^ 16)
    (hzero : s.totalOutstanding = 0) : t.totalOutstanding ≠ 0 := by
  have hsum : ∀ l : List ℕ, l.Nodup → (l.map fun d => (t.dest d).outstandingBytes).sum =
      (l.map fun d => (s.dest d).outstandingBytes).sum +
        if s.newTxDest ∈ l then (n.chunk.length : ℤ) else 0 := by
    intro l hl
    induction l with
    | nil => rfl
    | cons d l ih =>
      obtain ⟨hd, hl⟩ := nodup_cons.1 hl
      rw [map_cons, map_cons, sum_cons, sum_cons, ih hl, hn.outstanding,
        SendBufferNode.outstandingOn, hn.dest]
      by_cases heq : s.newTxDest = d
      · simp only [heq, hd, hn.unacked, if_true, if_false, and_self, mem_cons_self]
        ring
      · simp only [heq, if_false, false_and, mem_cons, false_or]
        ring
  have := hsum s.destList hnodup
  rw [if_pos hnew] at this
  unfold totalOutstanding at hzero ⊢
  rw [hn.destList, this]
  omega

theorem Wired.books (h : Wired L s) :
    Books L (fun d => (s.dest d).outstandingBytes - outstandingOn d s.sendBuffer) s :=
  ⟨h, fun _ _ => (add_sub_cancel _ _).symm⟩

/-- Every turn with room in the window takes from the supply, and a probe is the last turn or takes a
message. -/
theorem sendsIn (hc : c.Accepted) (hfuel : s.supply + 2 ≤ fuel) (h : s.Stocked c) (hw : Wired L s) :
    s.SendsIn c fuel := by
  induction fuel generalizing s with
  | zero => omega
  | succ fuel ih =>
    have hturn : ∀ u l, u.sent = s.sent ++ l → l ≠ [] → (l.map Sent.size).sum ≤ c.maxDataSize →
        u.SendsIn c fuel → ∃ t ps, sendMuchLoop c fuel u = some t ∧
          (sendMuchPackets c fuel u).map (u.sent.drop s.sent.length :: ·) = some ps ∧
          ∀ p ∈ ps, p ≠ [] ∧ (p.map Sent.size).sum ≤ c.maxPayloadSize := by
      rintro u l hsent hne hsum ⟨t, ps, ht, hps, hfit⟩
      refine ⟨t, l :: ps, ht, ?_, forall_mem_cons.2 ⟨⟨hne, hsum.trans hc.payload⟩, hfit⟩⟩
      rw [hps, hsent, drop_left]
      rfl
    have hpacket : ∀ v : Sender, Quiet s v → v.Stocked c → v.supply = s.supply →
        v.nextDataChunkSize c ≤ v.peerRwnd → v.HasData →
        ∃ u l, genMultipleDataChunks c (c.maxDataSize + 1) v 0 = some u ∧ u.sent = s.sent ++ l ∧
          l ≠ [] ∧ (l.map Sent.size).sum ≤ c.maxDataSize ∧ u.SendsIn c fuel := by
      intro v hq hstock hsupply hnext hdata
      obtain ⟨u, l, hu, hustock, -, hsent, hsum, hmore⟩ := exists_genMultipleDataChunks hc
        (c.maxDataSize + 1) (Nat.zero_le _) (by omega) hstock
      obtain ⟨hne, hless⟩ := hmore ⟨by rw [zero_add]; exact nextDataChunkSize_le hstock, hnext, hdata⟩
      have hwired : Wired L u := genMultipleDataChunks_keeps (I := Wired L)
        (fun _ _ _ _ h _ hn => (h.books.newData hn).toWired) (hw.books.quiet hq).toWired hu
      exact ⟨u, l, hu, hq.sent ▸ hsent, hne, by omega, ih (by omega) hustock hwired⟩
    rw [SendsIn, sendMuchLoop, sendMuchPackets]
    dsimp only
    split_ifs with hmore hnext hburst hmax hprobe
    · exact ⟨_, [], rfl, rfl, by simp⟩
    · obtain ⟨u, l, hu, hsent, hne, hsum, hrest⟩ := hpacket
        { s with burstLength := s.burstLength + 1 } .of_burst ⟨h.app, h.infinite, h.buffer⟩ rfl
        hnext hmore.2
      rw [hu]
      exact hturn u l hsent hne hsum hrest
    · obtain ⟨u, l, hu, hsent, hne, hsum, hrest⟩ := hpacket s .rfl h rfl hnext hmore.2
      rw [hu]
      exact hturn u l hsent hne hsum hrest
    · obtain ⟨u, n, hone, hn⟩ := exists_genOneDataChunk h hmore.2
      rw [hone]
      refine hturn u _ hn.sent (cons_ne_nil _ _) (by simpa using nextDataChunkSize_le h) ?_
      cases hs : s.dataSource with
      | application =>
        have := (supply_newData hc hmore.2 hn).2 (.inr hs)
        exact ih (by omega) (h.newData hc hn) (hw.books.newData hn).toWired
      | infinite =>
        -- the window is closed now, and the probe is outstanding
        have hlength := hn.length.2 hs
        have hne := (h.infinite hs).2.2
        have htotal := totalOutstanding_newData (hw.destList ▸ hw.nodup)
          (hw.destList ▸ hw.newTxDest) hn (by omega) (by omega) hprobe
        have hclosed : ¬u.nextDataChunkSize c ≤ u.peerRwnd := by
          have hmin := min_le_nextDataChunkSize hc (s := u) (.inl (hn.dataSource.trans hs))
          rw [hn.peerRwnd, if_neg fun hfits => hnext hfits.2]
          exact not_le.2 (hmin.trans_lt' (by decide))
        obtain ⟨fuel, rfl⟩ := Nat.exists_eq_add_of_le' (show 1 ≤ fuel by omega)
        refine ⟨u, [], ?_, ?_, by simp⟩
        · rw [sendMuchLoop, if_neg hclosed, if_neg htotal, ite_self]
        · rw [sendMuchPackets]
          simp only [hclosed, htotal, if_false, ite_self]
    · exact ⟨_, [], rfl, rfl, by simp⟩
    · exact ⟨_, [], rfl, rfl, by simp⟩

/-- The chunks of one packet are passed, the first of them in any case. -/
theorem exists_rtxPacket (e : ℕ) (s : Sender) (size : ℕ) (l : List SendBufferNode) :
    ∃ t k passed rest, rtxPacket c (some e) s size l = some (t, k, passed, rest) ∧ rest <:+ l ∧
      (l ≠ [] → (∀ n ∈ l, size + n.chunk.length ≤ c.maxPayloadSize) → rest.length < l.length) := by
  induction l generalizing s size with
  | nil => exact ⟨s, size, [], [], rfl, suffix_rfl, fun h => absurd rfl h⟩
  | cons n l ih =>
    have hpass : ∀ m : SendBufferNode, ∀ u k, ∃ t k' passed rest,
        (rtxPacket c (some e) u k l).bind (fun r => some (r.1, r.2.1, m :: r.2.2.1, r.2.2.2)) =
          some (t, k', passed, rest) ∧ rest <:+ n :: l ∧
        rest.length < (n :: l).length := by
      intro m u k
      obtain ⟨t, k', passed, rest, ht, hrest, -⟩ := ih u k
      refine ⟨t, k', m :: passed, rest, ?_, hrest.trans (suffix_cons n l),
        Nat.lt_succ_of_le hrest.length_le⟩
      rw [ht]
      rfl
    rw [rtxPacket]
    split_ifs with hm hfull
    · refine ⟨_, _, _, _, rfl, suffix_rfl, fun _ hfit => ?_⟩
      exact absurd hfull (not_lt.2 (hfit n mem_cons_self))
    · obtain ⟨t, k, passed, rest, ht, hrest, hlt⟩ := hpass
        ((s.noteFirstOutstanding n).rtxChunk e n).2 ((s.noteFirstOutstanding n).rtxChunk e n).1
        (size + pad ((s.noteFirstOutstanding n).rtxChunk e n).2.chunk.length)
      exact ⟨t, k, passed, rest, ht, hrest, fun _ _ => hlt⟩
    · obtain ⟨t, k, passed, rest, ht, hrest, hlt⟩ :=
        hpass n ((s.noteFirstOutstanding n).restartForAbandoned n) size
      exact ⟨t, k, passed, rest, ht, hrest, fun _ _ => hlt⟩

theorem isSome_rtxPackets (limit : RtxLimit) (e packets : ℕ) (hfuel : l.length < fuel)
    (hl : ∀ n ∈ l, n.chunk.length ≤ c.maxPayloadSize) :
    (rtxPackets c limit (some e) fuel s packets l).isSome := by
  induction fuel generalizing s packets l with
  | zero => omega
  | succ fuel ih =>
    rw [rtxPackets]
    obtain ⟨b, hb⟩ : ∃ b, mayRtx limit (some e) s packets = some b := by
      cases limit <;> exact ⟨_, rfl⟩
    obtain ⟨u, k, passed, rest, hu, hrest, hlt⟩ := exists_rtxPacket (c := c) e s 0 l
    split_ifs with hnil
    · rfl
    have hrec : ∀ v k', ∃ r, rtxPackets c limit (some e) fuel v k' rest = some r := fun v k' =>
      isSome_iff_exists.1 (ih k' ((hlt hnil (by simpa using hl)).trans_le (Nat.le_of_lt_succ hfuel))
        fun n hn => hl n (hrest.subset hn))
    simp only [hb, hu, bind_eq_bind, bind_some]
    split_ifs
    · rfl
    all_goals first
      | rfl
      | obtain ⟨r, hr⟩ := hrec _ _
        rw [hr]
        rfl

theorem isSome_rtxPackets_of_noRtx (hl : ∀ n ∈ l, n.markedForRtx = .noRtx) :
    (rtxPackets c .onePacket none (l.length + 1) s 0 l).isSome := by
  have hpass : ∀ l : List SendBufferNode, ∀ s, (∀ n ∈ l, n.markedForRtx = .noRtx) →
      ∃ t, rtxPacket c none s 0 l = some (t, 0, l, []) := by
    intro l
    induction l with
    | nil => exact fun s _ => ⟨s, rfl⟩
    | cons n l ih =>
      intro s hl
      rw [forall_mem_cons] at hl
      obtain ⟨t, ht⟩ := ih ((s.noteFirstOutstanding n).restartForAbandoned n) hl.2
      exact ⟨t, by simp [rtxPacket, hl.1, ht]⟩
  obtain ⟨t, ht⟩ := hpass l s hl
  cases l with
  | nil => rfl
  | cons n l => simp [rtxPackets, mayRtx, ht]

theorem isSome_rtxMarkedChunks (h : s.Stocked c) (hw : Wired L s) (limit : RtxLimit)
    (hlimit : limit = .cwnd → s.anyMarkedChunks = true) : (s.rtxMarkedChunks c limit).isSome := by
  have hclear := quiet_clearFirst (s := s)
  unfold rtxMarkedChunks
  dsimp only
  generalize ({ s with burstLength := 0 }.withDests fun x => { x with firstOutstanding := none }) = u
    at hclear
  suffices hdest : ∃ rtxDest, u.findRtxDest c = some rtxDest ∧
      (rtxPackets c limit rtxDest (s.sendBuffer.length + 1)
        (s.sendBuffer.foldl (countMarked (-1)) u) 0 s.sendBuffer).isSome by
    obtain ⟨rtxDest, hrtx, hsome⟩ := hdest
    obtain ⟨r, hr⟩ := isSome_iff_exists.1 hsome
    simp only [hrtx, hr, bind_eq_bind, bind_some, isSome_some]
  rw [findRtxDest, hclear.sendBuffer]
  cases hfind : s.sendBuffer.find? fun n => n.markedForRtx ≠ .noRtx with
  | none =>
    cases limit with
    | cwnd =>
      obtain ⟨n, hn, hm⟩ := any_eq_true.1 (hlimit rfl)
      exact absurd hm (find?_eq_none.1 hfind n hn)
    | onePacket => exact ⟨none, rfl, isSome_rtxPackets_of_noRtx (by simpa using hfind)⟩
  | some n =>
    have hdest : n.dest ∈ u.destList :=
      hclear.destList ▸ hw.destList ▸ (hw.booked n (mem_of_find?_eq_some hfind)).dest
    obtain ⟨e, he⟩ : ∃ e, u.getNextDest c n.dest = some e := by
      rw [getNextDest, if_pos hdest]
      dsimp only
      split_ifs
      · cases c.dormantAction <;> exact ⟨_, rfl⟩
      · exact ⟨_, rfl⟩
    obtain ⟨e, he⟩ : ∃ e, u.chooseRtxDest c n = some e := by
      unfold chooseRtxDest
      split
      · split_ifs
        · exact ⟨_, rfl⟩
        · exact ⟨e, he⟩
      · exact ⟨e, he⟩
      · split_ifs
        · exact ⟨_, rfl⟩
        · exact ⟨e, he⟩
    exact ⟨some e, congrArg (Option.map some) he,
      isSome_rtxPackets limit e 0 (Nat.lt_succ_self _) h.buffer⟩

theorem frame_withDests : Frame s (s.withDests f) := by
  obtain ⟨g, hg⟩ := withDests_frame (s := s) f
  rw [hg]
  exact ⟨rfl, rfl, rfl, .inl rfl, rfl, rfl, rfl⟩

theorem Stocked.frame (h : s.Stocked c) (hf : Frame s t) : t.Stocked c where
  app := hf.appLayerBuffer ▸ h.app
  infinite := by
    rw [hf.dataSource, hf.numOutStreams]
    exact h.infinite
  buffer := hf.sendBuffer ▸ h.buffer

theorem Stocked.withChunks (h : s.Stocked c) (hl : l.map (·.chunk) = s.sendBuffer.map (·.chunk)) :
    Stocked c { s with sendBuffer := l } where
  app := h.app
  infinite := h.infinite
  buffer n hn := by
    have hmem : n.chunk ∈ s.sendBuffer.map (·.chunk) := hl ▸ mem_map_of_mem hn
    obtain ⟨m, hm, heq⟩ := mem_map.1 hmem
    exact heq ▸ h.buffer m hm

theorem chunks_rtxPacket {passed rest : List SendBufferNode} {k : ℕ}
    (h : rtxPacket c rtxDest s size l = some (t, k, passed, rest)) :
    Frame s t ∧ (passed ++ rest).map (·.chunk) = l.map (·.chunk) := by
  induction l generalizing s size passed rest with
  | nil =>
    simp only [rtxPacket, some.injEq, Prod.mk.injEq] at h
    obtain ⟨rfl, -, rfl, rfl⟩ := h
    exact ⟨Quiet.rfl.toFrame, rfl⟩
  | cons n l ih =>
    have hfirst : Frame s (s.noteFirstOutstanding n) := quiet_noteFirstOutstanding.toFrame
    rw [rtxPacket] at h
    split_ifs at h
    · simp only [some.injEq, Prod.mk.injEq] at h
      obtain ⟨rfl, -, rfl, rfl⟩ := h
      exact ⟨hfirst, rfl⟩
    · obtain ⟨e, -, h⟩ := bind_eq_some_iff.1 h
      obtain ⟨⟨u, k', passed', rest'⟩, hrec, h⟩ := bind_eq_some_iff.1 h
      simp only [some.injEq, Prod.mk.injEq] at h
      obtain ⟨rfl, rfl, rfl, rfl⟩ := h
      obtain ⟨hframe, hchunks⟩ := ih hrec
      have hsent : Frame (s.noteFirstOutstanding n) ((s.noteFirstOutstanding n).rtxChunk e n).1 :=
        quiet_restartForRtx.toFrame.trans ⟨rfl, rfl, rfl, .inl rfl, rfl, rfl, rfl⟩
      exact ⟨hfirst.trans (hsent.trans hframe), congrArg (n.chunk :: ·) hchunks⟩
    · obtain ⟨⟨u, k', passed', rest'⟩, hrec, h⟩ := bind_eq_some_iff.1 h
      simp only [some.injEq, Prod.mk.injEq] at h
      obtain ⟨rfl, rfl, rfl, rfl⟩ := h
      obtain ⟨hframe, hchunks⟩ := ih hrec
      exact ⟨hfirst.trans (quiet_restartForAbandoned.toFrame.trans hframe),
        congrArg (n.chunk :: ·) hchunks⟩

theorem chunks_rtxPackets {packets : ℕ} {l' : List SendBufferNode}
    (h : rtxPackets c limit rtxDest fuel s packets l = some (t, l')) :
    Frame s t ∧ l'.map (·.chunk) = l.map (·.chunk) := by
  induction fuel generalizing s packets l l' with
  | zero => exact absurd h (some_ne_none _).symm
  | succ fuel ih =>
    rcases rtxPackets_cases h with ⟨rfl, rfl, -⟩ | ⟨u, v, k, passed, rest, hpacket, hq, -, hrest⟩
    · exact ⟨Quiet.rfl.toFrame, rfl⟩
    · obtain ⟨hframe, hchunks⟩ := chunks_rtxPacket hpacket
      rcases hrest with ⟨-, rfl, rfl⟩ | ⟨rest', rfl, hrec⟩
      · exact ⟨hframe.trans hq.toFrame, hchunks⟩
      · obtain ⟨hframe', hchunks'⟩ := ih hrec
        refine ⟨(hframe.trans hq.toFrame).trans hframe', ?_⟩
        rw [← hchunks, map_append, hchunks', map_append]

/-- The loops of `s` end, and so do those of every state after it. -/
structure Ready (c : Config) (L : List ℕ) (s : Sender) : Prop extends Wired L s, Stocked c s

theorem Ready.frame (h : Ready c L s) (hf : Frame s t) : Ready c L t :=
  ⟨h.toWired.frame hf, h.toStocked.frame hf⟩

theorem Ready.withDests (h : Ready c L s) : Ready c L (s.withDests f) :=
  h.frame frame_withDests

theorem Ready.rtxMarkedChunks (h : Ready c L s) (ht : s.rtxMarkedChunks c limit = some t) :
    Ready c L t := by
  refine ⟨(h.toWired.books.rtxMarkedChunks ht).toWired, ?_⟩
  obtain ⟨u, v, rtxDest, l, hu, -, hpackets, ht⟩ := rtxMarkedChunks_cases ht
  have hcount : ∀ (sign : ℤ) (s : Sender) (l : List SendBufferNode),
      Frame s (l.foldl (countMarked sign) s) := by
    intro sign s l
    induction l generalizing s with
    | nil => exact Quiet.rfl.toFrame
    | cons n l ih =>
      refine Frame.trans ?_ (ih _)
      unfold countMarked
      split_ifs <;> exact ⟨rfl, rfl, rfl, .inl rfl, rfl, rfl, rfl⟩
  obtain ⟨hsent, hchunks⟩ := chunks_rtxPackets hpackets
  have hv : Frame s v := hu.toFrame.trans ((hcount _ _ _).trans hsent)
  exact (((h.toStocked.frame hv).withChunks (hv.sendBuffer ▸ hchunks)).frame
    (hcount 1 _ l)).frame ht.toFrame

theorem Ready.processGapAckBlocks (b : Bool) (h : Ready c L s) :
    Ready c L (s.processGapAckBlocks c k b).1 := by
  obtain ⟨u, l, hgap, hl, hchunks, hmoves⟩ := processGapAckBlocks_cases c k b h.booked
  obtain ⟨_, _, hmoves, -⟩ := hmoves 0
  have hu := h.frame hmoves.toFrame
  rw [hgap]
  exact ⟨hu.toWired.withBuffer hl, hu.toStocked.withChunks (hmoves.sendBuffer ▸ hchunks)⟩

theorem Ready.sendBufferDequeueUpTo {tsn : ℕ} (h : Ready c L s) :
    Ready c L (s.sendBufferDequeueUpTo tsn) := by
  obtain ⟨u, hmoves, hloop⟩ := dequeueLoop_cases tsn s.sendBuffer { s with assocErrorCount := 0 }
  have hu := (h.frame (t := { s with assocErrorCount := 0 })
    ⟨rfl, rfl, rfl, .inl rfl, rfl, rfl, rfl⟩).frame (hmoves 0).toFrame
  have hsub := chunksAbove_subset tsn s.sendBuffer
  rw [Sender.sendBufferDequeueUpTo, hloop]
  exact ⟨hu.toWired.withBuffer fun n hn => h.booked n (hsub hn), hu.app, hu.infinite,
    fun n hn => h.buffer n (hsub hn)⟩

theorem Ready.ackChunks (h : Ready c L s) : Ready c L (s.ackChunks c k).1 := by
  have hclear := h.withDests (f := fun x => { x with
    numNewlyAckedBytes := 0
    firstOutstanding := none })
  unfold Sender.ackChunks
  dsimp only
  generalize (s.withDests _) = u at hclear
  have hcum : ∀ tsn, Ready c L { u.sendBufferDequeueUpTo tsn with cumAckPoint := tsn } :=
    fun tsn => hclear.sendBufferDequeueUpTo.frame ⟨rfl, rfl, rfl, .inl rfl, rfl, rfl, rfl⟩
  split_ifs
  · exact (hcum _).processGapAckBlocks _
  · exact hclear.processGapAckBlocks _
  · exact hcum _
  · exact hclear

theorem Ready.exists_rtx (h : Ready c L s) (hlimit : limit = .cwnd → s.anyMarkedChunks = true) :
    ∃ t, s.rtxMarkedChunks c limit = some t ∧ Ready c L t := by
  obtain ⟨t, ht⟩ := isSome_iff_exists.1 (isSome_rtxMarkedChunks h.toStocked h.toWired limit hlimit)
  exact ⟨t, ht, h.rtxMarkedChunks ht⟩

theorem Ready.rtxForSack (h : Ready c L s) (fast : Bool) :
    ∃ t, s.rtxForSack c fast = some t ∧ Ready c L t := by
  obtain ⟨u, hu, ⟨limit, hlimit, hrtx⟩ | hrtx⟩ := rtxForSack_cases (Eq.refl (s.rtxForSack c fast))
  · obtain ⟨t, ht, hready⟩ := (h.frame hu.toFrame).exists_rtx hlimit
    exact ⟨t, hrtx.symm.trans ht, hready⟩
  · exact ⟨u, hrtx, h.frame hu.toFrame⟩

theorem Ready.processSackChunk (h : Ready c L s) (k : SackChunk) :
    ∃ t, s.processSackChunk c k = some t ∧ Ready c L t := by
  unfold Sender.processSackChunk
  split_ifs with hstale
  · exact ⟨_, rfl, h.withDests⟩
  · have hset : Ready c L ((s.ackChunks c k).1.withDests
        (settleDest c k (decide (s.cumAckPoint < k.cumAck)) (s.ackChunks c k).1.recover)).advancePeerAckPoint :=
      h.ackChunks.withDests.frame ⟨rfl, rfl, rfl, .inl rfl, rfl, rfl, rfl⟩
    obtain ⟨t, ht, hready⟩ := hset.rtxForSack (s.ackChunks c k).2
    exact ⟨_, congrArg (Option.map (setPeerRwnd k.arwnd)) ht,
      hready.frame ⟨rfl, rfl, rfl, .inl rfl, rfl, rfl, rfl⟩⟩

theorem Ready.processChunk {x : InChunk} (h : Ready c L s) (ht : s.processChunk c x = some t) :
    Ready c L t := by
  unfold Sender.processChunk at ht
  split at ht
  · split at ht
    all_goals exact some.inj ht ▸ h.frame ⟨rfl, rfl, rfl, .inl rfl, rfl, rfl, rfl⟩
  · split at ht
    · exact some.inj ht ▸ h.frame ⟨rfl, rfl, rfl, .inl rfl, rfl, rfl, rfl⟩
    · exact absurd ht (some_ne_none _).symm
  · have hestablished := h.frame (t := { s with t1CookiePending := false, state := .established })
      ⟨rfl, rfl, rfl, .inl rfl, rfl, rfl, rfl⟩
    exact some.inj ht ▸ hestablished.withDests.frame ⟨rfl, rfl, rfl, .inl rfl, rfl, rfl, rfl⟩
  · split at ht
    · next k =>
      obtain ⟨u, hu, hready⟩ := h.processSackChunk k
      rw [hu] at ht
      exact some.inj ht ▸ hready.frame ⟨rfl, rfl, rfl, .inl rfl, rfl, rfl, rfl⟩
    · next d =>
      have hactive : Ready c L (s.processHeartbeatAckChunk d) := by
        refine ⟨(h.toWired.books.processHeartbeatAckChunk).toWired, ?_⟩
        unfold processHeartbeatAckChunk
        dsimp only
        split_ifs <;> exact ⟨h.app, h.infinite, h.buffer⟩
      dsimp only at ht
      split_ifs at ht
      · exact some.inj ht ▸ hactive.frame ⟨rfl, rfl, rfl, .inl rfl, rfl, rfl, rfl⟩
      · exact some.inj ht ▸ hactive
    · exact some.inj ht ▸ h

theorem Ready.runChunks {chunks : List InChunk} {as : List Unit} (h : Ready c L s)
    (hrun : (chunkMachine c).run s chunks = some (t, as)) : Ready c L t :=
  Machine.RunsWith.keeps (fun _ _ _ _ h _ ht => h.processChunk (processChunk_of_step ht))
    (Machine.runsWith_true _ s chunks) hrun h

theorem Ready.sendMuch (hc : c.Accepted) (h : Ready c L s) (ht : s.sendMuch c = some t) :
    Ready c L t :=
  sendMuch_keeps (fun _ _ h hq => h.frame hq.toFrame)
    (fun _ _ _ _ h _ hn => ⟨(h.toWired.books.newData hn).toWired, h.toStocked.newData hc hn⟩) h ht

theorem Ready.afterChunks (hc : c.Accepted) (h : Ready c L s) (ht : s.afterChunks c = some t) :
    Ready c L t := by
  have hforward := h.frame (t := { s with forwardTsnNeeded := false })
    ⟨rfl, rfl, rfl, .inl rfl, rfl, rfl, rfl⟩
  unfold Sender.afterChunks at ht
  dsimp only at ht
  split_ifs at ht
  · obtain ⟨u, hu, rfl⟩ := map_eq_some_iff.1 ht
    exact (hforward.sendMuch hc hu).frame ⟨rfl, rfl, rfl, .inl rfl, rfl, rfl, rfl⟩
  · exact some.inj ht ▸ hforward

/-- The chunks that `sendmsg` queues fit with their padding. -/
def FitsData (c : Config) (s : Sender) : SenderEvent → Prop
  | .sendmsg .infinite =>
    0 < s.numOutStreams ∧ pad c.dataChunkSize ≤ c.maxDataSize ∧ c.dataChunkSize % 2 ^ 16 ≠ 0
  | .sendmsg (.aware m) => pad (m.numBytes + dataChunkHdrSize) ≤ c.maxDataSize
  | .sendmsg (.bytes n) =>
    pad (min n (c.maxDataSize - dataChunkHdrSize) + dataChunkHdrSize) ≤ c.maxDataSize
  | _ => True

/-- The loops inside an event come back: that of `SendMuch` for the messages it buffers, and those for
a SACK and for a timeout. -/
def EventsReturn (c : Config) (s : Sender) : Prop :=
  (∀ m t, s.FitsData c (.sendmsg m) → s.bufferMessages c m = some t → t.LoopsEnd c) ∧
    (∀ k, (s.processSackChunk c k).isSome) ∧ ∀ d, (s.timeoutRtx c d).isSome

theorem pad_fragments {m : AppData} {n : ℕ}
    (h : pad
    (min n (c.maxDataSize - dataChunkHdrSize) + dataChunkHdrSize) ≤ c.maxDataSize) :
    ∀ x ∈ fragments c m fuel n, pad (x.numBytes + dataChunkHdrSize) ≤ c.maxDataSize := by
  induction fuel generalizing n with
  | zero => exact fun x hx => absurd hx not_mem_nil
  | succ fuel ih =>
    rw [fragments]
    split_ifs
    · exact fun x hx => absurd hx not_mem_nil
    · refine forall_mem_cons.2 ⟨h, ih (le_trans (pad_mono ?_) h)⟩
      omega

theorem Ready.bufferMessages {m : AppSend} (h : Ready c L s) (hfits : s.FitsData c (.sendmsg m))
    (ht : s.bufferMessages c m = some t) : Ready c L t := by
  refine ⟨(h.toWired.books.bufferMessages ht).toWired, ?_⟩
  cases m with
  | infinite => exact some.inj ht ▸ ⟨h.app, fun _ => hfits, h.buffer⟩
  | aware m =>
    rw [Sender.bufferMessages] at ht
    split_ifs at ht
    refine some.inj ht ▸ ⟨?_, nofun, h.buffer⟩
    exact forall_mem_append.2 ⟨h.app, forall_mem_singleton.2 hfits⟩
  | bytes n =>
    rw [Sender.bufferMessages] at ht
    split_ifs at ht
    all_goals
      refine some.inj ht ▸ ⟨?_, nofun, h.buffer⟩
      exact forall_mem_append.2 ⟨h.app, pad_fragments hfits⟩

theorem Ready.sendmsg {m : AppSend} (hc : c.Accepted) (h : Ready c L s)
    (hfits : s.FitsData c (.sendmsg m)) (ht : s.sendmsg c m = some t) : Ready c L t := by
  unfold Sender.sendmsg at ht
  obtain ⟨u, hu, ht⟩ := bind_eq_some_iff.1 ht
  have hbuffered := h.bufferMessages hfits hu
  split at ht
  · exact some.inj ht ▸ hbuffered.frame ⟨rfl, rfl, rfl, .inl rfl, rfl, rfl, rfl⟩
  · split at ht
    · exact hbuffered.sendMuch hc ht
    · exact absurd ht (some_ne_none _).symm
  · exact some.inj ht ▸ hbuffered

theorem Ready.close (h : Ready c L s) : Ready c L s.close := by
  refine ⟨h.toWired.books.close.toWired, ?_⟩
  obtain ⟨g, hg⟩ := close_frame (s := s)
  rw [hg]
  exact ⟨nofun, h.infinite, nofun⟩

theorem Ready.countError {b : Bool} (h : Ready c L s) (ht : s.countError c d = some (t, b)) :
    Ready c L t := by
  refine ⟨(h.toWired.books.countError ht).toWired, ?_⟩
  obtain ⟨⟨g, e, k, rfl⟩, -⟩ := countError_frame ht
  exact ⟨h.app, h.infinite, h.buffer⟩

theorem Ready.changePrimary (h : Ready c L s) : Ready c L (s.changePrimary c d) := by
  refine ⟨h.toWired.books.changePrimary.toWired, ?_⟩
  obtain ⟨e, he⟩ := changePrimary_frame (s := s) (c := c) (d := d)
  rw [he]
  exact ⟨h.app, h.infinite, h.buffer⟩

theorem Ready.withDest (h : Ready c L s) : Ready c L (s.withDest d f) :=
  h.frame ⟨rfl, rfl, rfl, .inl rfl, rfl, rfl, rfl⟩

theorem Ready.timeoutRtx (h : Ready c L s) (d : ℕ) :
    ∃ t, s.timeoutRtx c d = some t ∧ Ready c L t := by
  obtain ⟨hframe, hbooks⟩ := h.toWired.books.timedOut d
  have hchunk : ∀ s n, (markForTimeout d s n).2.chunk = n.chunk := by
    intro s n
    unfold markForTimeout markChunkForRtx
    dsimp only
    split_ifs <;> rfl
  have hmark : Ready c L _ := ⟨hbooks.toWired, (h.toStocked.frame hframe).withChunks
    ((map_mapAccum hchunk).trans (congrArg _ hframe.sendBuffer.symm))⟩
  unfold Sender.timeoutRtx
  dsimp only
  split_ifs
  · exact hmark.exists_rtx nofun
  · exact ⟨_, rfl, hmark⟩

theorem Ready.act {e : SenderEvent} (hc : c.Accepted) (h : Ready c L s) (hfits : s.FitsData c e)
    (ht : s.act c e = some t) : Ready c L t := by
  cases e with
  | reset =>
    have hreset := books_reset c (h.destList ▸ h.nodup) (h.destList ▸ h.primaryDest)
      (h.destList ▸ h.newTxDest)
    rw [h.destList] at hreset
    exact some.inj ht ▸ ⟨hreset.toWired, nofun, nofun, nofun⟩
  | close => exact some.inj ht ▸ h.close
  | setPrimary d =>
    rw [Sender.act] at ht
    split_ifs at ht with hd
    have hd' : d ∈ L := h.destList ▸ hd
    exact some.inj ht ▸
      ⟨⟨h.nodup, h.destList, hd', hd', h.booked⟩, h.app, h.infinite, h.buffer⟩
  | sendmsg m => exact h.sendmsg hc hfits ht
  | recv chunks =>
    obtain ⟨⟨u, as⟩, hrun, ht⟩ := bind_eq_some_iff.1 ht
    exact (h.runChunks hrun).afterChunks hc ht
  | t3Timeout d =>
    rw [Sender.act] at ht
    split_ifs at ht
    obtain ⟨⟨u, b⟩, hu, ht⟩ := bind_eq_some_iff.1 ht
    have hu' := h.withDest.countError hu
    dsimp only at ht
    split_ifs at ht
    · exact some.inj ht ▸ hu'.close
    · obtain ⟨v, hv, hv'⟩ := hu'.changePrimary.timeoutRtx d
      rw [hv, bind_eq_bind, bind_some] at ht
      split_ifs at ht
      · exact some.inj ht ▸ hv'.withDest
      · exact some.inj ht ▸ hv'
  | heartbeatTimeout d =>
    rw [Sender.act] at ht
    split_ifs at ht
    obtain ⟨⟨u, b⟩, hu, ht⟩ := bind_eq_some_iff.1 ht
    have hu' := h.withDest.countError hu
    dsimp only at ht
    split_ifs at ht
    · exact some.inj ht ▸ hu'.close
    · exact some.inj ht ▸ hu'.changePrimary.withDest
    · exact some.inj ht ▸ hu'.changePrimary
  | heartbeatGen d | cwndDegrade d =>
    rw [Sender.act] at ht
    split_ifs at ht
    exact some.inj ht ▸ h.withDest
  | t1Init | t1Cookie =>
    rw [Sender.act] at ht
    split_ifs at ht
    obtain rfl := some.inj ht
    simp only [t1InitTimerExpiration, t1CookieTimerExpiration]
    split_ifs
    · exact Ready.close (h.frame ⟨rfl, rfl, rfl, .inl rfl, rfl, rfl, rfl⟩)
    · exact h.frame ⟨rfl, rfl, rfl, .inl rfl, rfl, rfl, rfl⟩

theorem Ready.loopsEnd (hc : c.Accepted) (h : Ready c L s) : s.LoopsEnd c :=
  ⟨⟨_, sendsIn hc le_rfl h.toStocked h.toWired⟩, isSome_rtxMarkedChunks h.toStocked h.toWired⟩

theorem Ready.eventsReturn (hc : c.Accepted) (h : Ready c L s) : s.EventsReturn c := by
  refine ⟨fun m t hfits ht => (h.bufferMessages hfits ht).loopsEnd hc, fun k => ?_, fun d => ?_⟩
  · obtain ⟨t, ht, -⟩ := h.processSackChunk (c := c) k
    exact ht ▸ rfl
  · obtain ⟨t, ht, -⟩ := h.timeoutRtx (c := c) d
    exact ht ▸ rfl

/-- While what is queued fits with its padding, the loops end in every state of a run, between the
chunks of a packet and inside an event too. -/
theorem loopsEnd_of_runsWith (hc : c.Accepted) (hl : s.destList.Nodup)
    (hp : s.primaryDest ∈ s.destList) (hn : s.newTxDest ∈ s.destList) {es : List SenderEvent}
    {as : List Unit} (hfits : (machine c).RunsWith (FitsData c) (s.reset c) es)
    (hrun : (machine c).run (s.reset c) es = some (t, as)) {chunks : List InChunk} {bs : List Unit}
    {u : Sender} (hchunks : (chunkMachine c).run t chunks = some (u, bs)) :
    u.LoopsEnd c ∧ u.EventsReturn c := by
  have hready : Ready c s.destList t := by
    refine Machine.RunsWith.keeps ?_ hfits hrun ⟨(books_reset c hl hp hn).toWired, nofun, nofun, nofun⟩
    intro s e t a h he ht
    obtain ⟨v, hv, heq⟩ := map_eq_some_iff.1 ht
    obtain ⟨rfl, -⟩ := Prod.mk.inj heq
    exact h.act hc he hv
  have hu := hready.runChunks hchunks
  exact ⟨hu.loopsEnd hc, hu.eventsReturn hc⟩

def established : List SenderEvent :=
  [.sendmsg (.bytes 100), .recv [.initAck 3000], .recv [.cookieAck], .recv [.heartbeatAck 1]]

theorem loopsEnd_of_runsWith_bytes : ∃ t as, (machine sampleConfig).run
    (sampleSender.reset sampleConfig) established = some (t, as) ∧
      t.LoopsEnd sampleConfig ∧ t.EventsReturn sampleConfig := by
  obtain ⟨⟨t, as⟩, hrun⟩ : ∃ r, (machine sampleConfig).run (sampleSender.reset sampleConfig)
      established = some r := ⟨_, rfl⟩
  have hfits : (machine sampleConfig).RunsWith (FitsData sampleConfig)
      (sampleSender.reset sampleConfig) established :=
    ⟨show pad _ ≤ _ by decide, fun _ _ _ => ⟨trivial, fun _ _ _ => ⟨trivial, fun _ _ _ =>
      ⟨trivial, fun _ _ _ => trivial⟩⟩⟩⟩
  exact ⟨t, as, hrun, loopsEnd_of_runsWith ⟨by decide, by decide, by decide⟩ (by decide)
    (by decide) (by decide) hfits hrun
    (show (chunkMachine sampleConfig).run t [] = some (t, []) from rfl)⟩

/-- A chunk that fits no packet is never taken. -/
theorem sendMuchLoop_eq_none (hopen : (s.dest s.newTxDest).outstandingBytes < (s.dest s.newTxDest).cwnd)
    (hdata : s.HasData) (hnext : s.nextDataChunkSize c ≤ s.peerRwnd) (hburst : ¬s.applyMaxBurst)
    (hsize : c.maxDataSize < s.nextDataChunkSize c) (fuel : ℕ) : sendMuchLoop c fuel s = none := by
  induction fuel with
  | zero => rfl
  | succ fuel ih =>
    rw [sendMuchLoop, if_pos ⟨hopen, hdata⟩, if_pos hnext, if_neg fun h => hburst h.2,
      genMultipleDataChunks, if_neg fun h => by omega]
    exact ih

/-- A message of 1453 bytes with an MTU of 1501. -/
def tightConfig : Config :=
  { sampleConfig with maxPayloadSize := 1469, maxDataSize := 1469 }

theorem not_loopsEnd : tightConfig.Accepted ∧ ∃ t as,
    (machine tightConfig).run (sampleSender.reset tightConfig)
      [.sendmsg (.bytes 1453), .recv [.initAck 3000], .recv [.cookieAck]] = some (t, as) ∧
    ¬t.LoopsEnd tightConfig := by
  refine ⟨⟨by decide, by decide, by decide⟩, _, _, rfl, ?_⟩
  rintro ⟨⟨fuel, t, -, ht, -⟩, -⟩
  rw [sendMuchLoop_eq_none (by decide) (by decide) (by decide) (by decide) (by decide)] at ht
  cases ht

end Sender

end Ns2.Sctp
