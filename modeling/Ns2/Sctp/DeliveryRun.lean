import Ns2.Sctp.OrderedDelivery

/-! Runs of a sender and a receiver, and the run whose chunks overtake the wrap. -/

namespace Ns2.Sctp

open List Option

variable {modes : List StreamMode} {initialRwnd i n m E : ℕ} {a a' : Transfer} {c d : DataChunk}
  {s s' : Receiver} {stream : InStream} {sent acc : List DataChunk}

theorem StreamsHold.passToStream {tsns : RecvTsns} (h : StreamsHold initialRwnd sent acc s)
    (hsent : sent.Pairwise fun c d => c.tsn < d.tsn) (hc : c ∈ sent) (hroom : c.length ≤ s.myRwnd)
    (hs' : Receiver.passToStream { s with tsns := tsns, myRwnd := s.myRwnd - c.length } c = some s')
    (hnew : ∀ stream, s.inStreams[c.streamId]? = some stream → stream.mode = .reliable → c ∉ acc)
    (hseq : c.unordered = false → ∀ stream, s.inStreams[c.streamId]? = some stream →
      ∀ d ∈ stream.bufferedChunkList, d.streamSeqNum ≠ c.streamSeqNum)
    (hblock : c.unordered = false → ∀ stream, s.inStreams[c.streamId]? = some stream →
      stream.mode = .reliable → ∀ d ∈ (ordered c.streamId sent).take
        ((ordered c.streamId sent).idxOf c / 2 ^ 16 * 2 ^ 16), d ∈ acc) :
    StreamsFilled initialRwnd sent (acc ++ [c]) s' := by
  have hother : ∀ i, c.streamId ≠ i ∨ c.unordered = true → ∀ d ∈ ordered i sent,
      (d ∈ acc ++ [c] ↔ d ∈ acc) := by
    intro i hi d hd
    obtain ⟨-, hid, hord⟩ := mem_ordered.1 hd
    have hdc : d ≠ c := by
      rintro rfl
      rcases hi with hi | hi
      · exact hi hid
      · rw [hord] at hi
        cases hi
    simp [hdc]
  obtain ⟨stream, hstream, rfl⟩ := map_eq_some_iff.1 hs'
  simp only at hstream
  cases hord : c.unordered with
  | true =>
    simp only [if_true]
    refine ⟨h.own, ?_, fun i stream hi hmode => ?_⟩
    · have := h.window
      simp only [Receiver.passToUpperLayer]
      omega
    · have hset := (h.settled i stream hi hmode).of_mem_iff (hother i (Or.inr hord))
      simp only [Receiver.passToUpperLayer, ordered_append]
      rw [ordered_eq_nil (l := [c]) (by simp [hord]), append_nil]
      exact hset.filled
  | false =>
    have hperm := insertInStreamBuffer_perm (hseq hord stream hstream)
    simp only [Bool.false_eq_true, if_false]
    refine ⟨fun i stream' hi d hd => ?_, ?_, fun i stream' hi hmode => ?_⟩
    · rw [getElem?_set] at hi
      split_ifs at hi with heq hlt
      · obtain rfl := some.inj hi
        rcases mem_cons.1 (hperm.mem_iff.1 hd) with rfl | hd
        · exact ⟨heq, hord⟩
        · exact heq ▸ h.own _ stream hstream d hd
      · exact h.own i stream' hi d hd
    · have hwin := h.window
      have hset := totalLength_set hstream { stream with
        bufferedChunkList := insertInStreamBuffer c stream.bufferedChunkList }
      have htotal : totalLength (insertInStreamBuffer c stream.bufferedChunkList) =
          c.length + totalLength stream.bufferedChunkList := by
        rw [← totalLength_cons]
        exact (hperm.map _).sum_eq
      simp only at hset ⊢
      omega
    · rw [getElem?_set] at hi
      split_ifs at hi with heq hlt
      · obtain rfl := some.inj hi
        subst heq
        have hcL : c ∈ ordered c.streamId sent := mem_ordered.2 ⟨hc, rfl, hord⟩
        have hsorted : (ordered c.streamId sent).Pairwise fun c d => c.tsn < d.tsn :=
          hsent.sublist filter_sublist
        have hnodup : (ordered c.streamId sent).Nodup := by
          refine hsorted.imp ?_
          rintro d _ hlt rfl
          exact lt_irrefl _ hlt
        exact (h.settled _ stream hstream hmode).insert hnodup
          (List.getElem?_eq_some_iff.2 ⟨List.idxOf_lt_length_of_mem hcL, List.getElem_idxOf _⟩)
          (hnew stream hstream hmode) (hblock hord stream hstream hmode)
      · exact ((h.settled i stream' hi hmode).of_mem_iff (hother i (Or.inl heq))).filled

/-- The TSNs that a FORWARD TSN may pass over. -/
def unreliableTsns (modes : List StreamMode) (sent : List DataChunk) : Set ℕ :=
  {t | ∃ c ∈ sent, c.tsn = t ∧ modes[c.streamId]? = some .unreliable}

def tsnSet (l : List DataChunk) : Set ℕ := {t | ∃ c ∈ l, c.tsn = t}

/-- The invariant of a run. -/
structure TransferInv (initialRwnd : ℕ) (modes : List StreamMode) (a : Transfer) : Prop where
  sorted : a.sent.Pairwise fun c d => c.tsn < d.tsn
  bound : ∀ c ∈ a.sent, 1 ≤ c.tsn ∧ c.tsn ≤ a.source.nextTsn ∧ c.streamId < modes.length
  outStreams : ∀ i < modes.length,
    a.source.outStreams[i]? = some ((ordered i a.sent).length % 2 ^ 16)
  seqNum : ∀ i n c, (ordered i a.sent)[n]? = some c → c.streamSeqNum = n % 2 ^ 16
  inStreams : a.peer.inStreams.map InStream.mode = modes
  accepted : ∀ c ∈ a.accepted, c ∈ a.sent
  sound : RecvTsns.Sound (tsnSet a.accepted) (unreliableTsns modes a.sent) a.peer.tsns
  streams : StreamsHold initialRwnd a.sent a.accepted a.peer

namespace TransferInv

variable (h : TransferInv initialRwnd modes a)
include h

theorem eq_of_tsn (hc : c ∈ a.sent) (hd : d ∈ a.sent) (htsn : c.tsn = d.tsn) : c = d := by
  by_contra hne
  have hpair : a.sent.Pairwise fun c d => c.tsn ≠ d.tsn := h.sorted.imp fun hlt => hlt.ne
  have : Std.Symm fun c d : DataChunk => c.tsn ≠ d.tsn := ⟨fun _ _ => Ne.symm⟩
  exact hpair.forall hc hd hne htsn

theorem notMem_unreliableTsns (hc : c ∈ a.sent) (hmode : modes[c.streamId]? = some .reliable) :
    c.tsn ∉ unreliableTsns modes a.sent := by
  rintro ⟨d, hd, htsn, hdmode⟩
  obtain rfl := h.eq_of_tsn hd hc htsn
  rw [hmode] at hdmode
  cases hdmode

theorem delivers : Delivers initialRwnd modes a := by
  have hmode : ∀ (i : ℕ) (stream : InStream), a.peer.inStreams[i]? = some stream →
      modes[i]? = some .reliable → stream.mode = .reliable := by
    intro i stream hi hm
    rw [← h.inStreams, getElem?_map, hi] at hm
    exact some.inj hm
  refine ⟨fun i hi => ?_, fun i stream hi hm c hc => ?_, fun k c a' hk hm hroom hstep => ?_,
    h.streams.window⟩
  · obtain ⟨stream, hstream, hm⟩ : ∃ stream, a.peer.inStreams[i]? = some stream ∧
        stream.mode = .reliable := by
      rw [← h.inStreams, getElem?_map] at hi
      exact map_eq_some_iff.1 hi
    exact (h.streams.settled i stream hstream hm).takeWhile
  · exact (h.streams.settled i stream hi (hmode i stream hi hm)).waits_for
      (h.sorted.sublist filter_sublist) hc
  · have hc := mem_of_getElem? hk
    obtain ⟨h₁, -, hid⟩ := h.bound c hc
    rw [← h.inStreams, length_map] at hid
    simp only [transfer, hk, bind_some, map_eq_some_iff, Prod.mk.injEq] at hstep
    obtain ⟨⟨s, treatment⟩, hs, rfl, -⟩ := hstep
    rcases processDataChunk_cases hroom hid with ⟨-, -, -, -, hle, hdup⟩ | ⟨s', hs', -⟩
    · obtain ⟨d, hd, htsn⟩ := (h.sound.duplicate_iff h₁ (h.notMem_unreliableTsns hc hm)).1
        ⟨hle, hdup⟩
      obtain rfl := h.eq_of_tsn (h.accepted d hd) hc htsn
      dsimp only
      split_ifs
      · exact mem_append_left _ hd
      · exact hd
    · obtain ⟨-, rfl⟩ := Prod.mk.inj (some.inj (hs.symm.trans hs'))
      exact mem_append_right _ (mem_singleton_self c)

end TransferInv

@[simp] theorem map_mode_updateAllStreams :
    s.updateAllStreams.inStreams.map InStream.mode = s.inStreams.map InStream.mode := by
  rw [Receiver.updateAllStreams_eq]
  simp

theorem map_mode_passToStream (h : s.passToStream c = some s') :
    s'.inStreams.map InStream.mode = s.inStreams.map InStream.mode := by
  obtain ⟨stream, hstream, rfl⟩ := map_eq_some_iff.1 h
  split_ifs
  · rfl
  · refine ext_getElem? fun i => ?_
    simp only [getElem?_map, getElem?_set]
    split_ifs with heq hlt
    · rw [← heq, hstream]
      rfl
    · exact absurd (heq ▸ (List.getElem?_eq_some_iff.1 hstream).1) hlt
    · rfl

theorem tsnSet_concat {l : List DataChunk} : tsnSet (l ++ [c]) = insert c.tsn (tsnSet l) := by
  ext t
  simp only [tsnSet, Set.mem_ofPred_eq, mem_append, mem_singleton, Set.mem_insert_iff]
  constructor
  · rintro ⟨d, hd | rfl, rfl⟩
    · exact Or.inr ⟨d, hd, rfl⟩
    · exact Or.inl rfl
  · rintro (rfl | ⟨d, hd, rfl⟩)
    · exact ⟨c, Or.inr rfl, rfl⟩
    · exact ⟨d, Or.inl hd, rfl⟩

theorem Numbering.genDataChunk_spec {g : Numbering} {streamId next : ℕ} (length : ℕ)
    (unordered : Bool) (old : ℕ) (h : g.outStreams[streamId]? = some next) :
    ∃ c g', g.genDataChunk streamId length unordered old = some (c, g') ∧
      c.tsn = g.nextTsn + 1 ∧ c.streamId = streamId ∧ c.unordered = unordered ∧
      g'.nextTsn = g.nextTsn + 1 ∧
      (unordered = true → g'.outStreams = g.outStreams) ∧
      (unordered = false → c.streamSeqNum = next ∧
        g'.outStreams = g.outStreams.set streamId ((next + 1) % 2 ^ 16)) := by
  cases unordered with
  | true => exact ⟨_, _, rfl, rfl, rfl, rfl, rfl, by simp, by simp⟩
  | false =>
    refine ⟨_, _, by rw [genDataChunk, if_neg (by simp), h]; rfl, rfl, rfl, rfl, rfl, by simp, ?_⟩
    exact fun _ => ⟨rfl, rfl⟩

namespace TransferInv

theorem send (h : TransferInv initialRwnd modes a) {streamId : ℕ} (length : ℕ)
    (unordered : Bool) (old : ℕ) (hid : streamId < modes.length) :
    ∃ a', transfer.step a (.send streamId length unordered old) = some (a', ()) ∧
      TransferInv initialRwnd modes a' := by
  obtain ⟨c, g, hg, htsn, hcid, hcord, hnext, hun, hord⟩ :=
    Numbering.genDataChunk_spec length unordered old (h.outStreams streamId hid)
  refine ⟨{ a with source := g, sent := a.sent ++ [c] }, by simp only [transfer, hg]; rfl, ?_⟩
  have hlt : ∀ d ∈ a.sent, d.tsn < c.tsn := fun d hd => by
    have := (h.bound d hd).2.1
    omega
  have hcsent : c ∉ a.sent := fun hc => lt_irrefl _ (hlt c hc)
  have hsingle : ∀ i, ordered i [c] = if i = streamId ∧ unordered = false then [c] else [] := by
    intro i
    split_ifs with hi
    · exact ordered_eq_self (by simp [hcid, hcord, hi])
    · refine ordered_eq_nil fun d hd hdi => ?_
      obtain rfl := mem_singleton.1 hd
      rw [hcord]
      exact Bool.not_eq_false _ ▸ fun hu => hi ⟨hdi.symm.trans hcid, hu⟩
  have hseq : ∀ i n d, (ordered i a.sent ++ ordered i [c])[n]? = some d →
      d.streamSeqNum = n % 2 ^ 16 := by
    intro i n d hd
    rcases Nat.lt_or_ge n (ordered i a.sent).length with hn | hn
    · rw [getElem?_append_left hn] at hd
      exact h.seqNum i n d hd
    · rw [getElem?_append_right hn, hsingle] at hd
      split_ifs at hd with hi
      · obtain ⟨hn', rfl⟩ := List.getElem?_eq_some_iff.1 hd
        simp only [List.length_singleton] at hn'
        simp only [List.getElem_singleton, (hord hi.2).1, ← hi.1]
        congr 1
        omega
      · simp at hd
  refine ⟨?_, fun d hd => ?_, fun i hi => ?_, fun i n d hd => hseq i n d (by simpa using hd),
    h.inStreams, fun d hd => mem_append_left _ (h.accepted d hd), h.sound.mono ?_,
    h.streams.own, h.streams.window, fun i stream hi hmode => ?_⟩
  · exact pairwise_append.2 ⟨h.sorted, pairwise_singleton _ _, by simpa using hlt⟩
  · rcases mem_append.1 hd with hd | hd
    · have := h.bound d hd
      exact ⟨this.1, by simp only; omega, this.2.2⟩
    · obtain rfl := mem_singleton.1 hd
      exact ⟨by omega, by simp only; omega, hcid ▸ hid⟩
  · simp only [ordered_append, length_append, hsingle]
    cases hu : unordered with
    | true => simpa [hun hu] using h.outStreams i hi
    | false =>
      rw [(hord hu).2, getElem?_set]
      by_cases his : streamId = i
      · subst his
        have hlen := (List.getElem?_eq_some_iff.1 (h.outStreams _ hid)).1
        rw [if_pos rfl, if_pos hlen]
        simp
      · rw [if_neg his, h.outStreams i hi]
        simp [Ne.symm his]
  · rintro t ⟨d, hd, hdt⟩
    exact ⟨d, mem_append_left _ hd, hdt⟩
  · rw [ordered_append]
    refine (h.streams.settled i stream hi hmode).append (hseq i) fun d hd => ?_
    obtain ⟨hd, -, -⟩ := mem_ordered.1 hd
    obtain rfl := mem_singleton.1 hd
    exact fun hacc => hcsent (h.accepted _ hacc)

theorem data (h : TransferInv initialRwnd modes a) {k : ℕ} (hk : k < a.sent.length)
    (hblock : ∀ c ∈ a.sent[k]?, InBlock modes a c) :
    ∃ a', transfer.step a (.data k) = some (a', ()) ∧ TransferInv initialRwnd modes a' := by
  have hget := getElem?_eq_getElem hk
  have hc : a.sent[k] ∈ a.sent := getElem_mem hk
  have hin := hblock _ hget
  generalize a.sent[k] = c at hget hc hin
  obtain ⟨h₁, -, hid⟩ := h.bound c hc
  have hlen : a.peer.inStreams.length = modes.length := by
    rw [← h.inStreams, length_map]
  by_cases hroom : c.length ≤ a.peer.myRwnd
  · rcases processDataChunk_cases hroom (hlen ▸ hid) with
      ⟨s', hs', htsns, -, hle, hd⟩ | ⟨s', hs', htsns, -, hnew, s₁, hs₁, rfl⟩
    · rw [Receiver.processDataChunk_duplicate hroom hle hd] at hs'
      obtain ⟨rfl, -⟩ := Prod.mk.inj (some.inj hs')
      refine ⟨_, by
        simp only [transfer, hget, bind_some,
          Receiver.processDataChunk_duplicate hroom hle hd]
        rfl, ?_⟩
      exact ⟨h.sorted, h.bound, h.outStreams, h.seqNum, h.inStreams, h.accepted, h.sound,
        h.streams.own, h.streams.window, h.streams.settled⟩
    · refine ⟨_, by simp only [transfer, hget, bind_some, hs']; rfl, ?_⟩
      rw [Receiver.updateAllStreams_tsns] at hs₁ htsns
      have hacc : modes[c.streamId]? = some .reliable → c.tsn ∉ tsnSet a.accepted := by
        intro hmode hA
        obtain ⟨hle, hdup⟩ := (h.sound.duplicate_iff h₁ (h.notMem_unreliableTsns hc hmode)).2 hA
        rcases hnew with hlt | hnot
        · omega
        · rw [hdup] at hnot
          cases hnot
      have hmode : modes[c.streamId]? = some .reliable ∨ modes[c.streamId]? = some .unreliable := by
        rw [getElem?_eq_getElem hid]
        cases modes[c.streamId] with
        | reliable => exact Or.inl rfl
        | unreliable => exact Or.inr rfl
      have hstream : ∀ stream, a.peer.inStreams[c.streamId]? = some stream →
          stream.mode = .reliable → modes[c.streamId]? = some .reliable := by
        intro stream hstream hm
        rw [← h.inStreams, getElem?_map, hstream]
        exact congrArg some hm
      have hsound : RecvTsns.Sound (insert c.tsn (tsnSet a.accepted))
          (unreliableTsns modes a.sent) s₁.tsns := by
        have hU' : c.tsn ∈ unreliableTsns modes a.sent ∨ 1 ≤ c.tsn ∧ c.tsn ∉ tsnSet a.accepted :=
          hmode.symm.imp (fun hm => ⟨c, hc, rfl, hm⟩) fun hm => ⟨h₁, hacc hm⟩
        obtain ⟨r', hr', hs, -⟩ := (h.sound.highest (le_max_left _ c.tsn)).updateRecvTsnBlocks hU'
          (Or.inl (le_max_right _ _))
        obtain rfl := some.inj (hr'.symm.trans htsns)
        exact hs
      have hfilled := h.streams.passToStream h.sorted hc hroom hs₁
        (fun stream hs hm hacc' => hacc (hstream stream hs hm) ⟨c, hacc', rfl⟩)
        (fun hord stream hs => (hin hroom hord hnew).1 stream hs)
        (fun hord stream hs hm => (hin hroom hord hnew).2 (hstream stream hs hm))
      refine ⟨h.sorted, h.bound, h.outStreams, h.seqNum, ?_, fun d hd => ?_, ?_, ?_⟩
      · simp only [map_mode_updateAllStreams, map_mode_passToStream hs₁]
        exact h.inStreams
      · rcases mem_append.1 hd with hd | hd
        · exact h.accepted d hd
        · exact mem_singleton.1 hd ▸ hc
      · simp only [if_true, Receiver.updateAllStreams_tsns, tsnSet_concat]
        exact hsound
      · exact hfilled.updateAllStreams
  · refine ⟨_, by
      simp only [transfer, hget, bind_some, Receiver.processDataChunk, if_neg hroom]
      rfl, ?_⟩
    exact ⟨h.sorted, h.bound, h.outStreams, h.seqNum, h.inStreams, h.accepted, h.sound,
      h.streams.own, h.streams.window, h.streams.settled⟩

theorem forwardTsn (h : TransferInv initialRwnd modes a) {newCum : ℕ}
    (hok : Orderly modes a (.forwardTsn newCum)) :
    ∃ a', transfer.step a (.forwardTsn newCum) = some (a', ()) ∧
      TransferInv initialRwnd modes a' := by
  obtain ⟨hcum, hnew, hover⟩ := hok
  obtain ⟨r', hr', hsound⟩ := h.sound.forwardTsn hcum hnew fun t h₁ ht => by
    obtain ⟨c, hc, htsn, hc'⟩ := hover (t - 1) (by omega)
    have htsn : c.tsn = t := by omega
    exact hc'.imp (fun hacc => ⟨c, hacc, htsn⟩) fun hm => ⟨c, hc, htsn, hm⟩
  refine ⟨_, by simp only [transfer, Receiver.processForwardTsnChunk, hr']; rfl, ?_⟩
  have hfilled : StreamsFilled initialRwnd a.sent a.accepted { a.peer with tsns := r' } :=
    ⟨h.streams.own, h.streams.window, h.streams.filled.filled⟩
  refine ⟨h.sorted, h.bound, h.outStreams, h.seqNum, ?_, h.accepted, ?_, hfilled.updateAllStreams⟩
  · simpa using h.inStreams
  · simpa using hsound

theorem start (initialRwnd : ℕ) (modes : List StreamMode) :
    TransferInv initialRwnd modes (startTransfer initialRwnd modes) := by
  have hstreams : ∀ (i : ℕ) (stream : InStream), (startTransfer initialRwnd modes).peer.inStreams[i]? = some stream →
      stream.nextStreamSeqNum = 0 ∧ stream.bufferedChunkList = [] := by
    intro i stream hi
    simp only [startTransfer, reset, getElem?_map, map_eq_some_iff] at hi
    obtain ⟨mode, -, rfl⟩ := hi
    exact ⟨rfl, rfl⟩
  refine ⟨Pairwise.nil, by simp [startTransfer], fun i hi => ?_, by simp [startTransfer], ?_,
    by simp [startTransfer], ?_, ?_, ?_, fun i stream hi hmode => ?_⟩
  · simp [startTransfer, hi]
  · simp [startTransfer, reset, Function.comp_def]
  · refine ⟨by simp [startTransfer, reset], fun t h₁ ht => ?_, by simp [startTransfer, tsnSet],
      Pairwise.nil, by simp [startTransfer, tsnSet]⟩
    simp only [startTransfer, reset, not_inBlocks_nil, or_false] at ht
    omega
  · intro i stream hi c hc
    rw [(hstreams i stream hi).2] at hc
    cases hc
  · have hnil : modes.flatMap (fun _ => ([] : List DataChunk)) = [] := by simp
    simp [startTransfer, reset, flatMap_map, hnil]
  · obtain ⟨hnext, hbuf⟩ := hstreams i stream hi
    refine ⟨0, [], ⟨⟨hmode, by simp [hnext], by simp [startTransfer], .nil, by simp, ?_⟩,
      Nat.zero_le _, rfl, by simp [startTransfer]⟩, by simp⟩
    rw [hbuf]
    exact .nil

end TransferInv

/-- In every orderly run the chunks of the reliable streams go up in sending order,
each once, and only a missing chunk holds up the ones after it. -/
theorem delivers_of_orderly (initialRwnd : ℕ) (modes : List StreamMode)
    (events : List TransferEvent)
    (hok : transfer.RunsWith (Orderly modes) (startTransfer initialRwnd modes) events) :
    ∃ a as, transfer.run (startTransfer initialRwnd modes) events = some (a, as) ∧
      Delivers initialRwnd modes a := by
  obtain ⟨a, as, hrun, hinv, -⟩ := hok.exists_run (I := TransferInv initialRwnd modes)
    (Q := fun _ _ => True) (fun a e hinv hok => by
      cases e with
      | send streamId length unordered old =>
        obtain ⟨a', ha', hinv'⟩ := hinv.send length unordered old hok.1
        exact ⟨a', (), ha', hinv', trivial⟩
      | data k =>
        obtain ⟨a', ha', hinv'⟩ := hinv.data hok.1 hok.2
        exact ⟨a', (), ha', hinv', trivial⟩
      | forwardTsn newCum =>
        obtain ⟨a', ha', hinv'⟩ := hinv.forwardTsn hok
        exact ⟨a', (), ha', hinv', trivial⟩) (TransferInv.start initialRwnd modes)
  exact ⟨a, as, hrun, hinv.delivers⟩

theorem delivers_of_orderly_reordered : ∃ a as,
    transfer.run (startTransfer 100 [.reliable, .unreliable])
      [.send 0 20 false 0, .send 1 20 false 0, .send 0 30 false 0, .data 2, .data 0, .forwardTsn 2,
        .data 1, .data 2] = some (a, as) ∧ Delivers 100 [.reliable, .unreliable] a :=
  delivers_of_orderly 100 [.reliable, .unreliable] _ (by decide)

/-- The first `n` chunks of one stream. -/
def firstChunks (n : ℕ) : List DataChunk :=
  (range n).map fun i => ⟨i + 1, 0, i % 2 ^ 16, 1, false⟩

/-- Each chunk arrives before the next one is sent. -/
def inTurn : ℕ → List TransferEvent
  | 0 => []
  | n + 1 => inTurn n ++ [.send 0 1 false 0, .data n]

def afterInTurn (n : ℕ) : Transfer :=
  ⟨⟨n, [n % 2 ^ 16]⟩, firstChunks n, firstChunks n,
    ⟨⟨n, n, []⟩, [], 100, [⟨.reliable, n % 2 ^ 16, []⟩], false, firstChunks n⟩⟩

@[simp] theorem length_firstChunks (n : ℕ) : (firstChunks n).length = n := by simp [firstChunks]

theorem firstChunks_succ (n : ℕ) :
    firstChunks (n + 1) = firstChunks n ++ [⟨n + 1, 0, n % 2 ^ 16, 1, false⟩] := by
  simp [firstChunks, range_succ]

/-- The chunks that are sent but have not arrived number less than 2^15. -/
def FewOutstanding (a : Transfer) (_ : TransferEvent) : Prop :=
  a.sent.length < a.accepted.length + 2 ^ 15

theorem run_inTurn (n : ℕ) : ∃ as,
    transfer.run (startTransfer 100 [.reliable]) (inTurn n) = some (afterInTurn n, as) ∧
      transfer.RunsWith FewOutstanding (startTransfer 100 [.reliable]) (inTurn n) := by
  induction n with
  | zero => exact ⟨[], rfl, trivial⟩
  | succ n ih =>
    obtain ⟨as, hrun, hfew⟩ := ih
    have hsend : transfer.step (afterInTurn n) (.send 0 1 false 0) = some ({ afterInTurn n with
        source := ⟨n + 1, [(n + 1) % 2 ^ 16]⟩, sent := firstChunks (n + 1) }, ()) := by
      simp [transfer, afterInTurn, Numbering.genDataChunk, firstChunks_succ]
    have hdata : transfer.step { afterInTurn n with
        source := ⟨n + 1, [(n + 1) % 2 ^ 16]⟩, sent := firstChunks (n + 1) } (.data n) =
        some (afterInTurn (n + 1), ()) := by
      have hget : (firstChunks (n + 1))[n]? = some ⟨n + 1, 0, n % 2 ^ 16, 1, false⟩ := by
        rw [firstChunks_succ, getElem?_append_right (by simp)]
        simp
      simp only [transfer, hget, bind_some]
      simp [afterInTurn, Receiver.processDataChunk, RecvTsns.updateHighestTsn,
        RecvTsns.updateRecvTsnBlocks, RecvTsns.updateBlocksFrom, RecvTsns.updateCumAck,
        RecvTsns.cumAckOver, Receiver.passToStream, insertInStreamBuffer,
        Receiver.updateAllStreams_eq, InStream.update, InStream.passedUp, deliverable,
        firstChunks_succ]
    refine ⟨as ++ [(), ()], ?_, ?_⟩
    · rw [inTurn, transfer.run_append _ hrun, transfer.run_cons _ hsend, transfer.run_cons _ hdata]
      rfl
    · rw [inTurn, Machine.runsWith_append_iff hrun, Machine.runsWith_cons_iff hsend,
        Machine.runsWith_cons_iff hdata]
      simp [hfew, FewOutstanding, afterInTurn, Machine.RunsWith]

/-- The chunk after the wrap has arrived first, and waits in front of the one before it. -/
def afterOvertaking (n : ℕ) : Transfer :=
  ⟨⟨n + 2, [1]⟩, firstChunks (n + 2),
    firstChunks n ++ [⟨n + 2, 0, 0, 1, false⟩] ++ [⟨n + 1, 0, 65535, 1, false⟩],
    ⟨⟨n + 2, n + 2, []⟩, [], 98, [⟨.reliable, 65535,
      [⟨n + 2, 0, 0, 1, false⟩, ⟨n + 1, 0, 65535, 1, false⟩]⟩], false, firstChunks n⟩⟩

section

variable {n : ℕ} (hn : n % 65536 = 65535)
include hn

theorem send_last : transfer.step (afterInTurn n) (.send 0 1 false 0) = some ({ afterInTurn n with
    source := ⟨n + 1, [0]⟩, sent := firstChunks (n + 1) }, ()) := by
  have hn₁ : (n + 1) % 65536 = 0 := by omega
  simp [transfer, afterInTurn, Numbering.genDataChunk, firstChunks_succ, hn₁]

theorem send_first : transfer.step { afterInTurn n with
    source := ⟨n + 1, [0]⟩, sent := firstChunks (n + 1) } (.send 0 1 false 0) =
    some ({ afterInTurn n with source := ⟨n + 2, [1]⟩, sent := firstChunks (n + 2) }, ()) := by
  have hn₁ : (n + 1) % 65536 = 0 := by omega
  simp [transfer, Numbering.genDataChunk, firstChunks_succ, hn₁]

theorem data_first : transfer.step { afterInTurn n with
    source := ⟨n + 2, [1]⟩, sent := firstChunks (n + 2) } (.data (n + 1)) =
    some (⟨⟨n + 2, [1]⟩, firstChunks (n + 2), firstChunks n ++ [⟨n + 2, 0, 0, 1, false⟩],
      ⟨⟨n, n + 2, [⟨n + 2, n + 2⟩]⟩, [], 99,
        [⟨.reliable, 65535, [⟨n + 2, 0, 0, 1, false⟩]⟩], false, firstChunks n⟩⟩, ()) := by
  have hn₁ : (n + 1) % 65536 = 0 := by omega
  have hget : (firstChunks (n + 2))[n + 1]? = some ⟨n + 2, 0, 0, 1, false⟩ := by
    rw [firstChunks_succ, getElem?_append_right (by simp)]
    simp [hn₁]
  simp only [transfer, hget, bind_some]
  simp [afterInTurn, Receiver.processDataChunk, RecvTsns.updateHighestTsn,
    RecvTsns.updateRecvTsnBlocks, RecvTsns.updateBlocksFrom, Receiver.passToStream,
    insertInStreamBuffer, Receiver.updateAllStreams_eq, InStream.update, InStream.passedUp,
    deliverable, hn]

theorem data_last : transfer.step ⟨⟨n + 2, [1]⟩, firstChunks (n + 2),
      firstChunks n ++ [⟨n + 2, 0, 0, 1, false⟩],
      ⟨⟨n, n + 2, [⟨n + 2, n + 2⟩]⟩, [], 99,
        [⟨.reliable, 65535, [⟨n + 2, 0, 0, 1, false⟩]⟩], false, firstChunks n⟩⟩ (.data n) =
    some (afterOvertaking n, ()) := by
  have hget : (firstChunks (n + 2))[n]? = some ⟨n + 1, 0, 65535, 1, false⟩ := by
    rw [firstChunks_succ, firstChunks_succ, append_assoc,
      getElem?_append_right (by simp)]
    simp [hn]
  simp only [transfer, hget, bind_some]
  simp [afterOvertaking, Receiver.processDataChunk, RecvTsns.updateHighestTsn,
    RecvTsns.isDuplicateChunk, RecvTsns.findTsn, RecvTsns.updateRecvTsnBlocks,
    RecvTsns.updateBlocksFrom, RecvTsns.updateCumAck, RecvTsns.cumAckOver, Receiver.passToStream,
    insertInStreamBuffer, Receiver.updateAllStreams_eq, InStream.update, InStream.passedUp,
    deliverable]

theorem run_overtaking :
    transfer.run (afterInTurn n) [.send 0 1 false 0, .send 0 1 false 0, .data (n + 1), .data n]
      = some (afterOvertaking n, [(), (), (), ()]) ∧
    transfer.RunsWith FewOutstanding (afterInTurn n)
      [.send 0 1 false 0, .send 0 1 false 0, .data (n + 1), .data n] := by
  constructor
  · rw [transfer.run_cons _ (send_last hn), transfer.run_cons _ (send_first hn),
      transfer.run_cons _ (data_first hn), transfer.run_cons _ (data_last hn)]
    rfl
  · rw [Machine.runsWith_cons_iff (send_last hn), Machine.runsWith_cons_iff (send_first hn),
      Machine.runsWith_cons_iff (data_first hn), Machine.runsWith_cons_iff (data_last hn)]
    refine ⟨?_, ?_, ?_, ?_, trivial⟩
    all_goals
      simp only [FewOutstanding, afterInTurn, length_firstChunks, length_append,
        List.length_singleton]
      omega

theorem accepted_afterOvertaking :
    ∀ c ∈ (afterOvertaking n).sent, c ∈ (afterOvertaking n).accepted := by
  have hn₁ : (n + 1) % 65536 = 0 := by omega
  intro c hc
  rw [afterOvertaking, firstChunks_succ, firstChunks_succ] at hc
  simp only [Nat.reducePow, hn, hn₁, mem_append, mem_singleton] at hc
  simp only [afterOvertaking, mem_append, mem_singleton]
  tauto

end

/-- All chunks have arrived, but chunk 65536 waits in front of chunk 65535 for good. -/
theorem not_delivers_overtaking : ∃ events a as,
    transfer.run (startTransfer 100 [.reliable]) events = some (a, as) ∧
    transfer.RunsWith FewOutstanding (startTransfer 100 [.reliable]) events ∧
    (∀ c ∈ a.sent, c ∈ a.accepted) ∧ ¬ Delivers 100 [.reliable] a := by
  obtain ⟨n, hn⟩ : ∃ n, n % 65536 = 65535 := ⟨65535, rfl⟩
  obtain ⟨as, hrun, hfew⟩ := run_inTurn n
  obtain ⟨hrun', hfew'⟩ := run_overtaking hn
  have hall := accepted_afterOvertaking hn
  refine ⟨_, afterOvertaking n, as ++ [(), (), (), ()], (transfer.run_append _ hrun).trans ?_,
    (Machine.runsWith_append_iff hrun).2 ⟨hfew, hfew'⟩, hall, fun hd => ?_⟩
  · rw [hrun']
    rfl
  · obtain ⟨d, hd', -, hnot⟩ := hd.notStuck 0 _ rfl rfl ⟨n + 2, 0, 0, 1, false⟩ (by simp)
    exact hnot (hall d (mem_ordered.1 hd').1)

end Ns2.Sctp
