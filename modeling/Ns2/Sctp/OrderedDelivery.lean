import Ns2.Sctp.StreamOrder

/-! A sender numbers its chunks, the network loses, repeats and reorders them, and
the receiver hands the ordered chunks of its reliable streams up in sending order,
as long as no chunk overtakes the wrap of the 16-bit stream sequence numbers. -/

namespace Ns2.Sctp

open List

variable {f : InStream → List DataChunk} {streams : List InStream}

/-- The numbers the sender gives out next: the TSN, and one for each stream. -/
structure Numbering where
  nextTsn : ℕ
  outStreams : List ℕ
  deriving DecidableEq, Repr

/-- `GenChunk` for a DATA chunk. An unordered chunk is not numbered in its stream:
it carries the number `old` that its memory held. -/
def Numbering.genDataChunk (g : Numbering) (streamId length : ℕ) (unordered : Bool) (old : ℕ) :
    Option (DataChunk × Numbering) :=
  if unordered then
    some (⟨g.nextTsn + 1, streamId, old, length, true⟩, ⟨g.nextTsn + 1, g.outStreams⟩)
  else
    g.outStreams[streamId]?.map fun next =>
      (⟨g.nextTsn + 1, streamId, next, length, false⟩,
        ⟨g.nextTsn + 1, g.outStreams.set streamId ((next + 1) % 2 ^ 16)⟩)

/-- A sender and its peer, with all chunks sent so far and those that were accepted. -/
structure Transfer where
  source : Numbering
  sent : List DataChunk
  accepted : List DataChunk
  peer : Receiver
  deriving DecidableEq, Repr

inductive TransferEvent
  | send (streamId length : ℕ) (unordered : Bool) (old : ℕ)
  | data (k : ℕ)
  | forwardTsn (newCum : ℕ)
  deriving DecidableEq, Repr

/-- A chunk is sent, or a copy of the `k`-th chunk sent arrives, or a FORWARD TSN. -/
def transfer : Machine Transfer TransferEvent Unit where
  step
    | a, .send streamId length unordered old =>
      (a.source.genDataChunk streamId length unordered old).map fun (c, source) =>
        ({ a with source := source, sent := a.sent ++ [c] }, ())
    | a, .data k =>
      a.sent[k]?.bind fun c => (a.peer.processDataChunk c).map fun (peer, treatment) =>
        ({ a with
          peer := peer
          accepted := if treatment = .accepted then a.accepted ++ [c] else a.accepted }, ())
    | a, .forwardTsn newCum =>
      (a.peer.processForwardTsnChunk newCum).map fun (peer, _) => ({ a with peer := peer }, ())

def startTransfer (initialRwnd : ℕ) (modes : List StreamMode) : Transfer :=
  ⟨⟨0, modes.map fun _ => 0⟩, [], [], reset initialRwnd modes⟩

/-- The ordered chunks of one stream. -/
def ordered (i : ℕ) (l : List DataChunk) : List DataChunk :=
  l.filter fun c => c.streamId = i ∧ c.unordered = false

/-- Of the chunks sent on a reliable stream the upper layer has got those up to the
first that has not arrived, and a chunk waits only for an earlier one. A chunk that
arrives with room for it is accepted. The window lacks the bytes that wait. -/
structure Delivers (initialRwnd : ℕ) (modes : List StreamMode) (a : Transfer) : Prop where
  inOrder : ∀ i, modes[i]? = some .reliable →
    ordered i a.peer.upperLayer = (ordered i a.sent).takeWhile (· ∈ a.accepted)
  notStuck : ∀ i stream, a.peer.inStreams[i]? = some stream → modes[i]? = some .reliable →
    ∀ c ∈ stream.bufferedChunkList, ∃ d ∈ ordered i a.sent, d.tsn < c.tsn ∧ d ∉ a.accepted
  arrives : ∀ (k : ℕ) c a', a.sent[k]? = some c → modes[c.streamId]? = some .reliable →
    c.length ≤ a.peer.myRwnd → transfer.step a (.data k) = some (a', ()) → c ∈ a'.accepted
  window : a.peer.myRwnd + totalLength (a.peer.inStreams.flatMap InStream.bufferedChunkList)
    = initialRwnd

/-- An ordered chunk that is taken for new finds no waiting chunk with its sequence
number, and on a reliable stream all chunks of the earlier blocks of 2^16 have arrived. -/
def InBlock (modes : List StreamMode) (a : Transfer) (c : DataChunk) : Prop :=
  c.length ≤ a.peer.myRwnd → c.unordered = false →
    a.peer.tsns.highestRecvTsn < c.tsn ∨ a.peer.tsns.isDuplicateChunk c.tsn = false →
    (∀ stream ∈ a.peer.inStreams[c.streamId]?, ∀ d ∈ stream.bufferedChunkList,
      d.streamSeqNum ≠ c.streamSeqNum) ∧
    (modes[c.streamId]? = some .reliable →
      ∀ d ∈ (ordered c.streamId a.sent).take
        ((ordered c.streamId a.sent).idxOf c / 2 ^ 16 * 2 ^ 16), d ∈ a.accepted)

/-- A FORWARD TSN passes over chunks that were accepted or are of unreliable streams. -/
def Orderly (modes : List StreamMode) (a : Transfer) : TransferEvent → Prop
  | .send streamId _ _ _ => streamId < modes.length ∧ a.source.nextTsn + 2 < 2 ^ 32
  | .data k => k < a.sent.length ∧ ∀ c ∈ a.sent[k]?, InBlock modes a c
  | .forwardTsn newCum => a.peer.tsns.cumAck < RecvTsns.intMax ∧ newCum < RecvTsns.intMax ∧
      ∀ t < newCum, ∃ c ∈ a.sent, c.tsn = t + 1 ∧
        (c ∈ a.accepted ∨ modes[c.streamId]? = some .unreliable)

instance (modes : List StreamMode) (a : Transfer) (c : DataChunk) : Decidable (InBlock modes a c) := by
  unfold InBlock
  infer_instance

instance (modes : List StreamMode) (a : Transfer) : ∀ e, Decidable (Orderly modes a e)
  | .send streamId _ _ _ =>
    inferInstanceAs (Decidable (streamId < modes.length ∧ a.source.nextTsn + 2 < 2 ^ 32))
  | .data k =>
    inferInstanceAs (Decidable (k < a.sent.length ∧ ∀ c ∈ a.sent[k]?, InBlock modes a c))
  | .forwardTsn newCum =>
    inferInstanceAs (Decidable (a.peer.tsns.cumAck < RecvTsns.intMax ∧ newCum < RecvTsns.intMax ∧
      ∀ t < newCum, ∃ c ∈ a.sent, c.tsn = t + 1 ∧
        (c ∈ a.accepted ∨ modes[c.streamId]? = some .unreliable)))

variable {modes : List StreamMode} {initialRwnd i n m E : ℕ} {a a' : Transfer} {c d : DataChunk}
  {s s' : Receiver} {stream : InStream} {ns : List ℕ} {l l₁ l₂ L acc up : List DataChunk}

@[simp] theorem ordered_nil : ordered i [] = [] := rfl

@[simp] theorem ordered_append : ordered i (l₁ ++ l₂) = ordered i l₁ ++ ordered i l₂ :=
  filter_append _ _

theorem mem_ordered : c ∈ ordered i l ↔ c ∈ l ∧ c.streamId = i ∧ c.unordered = false := by
  simp [ordered]

theorem ordered_eq_self (h : ∀ c ∈ l, c.streamId = i ∧ c.unordered = false) : ordered i l = l :=
  filter_eq_self.2 fun c hc => by simpa using h c hc

theorem ordered_eq_nil (h : ∀ c ∈ l, c.streamId = i → c.unordered = true) : ordered i l = [] :=
  filter_eq_nil_iff.2 fun c hc => by
    have := h c hc
    simp only [decide_eq_true_eq, not_and]
    intro hi
    simp [this hi]

theorem exists_right_of_forall₂ {α β : Type*} {R : α → β → Prop} {xs : List α} {ys : List β}
    {x : α} (h : Forall₂ R xs ys) (hx : x ∈ xs) : ∃ y ∈ ys, R x y := by
  induction h with
  | nil => cases hx
  | cons hxy _ ih =>
    rcases mem_cons.1 hx with rfl | hx
    · exact ⟨_, mem_cons_self, hxy⟩
    · obtain ⟨y, hy, hxy⟩ := ih hx
      exact ⟨y, mem_cons_of_mem _ hy, hxy⟩

/-- The reliable stream before `update`: its numbers may include the next one. -/
def Filled (L acc up : List DataChunk) (E : ℕ) (ns : List ℕ) (stream : InStream) : Prop :=
  Waiting L E ns stream ∧ E ≤ L.length ∧ up = L.take E ∧
    ∀ n c, L[n]? = some c → (c ∈ acc ↔ n < E ∨ n ∈ ns)

/-- The reliable stream after `update`: it waits for the next number. -/
def Settled (L acc up : List DataChunk) (stream : InStream) : Prop :=
  ∃ E ns, Filled L acc up E ns stream ∧ ∀ n ∈ ns, E < n

theorem Filled.update {cumAck : ℕ} (h : Filled L acc up E ns stream) :
    Settled L acc (up ++ stream.passedUp cumAck) (stream.update cumAck) := by
  obtain ⟨⟨hmode, hnext, hseq, hsorted, hblock, hchunks⟩, hE, hup, hacc⟩ := h
  obtain ⟨E', ns', hw, hpast, hle, hmem, htake⟩ :=
    deliverable_reliable cumAck hseq hsorted hblock hchunks
  rw [InStream.passedUp, InStream.update, hmode, hnext, hup]
  refine ⟨E', ns', ⟨hw, ?_, htake, fun n c hc => ?_⟩, hpast⟩
  · rcases hle.eq_or_lt with rfl | hlt
    · exact hE
    · have hin : E' - 1 ∈ ns := (hmem (E' - 1) (by omega)).1 (Or.inl (by omega))
      obtain ⟨c, -, hc⟩ := exists_right_of_forall₂ hchunks hin
      have := (List.getElem?_eq_some_iff.1 hc).1
      omega
  · rw [hacc n c hc]
    rcases Nat.lt_or_ge n E with hlt | hge
    · simp [hlt, hlt.trans_le hle]
    · rw [← hmem n hge]
      simp only [or_iff_right (not_lt.2 hge)]

section

variable (h : Settled L acc up stream)
include h

theorem Settled.filled : ∃ E ns, Filled L acc up E ns stream :=
  let ⟨E, ns, hf, _⟩ := h
  ⟨E, ns, hf⟩

theorem Settled.insert (hnodup : L.Nodup) (hc : L[m]? = some c)
    (hnew : c ∉ acc) (hblock : ∀ d ∈ L.take (m / 2 ^ 16 * 2 ^ 16), d ∈ acc) :
    ∃ E ns, Filled L (acc ++ [c]) up E ns
      { stream with bufferedChunkList := insertInStreamBuffer c stream.bufferedChunkList } := by
  obtain ⟨E, ns, ⟨⟨hmode, hnext, hseq, hsorted, hblocks, hchunks⟩, hE, hup, hacc⟩, hpast⟩ := h
  obtain ⟨hEm, hm⟩ := not_or.1 (mt (hacc m c hc).2 hnew)
  obtain ⟨hmL, -⟩ := List.getElem?_eq_some_iff.1 hc
  have hsame : m / 2 ^ 16 = E / 2 ^ 16 := by
    by_contra hne
    have hEL : E < L.length := by omega
    have hmem : L[E] ∈ acc := hblock _ (mem_take_iff_getElem.2 ⟨E, by omega, rfl⟩)
    rcases (hacc E _ (getElem?_eq_getElem hEL)).1 hmem with hlt | hin
    · exact lt_irrefl E hlt
    · exact lt_irrefl E (hpast E hin)
  obtain ⟨ns', hsorted', hmem', hchunks'⟩ := insertInStreamBuffer_chunks hseq hsorted
    (fun n hn => ((hblocks n hn).2).trans hsame.symm) hm hc hchunks
  refine ⟨E, ns', ⟨hmode, hnext, hseq, hsorted', fun n hn => ?_, hchunks'⟩, hE, hup,
    fun n d hd => ?_⟩
  · rcases (hmem' n).1 hn with rfl | hn
    · exact ⟨by omega, hsame⟩
    · exact hblocks n hn
  · have hdc : d = c ↔ n = m := by
      obtain ⟨hn, rfl⟩ := List.getElem?_eq_some_iff.1 hd
      obtain ⟨_, rfl⟩ := List.getElem?_eq_some_iff.1 hc
      exact Nodup.getElem_inj_iff hnodup
    rw [mem_append, mem_singleton, hacc n d hd, hmem', hdc]
    tauto

theorem Settled.append
    (hseq : ∀ n c, (L ++ l)[n]? = some c → c.streamSeqNum = n % 2 ^ 16) (hl : ∀ c ∈ l, c ∉ acc) :
    Settled (L ++ l) acc up stream := by
  obtain ⟨E, ns, ⟨⟨hmode, hnext, -, hsorted, hblocks, hchunks⟩, hE, hup, hacc⟩, hpast⟩ := h
  refine ⟨E, ns, ⟨⟨hmode, hnext, hseq, hsorted, hblocks, hchunks.imp fun n c hc => ?_⟩, ?_, ?_,
    fun n c hc => ?_⟩, hpast⟩
  · rw [List.getElem?_append_left (List.getElem?_eq_some_iff.1 hc).1, hc]
  · rw [List.length_append]
    omega
  · rw [hup, take_append_of_le_length hE]
  · rcases Nat.lt_or_ge n L.length with hlt | hge
    · rw [List.getElem?_append_left hlt] at hc
      exact hacc n c hc
    · have hnot : n ∉ ns := by
        intro hin
        obtain ⟨d, -, hd⟩ := exists_right_of_forall₂ hchunks hin
        have := (List.getElem?_eq_some_iff.1 hd).1
        omega
      rw [List.getElem?_append_right hge] at hc
      refine iff_of_false (hl c (mem_of_getElem? hc)) ?_
      rintro (hlt | hin)
      · omega
      · exact hnot hin

theorem Settled.of_mem_iff {acc' : List DataChunk}
    (hacc : ∀ c ∈ L, (c ∈ acc' ↔ c ∈ acc)) : Settled L acc' up stream := by
  obtain ⟨E, ns, ⟨hw, hE, hup, hiff⟩, hpast⟩ := h
  exact ⟨E, ns, ⟨hw, hE, hup, fun n c hc =>
    (hacc c (mem_of_getElem? hc)).trans (hiff n c hc)⟩, hpast⟩

theorem Settled.takeWhile : up = L.takeWhile (· ∈ acc) := by
  obtain ⟨E, ns, ⟨-, hE, hup, hacc⟩, hpast⟩ := h
  rw [hup]
  conv_rhs => rw [← take_append_drop E L]
  rw [takeWhile_append_of_pos]
  · cases hd : L.drop E with
    | nil => simp
    | cons c rest =>
      have hc : L[E]? = some c := by
        rw [← head?_drop, hd]
        rfl
      have hnot : c ∉ acc := by
        rw [hacc E c hc]
        rintro (hlt | hin)
        · exact lt_irrefl E hlt
        · exact lt_irrefl E (hpast E hin)
      simp [hnot]
  · intro c hc
    obtain ⟨n, hn, rfl⟩ := mem_take_iff_getElem.1 hc
    exact decide_eq_true ((hacc n _ (getElem?_eq_getElem (by omega))).2 (Or.inl (by omega)))

theorem Settled.waits_for (hL : L.Pairwise fun c d => c.tsn < d.tsn)
    (hc : c ∈ stream.bufferedChunkList) : ∃ d ∈ L, d.tsn < c.tsn ∧ d ∉ acc := by
  obtain ⟨E, ns, ⟨hw, hE, -, hacc⟩, hpast⟩ := h
  obtain ⟨n, hn, hnc⟩ := exists_right_of_forall₂ hw.chunks.flip hc
  obtain ⟨hnL, rfl⟩ := List.getElem?_eq_some_iff.1 hnc
  have hlt := hpast n hn
  refine ⟨L[E], List.getElem_mem _, List.pairwise_iff_getElem.1 hL E n (by omega) hnL hlt, ?_⟩
  rw [hacc E _ (getElem?_eq_getElem (by omega))]
  rintro (hlt | hin)
  · exact lt_irrefl E hlt
  · exact lt_irrefl E (hpast E hin)

end

/-- The chunks that the streams hold are of their own stream, and ordered. -/
def OwnChunks (f : InStream → List DataChunk) (streams : List InStream) : Prop :=
  ∀ i stream, streams[i]? = some stream → ∀ c ∈ f stream, c.streamId = i ∧ c.unordered = false

theorem ordered_flatMap_aux {k : ℕ}
    (h : ∀ i stream, streams[i]? = some stream →
      ∀ c ∈ f stream, c.streamId = k + i ∧ c.unordered = false) :
    (∀ j < k, ordered j (streams.flatMap f) = []) ∧
    ∀ i stream, streams[i]? = some stream → ordered (k + i) (streams.flatMap f) = f stream := by
  induction streams generalizing k with
  | nil => simp
  | cons first streams ih =>
    have hfirst := h 0 first rfl
    obtain ⟨hbelow, hat⟩ := ih (k := k + 1) fun i stream hi c hc => by
      obtain ⟨hid, hord⟩ := h (i + 1) stream hi c hc
      exact ⟨by omega, hord⟩
    have hother : ∀ j, j ≠ k → ordered j (f first) = [] := fun j hj =>
      ordered_eq_nil fun c hc hid => by
        have := (hfirst c hc).1
        omega
    constructor
    · intro j hj
      rw [flatMap_cons, ordered_append, hother j (by omega), hbelow j (by omega)]
      rfl
    · rintro (_ | i) stream hi
      · obtain rfl : first = stream := Option.some.inj hi
        rw [flatMap_cons, ordered_append, ordered_eq_self hfirst, Nat.add_zero,
          hbelow k (Nat.lt_succ_self k), append_nil]
      · have := hat i stream hi
        rw [flatMap_cons, ordered_append, hother _ (by omega), nil_append,
          show k + (i + 1) = k + 1 + i by omega, this]

theorem ordered_flatMap (h : OwnChunks f streams) (hi : streams[i]? = some stream) :
    ordered i (streams.flatMap f) = f stream := by
  have := (ordered_flatMap_aux (k := 0) (f := f) fun j stream hj c hc => by
    rw [Nat.zero_add]
    exact h j stream hj c hc).2 i stream hi
  simpa using this

theorem totalLength_update (cumAck : ℕ) (streams : List InStream) :
    totalLength (streams.flatMap (InStream.passedUp cumAck)) +
      totalLength ((streams.map (InStream.update cumAck)).flatMap InStream.bufferedChunkList) =
      totalLength (streams.flatMap InStream.bufferedChunkList) := by
  induction streams with
  | nil => rfl
  | cons stream streams ih =>
    have := congrArg totalLength (InStream.passedUp_append cumAck stream)
    simp only [map_cons, flatMap_cons, totalLength_append] at *
    omega

theorem insertInStreamBuffer_perm {buffer : List DataChunk}
    (h : ∀ d ∈ buffer, d.streamSeqNum ≠ c.streamSeqNum) :
    (insertInStreamBuffer c buffer).Perm (c :: buffer) := by
  induction buffer with
  | nil => exact Perm.refl _
  | cons d buffer ih =>
    rw [insertInStreamBuffer]
    split_ifs with hle heq
    · exact absurd heq (h d mem_cons_self)
    · exact Perm.refl _
    · exact ((ih fun e he => h e (mem_cons_of_mem _ he)).cons d).trans (Perm.swap c d _)

theorem totalLength_set (hi : streams[i]? = some stream) (stream' : InStream) :
    totalLength ((streams.set i stream').flatMap InStream.bufferedChunkList) +
      totalLength stream.bufferedChunkList =
    totalLength (streams.flatMap InStream.bufferedChunkList) +
      totalLength stream'.bufferedChunkList := by
  obtain ⟨hlt, rfl⟩ := List.getElem?_eq_some_iff.1 hi
  obtain ⟨l₁, l₂, h₁, -, h₂⟩ : ∃ l₁ l₂, streams = l₁ ++ streams[i] :: l₂ ∧ l₁.length = i ∧
      streams.set i stream' = l₁ ++ stream' :: l₂ := List.exists_of_set hlt
  rw [h₂]
  conv_rhs => rw [h₁]
  simp only [flatMap_append, flatMap_cons, totalLength_append]
  omega

/-- What holds of the receiver's streams, `sent` and `acc` being the chunks sent and accepted. -/
structure StreamsHold (initialRwnd : ℕ) (sent acc : List DataChunk) (s : Receiver) : Prop where
  own : OwnChunks InStream.bufferedChunkList s.inStreams
  window : s.myRwnd + totalLength (s.inStreams.flatMap InStream.bufferedChunkList) = initialRwnd
  settled : ∀ i stream, s.inStreams[i]? = some stream → stream.mode = .reliable →
    Settled (ordered i sent) acc (ordered i s.upperLayer) stream

/-- The same before `updateAllStreams`. -/
structure StreamsFilled (initialRwnd : ℕ) (sent acc : List DataChunk) (s : Receiver) : Prop where
  own : OwnChunks InStream.bufferedChunkList s.inStreams
  window : s.myRwnd + totalLength (s.inStreams.flatMap InStream.bufferedChunkList) = initialRwnd
  filled : ∀ i stream, s.inStreams[i]? = some stream → stream.mode = .reliable →
    ∃ E ns, Filled (ordered i sent) acc (ordered i s.upperLayer) E ns stream

variable {sent : List DataChunk}

theorem StreamsHold.filled (h : StreamsHold initialRwnd sent acc s) :
    StreamsFilled initialRwnd sent acc s :=
  ⟨h.own, h.window, fun i stream hi hmode => (h.settled i stream hi hmode).filled⟩

theorem StreamsFilled.updateAllStreams (h : StreamsFilled initialRwnd sent acc s) :
    StreamsHold initialRwnd sent acc s.updateAllStreams := by
  have hown : OwnChunks (InStream.passedUp s.tsns.cumAck) s.inStreams := fun i stream hi c hc =>
    h.own i stream hi c (InStream.mem_of_mem_passedUp hc)
  rw [Receiver.updateAllStreams_eq]
  refine ⟨fun i stream hi c hc => ?_, ?_, fun i stream hi hmode => ?_⟩
  · simp only [getElem?_map, Option.map_eq_some_iff] at hi
    obtain ⟨stream, hi, rfl⟩ := hi
    exact h.own i stream hi c (InStream.mem_of_mem_update hc)
  · have := totalLength_update s.tsns.cumAck s.inStreams
    have := h.window
    simp only
    omega
  · simp only [getElem?_map, Option.map_eq_some_iff] at hi
    obtain ⟨stream, hi, rfl⟩ := hi
    obtain ⟨E, ns, hf⟩ := h.filled i stream hi (InStream.update_mode.symm.trans hmode)
    simp only [ordered_append, ordered_flatMap hown hi]
    exact hf.update

end Ns2.Sctp
