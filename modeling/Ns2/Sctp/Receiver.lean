import Ns2.Lib.Machine

/-! The receiving side of an SCTP association: which TSNs have arrived, which
chunks are duplicates, and the delivery of chunks to their streams. TSNs stay
below 2^32, where unsigned arithmetic does not wrap. -/

namespace Ns2.Sctp

open List

structure DataChunk where
  tsn : ℕ
  streamId : ℕ
  streamSeqNum : ℕ
  length : ℕ
  unordered : Bool
  deriving DecidableEq, Repr

inductive StreamMode
  | reliable
  | unreliable
  deriving DecidableEq, Repr

/-- A stream of the receiver; its sequence numbers have 16 bits. -/
structure InStream where
  mode : StreamMode
  nextStreamSeqNum : ℕ
  bufferedChunkList : List DataChunk
  deriving DecidableEq, Repr

structure RecvTsnBlock where
  startTsn : ℕ
  endTsn : ℕ
  deriving DecidableEq, Repr

/-- The receiver's record of the TSNs that arrived. -/
structure RecvTsns where
  cumAck : ℕ
  highestRecvTsn : ℕ
  recvTsnBlockList : List RecvTsnBlock
  deriving DecidableEq, Repr

namespace RecvTsns

def updateHighestTsn (r : RecvTsns) (tsn : ℕ) : RecvTsns × Bool :=
  if r.highestRecvTsn < tsn then ({ r with highestRecvTsn := tsn }, true) else (r, false)

/-- The search of `isDuplicateChunk`, which stops at a block that ends above the TSN. -/
def findTsn (tsn : ℕ) : List RecvTsnBlock → Bool
  | [] => false
  | b :: blocks =>
    if b.startTsn ≤ tsn ∧ tsn ≤ b.endTsn then true
    else if tsn < b.endTsn then false
    else findTsn tsn blocks

def isDuplicateChunk (r : RecvTsns) (tsn : ℕ) : Bool :=
  if tsn ≤ r.cumAck then true
  else if ¬ (r.cumAck < tsn ∧ tsn ≤ r.highestRecvTsn) then false
  else if r.recvTsnBlockList.length = 0 then false
  else findTsn tsn r.recvTsnBlockList

def cumAckOver : ℕ → List RecvTsnBlock → ℕ
  | cumAck, [] => cumAck
  | cumAck, b :: blocks =>
    if cumAck + 1 = b.startTsn then cumAckOver b.endTsn blocks else cumAck

def updateCumAck (r : RecvTsns) : RecvTsns :=
  { r with cumAck := cumAckOver r.cumAck r.recvTsnBlockList }

/-- The loop of `updateRecvTsnBlocks`: `before` are the blocks it has passed, the
last one first, and `none` is a null `spPrevNode`. -/
def updateBlocksFrom (r : RecvTsns) (tsn : ℕ) (before : List RecvTsnBlock) (low : ℕ) :
    List RecvTsnBlock → Option RecvTsns
  | [] =>
    if tsn = low then
      if tsn = r.cumAck + 1 then some (updateCumAck { r with cumAck := tsn })
      else
        match before with
        | [] => some r
        | prev :: before =>
          some { r with
            recvTsnBlockList := before.reverse ++ [{ prev with endTsn := prev.endTsn + 1 }] }
    else some { r with recvTsnBlockList := before.reverse ++ [⟨tsn, tsn⟩] }
  | curr :: rest =>
    let high := curr.startTsn - 1
    if low ≤ tsn ∧ tsn ≤ high then
      if 1 < high - low + 1 then
        if tsn = high then
          some (updateCumAck { r with
            recvTsnBlockList := before.reverse ++ { curr with startTsn := tsn } :: rest })
        else if tsn = low then
          if tsn = r.cumAck + 1 then some (updateCumAck { r with cumAck := r.cumAck + 1 })
          else
            match before with
            | [] => none
            | prev :: before =>
              some (updateCumAck { r with
                recvTsnBlockList :=
                  before.reverse ++ { prev with endTsn := tsn } :: curr :: rest })
        else some { r with recvTsnBlockList := before.reverse ++ ⟨tsn, tsn⟩ :: curr :: rest }
      else if low = r.cumAck + 1 then
        some (updateCumAck { r with
          cumAck := curr.endTsn, recvTsnBlockList := before.reverse ++ rest })
      else
        match before with
        | [] => none
        | prev :: before =>
          some (updateCumAck { r with
            recvTsnBlockList := before.reverse ++ { prev with endTsn := curr.endTsn } :: rest })
    else updateBlocksFrom r tsn (curr :: before) (curr.endTsn + 1) rest

def updateRecvTsnBlocks (r : RecvTsns) (tsn : ℕ) : Option RecvTsns :=
  updateBlocksFrom r tsn [] (r.cumAck + 1) r.recvTsnBlockList

def intMax : ℕ := 2 ^ 31 - 1

/-- The loop of `ProcessForwardTsnChunk`. Its counter and bound are of type `int`:
`none` is a number that does not fit, or a counter that overflows. -/
def forwardTsn (r : RecvTsns) (newCum : ℕ) : Option RecvTsns :=
  if r.cumAck < intMax ∧ newCum < intMax then
    (range' (r.cumAck + 1) (newCum - r.cumAck)).foldlM (fun r i =>
      if r.isDuplicateChunk i then some r else r.updateRecvTsnBlocks i) r
  else none

end RecvTsns

structure Receiver where
  tsns : RecvTsns
  dupTsnList : List ℕ
  myRwnd : ℕ
  inStreams : List InStream
  sackChunkNeeded : Bool
  upperLayer : List DataChunk
  deriving DecidableEq, Repr

/-- The receiver after `Reset` and the set-up of its streams. -/
def reset (initialRwnd : ℕ) (modes : List StreamMode) : Receiver :=
  ⟨⟨0, 0, []⟩, [], initialRwnd, modes.map fun mode => ⟨mode, 0, []⟩, false, []⟩

def insertDuplicateTsn (tsn : ℕ) : List ℕ → List ℕ
  | [] => [tsn]
  | curr :: rest =>
    if tsn ≤ curr then if tsn = curr then curr :: rest else tsn :: curr :: rest
    else curr :: insertDuplicateTsn tsn rest

namespace Receiver

/-- The hook for the upper layer, which takes every chunk at once. -/
def passToUpperLayer (s : Receiver) (c : DataChunk) : Receiver :=
  { s with myRwnd := s.myRwnd + c.length, upperLayer := s.upperLayer ++ [c] }

end Receiver

def insertInStreamBuffer (c : DataChunk) : List DataChunk → List DataChunk
  | [] => [c]
  | curr :: rest =>
    if c.streamSeqNum ≤ curr.streamSeqNum then
      if curr.streamSeqNum = c.streamSeqNum then curr :: rest else c :: curr :: rest
    else curr :: insertInStreamBuffer c rest

namespace Receiver

/-- `none` is a stream number past the end of the array of streams. -/
def passToStream (s : Receiver) (c : DataChunk) : Option Receiver :=
  s.inStreams[c.streamId]?.map fun stream =>
    if c.unordered then s.passToUpperLayer c
    else { s with
      inStreams := s.inStreams.set c.streamId { stream with
        bufferedChunkList := insertInStreamBuffer c stream.bufferedChunkList } }

end Receiver

/-- The chunks of one stream that `updateAllStreams` passes up, and the stream after them. -/
def deliverable (cumAck : ℕ) (mode : StreamMode) (next : ℕ) :
    List DataChunk → List DataChunk × InStream
  | [] => ([], ⟨mode, next, []⟩)
  | c :: buffered =>
    if mode = .unreliable ∧ c.tsn ≤ cumAck then
      let (up, stream) := deliverable cumAck mode ((c.streamSeqNum + 1) % 2 ^ 16) buffered
      (c :: up, stream)
    else if c.streamSeqNum = next then
      let (up, stream) := deliverable cumAck mode ((next + 1) % 2 ^ 16) buffered
      (c :: up, stream)
    else ([], ⟨mode, next, c :: buffered⟩)

namespace Receiver

def updateStream (s : Receiver) (i : ℕ) : Receiver :=
  match s.inStreams[i]? with
  | none => s
  | some stream =>
    let (up, stream') := deliverable s.tsns.cumAck stream.mode stream.nextStreamSeqNum
      stream.bufferedChunkList
    up.foldl passToUpperLayer { s with inStreams := s.inStreams.set i stream' }

def updateAllStreams (s : Receiver) : Receiver :=
  (range s.inStreams.length).foldl updateStream s

end Receiver

/-- How a chunk was treated. -/
inductive Treatment
  | accepted
  | duplicate
  | dropped
  | forwarded
  deriving DecidableEq, Repr

namespace Receiver

def processDataChunk (s : Receiver) (c : DataChunk) : Option (Receiver × Treatment) :=
  if c.length ≤ s.myRwnd then
    let (tsns, updated) := s.tsns.updateHighestTsn c.tsn
    if updated ≠ true ∧ tsns.isDuplicateChunk c.tsn = true then
      some ({ s with
        tsns := tsns, dupTsnList := insertDuplicateTsn c.tsn s.dupTsnList,
        sackChunkNeeded := true }, .duplicate)
    else do
      let tsns ← tsns.updateRecvTsnBlocks c.tsn
      let s ← passToStream { s with tsns := tsns, myRwnd := s.myRwnd - c.length } c
      some (s.updateAllStreams, .accepted)
  else some ({ s with sackChunkNeeded := false }, .dropped)

def processForwardTsnChunk (s : Receiver) (newCum : ℕ) : Option (Receiver × Treatment) :=
  (s.tsns.forwardTsn newCum).map fun tsns =>
    (updateAllStreams { s with tsns := tsns }, .forwarded)

end Receiver

inductive Chunk
  | data (c : DataChunk)
  | forwardTsn (newCum : ℕ)
  deriving DecidableEq, Repr

/-- The receiver, fed with one chunk after the other. -/
def receiver : Machine Receiver Chunk Treatment where
  step
    | s, .data c => s.processDataChunk c
    | s, .forwardTsn newCum => s.processForwardTsnChunk newCum

open List

variable {cumAck tsn lo t : ℕ} {b : RecvTsnBlock} {pre post l l₁ l₂ : List RecvTsnBlock}

def InBlocks (l : List RecvTsnBlock) (t : ℕ) : Prop := ∃ b ∈ l, b.startTsn ≤ t ∧ t ≤ b.endTsn

@[simp] theorem not_inBlocks_nil : ¬ InBlocks [] t := by simp [InBlocks]

@[simp] theorem inBlocks_cons :
    InBlocks (b :: l) t ↔ (b.startTsn ≤ t ∧ t ≤ b.endTsn) ∨ InBlocks l t := by
  simp [InBlocks]

@[simp] theorem inBlocks_append : InBlocks (l₁ ++ l₂) t ↔ InBlocks l₁ t ∨ InBlocks l₂ t := by
  simp only [InBlocks, mem_append, or_and_right, exists_or]

/-- The end of the last block, or the cum ack where there is none. -/
def lastEnd (cumAck : ℕ) (pre : List RecvTsnBlock) : ℕ :=
  match pre.getLast? with
  | none => cumAck
  | some b => b.endTsn

@[simp] theorem lastEnd_nil : lastEnd cumAck [] = cumAck := rfl

@[simp] theorem lastEnd_concat : lastEnd cumAck (pre ++ [b]) = b.endTsn := by
  simp [lastEnd]

namespace RecvTsns

/-- The ways in which `updateRecvTsnBlocks` leaves its loop between the blocks `pre`
and `post`, with the cum ack and the blocks it sets. -/
inductive Exit (cumAck tsn : ℕ) :
    List RecvTsnBlock → List RecvTsnBlock → ℕ → List RecvTsnBlock → Prop
  | lowerEdge {pre post : List RecvTsnBlock} {b : RecvTsnBlock} (hb : tsn + 1 = b.startTsn)
      (hlow : lastEnd cumAck pre + 1 < tsn) :
      Exit cumAck tsn pre (b :: post) cumAck (pre ++ { b with startTsn := tsn } :: post)
  | cumAck {pre post : List RecvTsnBlock} (hcum : tsn = cumAck + 1)
      (hlow : lastEnd cumAck pre + 1 = tsn) (hpost : ∀ b ∈ post.head?, tsn + 1 < b.startTsn) :
      Exit cumAck tsn pre post (cumAck + 1) (pre ++ post)
  | upperEdge {pre post : List RecvTsnBlock} {a : RecvTsnBlock} (ha : a.endTsn + 1 = tsn)
      (hcum : tsn ≠ cumAck + 1) (hpost : ∀ b ∈ post.head?, tsn + 1 < b.startTsn) :
      Exit cumAck tsn (pre ++ [a]) post cumAck (pre ++ { a with endTsn := tsn } :: post)
  | newBlock {pre post : List RecvTsnBlock} (hlow : lastEnd cumAck pre + 1 ≠ tsn)
      (hpost : ∀ b ∈ post.head?, tsn + 1 < b.startTsn) :
      Exit cumAck tsn pre post cumAck (pre ++ ⟨tsn, tsn⟩ :: post)
  | cumAckGap {pre post : List RecvTsnBlock} {b : RecvTsnBlock} (hcum : tsn = cumAck + 1)
      (hlow : lastEnd cumAck pre + 1 = tsn) (hb : tsn + 1 = b.startTsn) :
      Exit cumAck tsn pre (b :: post) b.endTsn (pre ++ post)
  | gap {pre post : List RecvTsnBlock} {a b : RecvTsnBlock} (ha : a.endTsn + 1 = tsn)
      (hcum : tsn ≠ cumAck + 1) (hb : tsn + 1 = b.startTsn) :
      Exit cumAck tsn (pre ++ [a]) (b :: post) cumAck
        (pre ++ { a with endTsn := b.endTsn } :: post)

/-- One `updateCumAck` at the most follows the change of the blocks. -/
structure Records (r : RecvTsns) (tsn : ℕ) (r' : RecvTsns) (pre post : List RecvTsnBlock)
    (c : ℕ) (l : List RecvTsnBlock) : Prop where
  split : r.recvTsnBlockList = pre ++ post
  exit : Exit r.cumAck tsn pre post c l
  result : r' = { r with cumAck := c, recvTsnBlockList := l } ∨
    r' = updateCumAck { r with cumAck := c, recvTsnBlockList := l }
  passed : r.cumAck < tsn → ¬ InBlocks r.recvTsnBlockList tsn → ∀ b ∈ pre, b.endTsn < tsn

theorem updateBlocksFrom_records {r : RecvTsns} {before rest : List RecvTsnBlock}
    (hl : r.recvTsnBlockList = before.reverse ++ rest)
    (hpassed : r.cumAck < tsn → ¬ InBlocks r.recvTsnBlockList tsn → ∀ b ∈ before, b.endTsn < tsn) :
    ∃ r' pre post c l, updateBlocksFrom r tsn before (lastEnd r.cumAck before.reverse + 1) rest
      = some r' ∧ Records r tsn r' pre post c l := by
  induction rest generalizing before with
  | nil =>
    have hpre : r.cumAck < tsn → ¬ InBlocks r.recvTsnBlockList tsn →
        ∀ b ∈ before.reverse, b.endTsn < tsn := fun h h' b hb => hpassed h h' b (by simpa using hb)
    simp only [updateBlocksFrom]
    split_ifs with hlow hcum
    · exact ⟨_, _, _, _, _, rfl, hl, .cumAck hcum hlow.symm (by simp), Or.inr (by simp [hl, hcum]),
        hpre⟩
    · cases before with
      | nil => exact absurd hlow (by simpa using hcum)
      | cons prev before =>
        rw [reverse_cons] at hl hlow hpre
        rw [lastEnd_concat] at hlow
        exact ⟨_, _, _, _, _, rfl, hl, .upperEdge hlow.symm hcum (by simp),
          Or.inl (by simp [hlow]), hpre⟩
    · exact ⟨_, _, _, _, _, rfl, hl, .newBlock (Ne.symm hlow) (by simp), Or.inl rfl, hpre⟩
  | cons curr rest ih =>
    have hpre : r.cumAck < tsn → ¬ InBlocks r.recvTsnBlockList tsn →
        ∀ b ∈ before.reverse, b.endTsn < tsn := fun h h' b hb => hpassed h h' b (by simpa using hb)
    simp only [updateBlocksFrom]
    split_ifs with hin hgap hhigh hlow hcum hcum
    · refine ⟨_, _, _, _, _, rfl, hl, .lowerEdge (by omega) (by omega), Or.inr rfl, hpre⟩
    · refine ⟨_, _, _, _, _, rfl, hl, .cumAck hcum hlow.symm ?_, Or.inr (by simp [hl]), hpre⟩
      simp only [head?_cons, Option.mem_def, Option.some.injEq, forall_eq']
      omega
    · cases before with
      | nil => exact absurd hlow (by simpa using hcum)
      | cons prev before =>
        rw [reverse_cons] at hl hlow hpre hin hgap
        rw [lastEnd_concat] at hlow hin hgap
        refine ⟨_, _, _, _, _, rfl, hl, .upperEdge hlow.symm hcum ?_, Or.inr rfl, hpre⟩
        simp only [head?_cons, Option.mem_def, Option.some.injEq, forall_eq']
        omega
    · refine ⟨_, _, _, _, _, rfl, hl, .newBlock (Ne.symm hlow) ?_, Or.inl rfl, hpre⟩
      simp only [head?_cons, Option.mem_def, Option.some.injEq, forall_eq']
      omega
    · exact ⟨_, _, _, _, _, rfl, hl, .cumAckGap (by omega) (by omega) (by omega), Or.inr rfl, hpre⟩
    · cases before with
      | nil => exact absurd rfl hcum
      | cons prev before =>
        rw [reverse_cons] at hl hcum hpre hin hgap
        rw [lastEnd_concat] at hcum hin hgap
        exact ⟨_, _, _, _, _, rfl, hl, .gap (by omega) (by omega) (by omega), Or.inr rfl, hpre⟩
    · have hcurr : lastEnd r.cumAck (curr :: before).reverse = curr.endTsn := by simp
      rw [← hcurr]
      refine ih (by simpa using hl) fun h h' b hb => ?_
      rcases mem_cons.1 hb with rfl | hb
      · have hout : ¬ (b.startTsn ≤ tsn ∧ tsn ≤ b.endTsn) := fun hb =>
          h' (by rw [hl]; exact inBlocks_append.2 (Or.inr (inBlocks_cons.2 (Or.inl hb))))
        have hlow : lastEnd r.cumAck before.reverse + 1 ≤ tsn := by
          cases before with
          | nil => exact h
          | cons prev before =>
            rw [reverse_cons, lastEnd_concat]
            exact hpassed h h' prev mem_cons_self
        omega
      · exact hpassed h h' b hb

/-- Every exit of `updateRecvTsnBlocks`; `spPrevNode` is never null where it is read. -/
theorem updateRecvTsnBlocks_records (r : RecvTsns) (tsn : ℕ) :
    ∃ r' pre post c l, r.updateRecvTsnBlocks tsn = some r' ∧ Records r tsn r' pre post c l :=
  updateBlocksFrom_records rfl (by simp)

end RecvTsns

/-- Blocks in increasing order that touch neither each other nor the cum ack. -/
def Separated : ℕ → List RecvTsnBlock → Prop
  | _, [] => True
  | cumAck, b :: l => cumAck + 1 < b.startTsn ∧ b.startTsn ≤ b.endTsn ∧ Separated b.endTsn l

@[simp] theorem separated_nil : Separated cumAck [] := trivial

@[simp] theorem separated_cons : Separated cumAck (b :: l) ↔
    cumAck + 1 < b.startTsn ∧ b.startTsn ≤ b.endTsn ∧ Separated b.endTsn l := Iff.rfl

theorem separated_append : Separated cumAck (l₁ ++ l₂) ↔
    Separated cumAck l₁ ∧ Separated (lastEnd cumAck l₁) l₂ := by
  induction l₁ generalizing cumAck with
  | nil => simp
  | cons a l₁ ih =>
    have hend : lastEnd cumAck (a :: l₁) = lastEnd a.endTsn l₁ := by
      cases l₁ with
      | nil => rfl
      | cons c l₁ => simp [lastEnd, getLast?_cons]
    simp only [cons_append, separated_cons, ih, hend, and_assoc]

section

variable (h : Separated cumAck l)
include h

theorem Separated.mono {cumAck' : ℕ}
    (hpost : ∀ b ∈ l.head?, cumAck' + 1 < b.startTsn) : Separated cumAck' l := by
  cases l with
  | nil => trivial
  | cons b l => exact ⟨hpost b rfl, h.2⟩

theorem Separated.lt_of_mem (hb : b ∈ l) :
    cumAck + 1 < b.startTsn ∧ b.startTsn ≤ b.endTsn := by
  induction l generalizing cumAck with
  | nil => cases hb
  | cons a l ih =>
    rcases mem_cons.1 hb with rfl | hb
    · exact ⟨h.1, h.2.1⟩
    · have := ih h.2.2 hb
      have := h.1
      have := h.2.1
      omega

theorem Separated.lt_of_inBlocks (ht : InBlocks l t) :
    cumAck + 1 < t := by
  obtain ⟨b, hb, hbt, -⟩ := ht
  have := (h.lt_of_mem hb).1
  omega

theorem Separated.eq_nil_or : l = [] ∨ cumAck + 1 < lastEnd cumAck l := by
  rcases eq_nil_or_concat' l with rfl | ⟨l, b, rfl⟩
  · exact Or.inl rfl
  · have := h.lt_of_mem (mem_append_right l mem_cons_self)
    rw [lastEnd_concat]
    omega

theorem Separated.pairwise :
    l.Pairwise fun a b => a.endTsn + 1 < b.startTsn := by
  induction l generalizing cumAck with
  | nil => exact Pairwise.nil
  | cons a l ih => exact pairwise_cons.2 ⟨fun b hb => (h.2.2.lt_of_mem hb).1, ih h.2.2⟩

theorem Separated.apart {a : RecvTsnBlock} (ha : a ∈ l) (hb : b ∈ l) :
    a = b ∨ a.endTsn + 1 < b.startTsn ∨ b.endTsn + 1 < a.startTsn := by
  induction l generalizing cumAck with
  | nil => cases ha
  | cons c l ih =>
    rcases mem_cons.1 ha with rfl | ha'
    · rcases mem_cons.1 hb with rfl | hb'
      · exact Or.inl rfl
      · exact Or.inr (Or.inl (h.2.2.lt_of_mem hb').1)
    · rcases mem_cons.1 hb with rfl | hb'
      · exact Or.inr (Or.inr (h.2.2.lt_of_mem ha').1)
      · exact ih h.2.2 ha' hb'

end

namespace RecvTsns

theorem cumAckOver_eq (h : Separated cumAck l) : cumAckOver cumAck l = cumAck := by
  cases l with
  | nil => rfl
  | cons b l => exact if_neg (by have := h.1; omega)

theorem findTsn_iff (h : Separated cumAck l) : findTsn tsn l = true ↔ InBlocks l tsn := by
  induction l generalizing cumAck with
  | nil => simp [findTsn]
  | cons b l ih =>
    rw [findTsn, inBlocks_cons]
    split_ifs with hb hlt
    · simp [hb]
    · refine iff_of_false (by simp) ?_
      rintro (hin | hin)
      · exact hb hin
      · have := h.2.2.lt_of_inBlocks hin
        omega
    · simp [ih h.2.2, hb]

end RecvTsns

end Ns2.Sctp
