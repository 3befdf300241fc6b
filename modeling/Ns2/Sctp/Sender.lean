import Ns2.Sctp.Receiver
import Mathlib.Algebra.Order.Ring.Int

/-! The sending side of an SCTP association: new data, retransmissions and the send buffer. Of a
timer there is whether it is pending, so the estimate of the round trip time is left out. A node
of the send buffer that something points at is known by its TSN. TSNs stay below 2^32.
`uiPeerRwnd` and the sum of the outstanding bytes are of type `u_int`. -/

namespace Ns2.Sctp

inductive MarkedForRtx
  | noRtx
  | fastRtx
  | timeoutRtx
  deriving DecidableEq, Repr

inductive DestStatus
  | inactive
  | possiblyFailed
  | active
  | unconfirmed
  deriving DecidableEq, Repr

inductive RtxLimit
  | onePacket
  | cwnd
  deriving DecidableEq, Repr

inductive RtxToAlt
  | off
  | on
  | timeoutsOnly
  deriving DecidableEq, Repr

inductive DormantAction
  | hop
  | primary
  | lastDest
  deriving DecidableEq, Repr

inductive DataSource
  | application
  | infinite
  deriving DecidableEq, Repr

inductive AssocState
  | closed
  | cookieWait
  | cookieEchoed
  | established
  deriving DecidableEq, Repr

/-- A message of the application. -/
structure AppData where
  numStreams : ℕ
  numUnreliable : ℕ
  streamId : ℕ
  reliability : ℕ
  unordered : Bool
  numBytes : ℕ
  deriving DecidableEq, Repr

structure OutStream where
  mode : StreamMode
  nextStreamSeqNum : ℕ
  deriving DecidableEq, Repr

structure SendBufferNode where
  chunk : DataChunk
  advancedAcked : Bool
  gapAcked : Bool
  addedToPartialBytesAcked : Bool
  numMissingReports : ℕ
  unrelRtxLimit : ℕ
  markedForRtx : MarkedForRtx
  ineligibleForFastRtx : Bool
  numTxs : ℕ
  dest : ℕ
  deriving DecidableEq, Repr

/-- A destination; `t3Pending` and `heartbeatPending` are for its timers. -/
structure Dest where
  cwnd : ℤ
  ssthresh : ℤ
  partialBytesAcked : ℤ
  outstandingBytes : ℤ
  numNewlyAckedBytes : ℤ
  rtxTimerIsRunning : Bool
  t3Pending : Bool
  heartbeatPending : Bool
  errorCount : ℕ
  status : DestStatus
  ccApplied : Bool
  firstOutstanding : Option ℕ
  deriving DecidableEq, Repr

/-- The variables bound to the script. -/
structure Config where
  maxPayloadSize : ℕ
  maxDataSize : ℕ
  dataChunkSize : ℕ
  initialCwnd : ℤ
  initialSsthresh : ℤ
  fastRtxTrigger : ℕ
  reliability : ℕ
  unordered : Bool
  pathMaxRetrans : ℕ
  associationMaxRetrans : ℕ
  changePrimaryThresh : ℕ
  maxInitRetransmits : ℕ
  heartbeatInterval : ℕ
  rtxToAlt : RtxToAlt
  dormantAction : DormantAction
  useMaxBurst : Bool
  deriving DecidableEq, Repr

/-- A chunk that is sent, to a destination, with `uiPeerRwnd` and `TotalOutstanding` before it. -/
structure Sent where
  chunk : DataChunk
  dest : ℕ
  rtx : Bool
  size : ℕ
  peerRwnd : ℕ
  outstanding : ℕ
  deriving DecidableEq, Repr

/-- The sending side; `sent` is a log. -/
structure Sender where
  state : AssocState
  dataSource : DataSource
  nextTsn : ℕ
  nextStreamId : ℕ
  numOutStreams : ℕ
  numUnrelStreams : ℕ
  outStreams : ℕ → OutStream
  appLayerBuffer : List AppData
  sendBuffer : List SendBufferNode
  destList : List ℕ
  dest : ℕ → Dest
  primaryDest : ℕ
  newTxDest : ℕ
  peerRwnd : ℕ
  cumAckPoint : ℕ
  advancedPeerAckPoint : ℕ
  highestTsnNewlyAcked : ℕ
  recover : ℕ
  markedChunksPending : Bool
  applyMaxBurst : Bool
  forwardTsnNeeded : Bool
  sendNewDataChunks : Bool
  burstLength : ℕ
  assocErrorCount : ℕ
  initTryCount : ℕ
  t1InitPending : Bool
  t1CookiePending : Bool
  sent : List Sent

/-- Chunks are padded to 4 bytes. -/
def pad (n : ℕ) : ℕ := if n % 4 = 0 then n else n + (4 - n % 4)

def dataChunkHdrSize : ℕ := 16

def maxBurst : ℕ := 4

namespace SendBufferNode

/-- The chunk is neither acked by a gap ack block nor given up. -/
def Unacked (n : SendBufferNode) : Prop := n.gapAcked = false ∧ n.advancedAcked = false

instance (n : SendBufferNode) : Decidable n.Unacked := by
  unfold Unacked
  infer_instance

end SendBufferNode

namespace Sender

def withDest (d : ℕ) (f : Dest → Dest) (s : Sender) : Sender :=
  { s with dest := Function.update s.dest d (f (s.dest d)) }

/-- A loop over the destinations. -/
def withDests (f : Dest → Dest) (s : Sender) : Sender :=
  s.destList.foldl (fun s d => s.withDest d f) s

def startT3RtxTimer (d : ℕ) (s : Sender) : Sender :=
  s.withDest d fun x => { x with t3Pending := true, rtxTimerIsRunning := true }

def stopT3RtxTimer (d : ℕ) (s : Sender) : Sender :=
  s.withDest d fun x => { x with t3Pending := false, rtxTimerIsRunning := false }

/-- The timer is started unless it is running. -/
def ensureT3RtxTimer (d : ℕ) (s : Sender) : Sender :=
  if (s.dest d).rtxTimerIsRunning then s else s.startT3RtxTimer d

def addOutstanding (d : ℕ) (bytes : ℤ) (s : Sender) : Sender :=
  s.withDest d fun x => { x with outstandingBytes := x.outstandingBytes + bytes }

def creditPeerRwnd (bytes : ℕ) (s : Sender) : Sender :=
  { s with peerRwnd := (s.peerRwnd + bytes) % 2 ^ 32 }

def debitPeerRwnd (bytes : ℕ) (s : Sender) : Sender :=
  { s with peerRwnd := (s.peerRwnd + 2 ^ 32 - bytes) % 2 ^ 32 }

def totalOutstanding (s : Sender) : ℕ :=
  ((s.destList.map fun d => (s.dest d).outstandingBytes).sum % 2 ^ 32).toNat

def nextDataChunkSize (c : Config) (s : Sender) : ℕ :=
  pad <|
    match s.dataSource, s.appLayerBuffer with
    | .application, [] => 0
    | .application, m :: _ => m.numBytes + dataChunkHdrSize
    | .infinite, _ => c.dataChunkSize

/-- The stream sequence number of a chunk. -/
def streamSeqNum (streamId : ℕ) (unordered : Bool) (s : Sender) : ℕ :=
  if unordered then 0 else (s.outStreams streamId).nextStreamSeqNum

def countStreamSeqNum (streamId : ℕ) (unordered : Bool) (s : Sender) : Sender :=
  if unordered then s
  else
    let o := s.outStreams streamId
    let o' := { o with nextStreamSeqNum := (o.nextStreamSeqNum + 1) % 2 ^ 16 }
    { s with outStreams := Function.update s.outStreams streamId o' }

/-- `GenChunk` for DATA, with the size of the chunk, whose length is an `u_short`. -/
def genDataChunk (c : Config) (s : Sender) : Option (Sender × DataChunk × ℕ) :=
  match s.dataSource, s.appLayerBuffer with
  | .application, [] => none
  | .application, m :: _ =>
    let size := m.numBytes + dataChunkHdrSize
    let chunk : DataChunk := ⟨s.nextTsn + 1, m.streamId, s.streamSeqNum m.streamId m.unordered,
      size % 2 ^ 16, m.unordered⟩
    let s := { s with nextTsn := s.nextTsn + 1 }
    some (s.countStreamSeqNum m.streamId m.unordered, chunk, pad size)
  | .infinite, _ =>
    if s.numOutStreams = 0 then none
    else
      let streamId := s.nextStreamId % s.numOutStreams
      let chunk : DataChunk := ⟨s.nextTsn + 1, streamId, s.streamSeqNum streamId c.unordered,
        c.dataChunkSize % 2 ^ 16, c.unordered⟩
      let s := { s with nextTsn := s.nextTsn + 1, nextStreamId := (s.nextStreamId + 1) % 2 ^ 16 }
      some (s.countStreamSeqNum streamId c.unordered, chunk, pad c.dataChunkSize)

def addToSendBuffer (chunk : DataChunk) (reliability d : ℕ) (s : Sender) : Sender :=
  { s with sendBuffer := s.sendBuffer ++
    [⟨chunk, false, false, false, 0, reliability, .noRtx, false, 1, d⟩] }

/-- The reliability of the next chunk, which is taken to fit a `u_short`. -/
def nextReliability (c : Config) (s : Sender) : ℕ :=
  match s.dataSource, s.appLayerBuffer with
  | .application, m :: _ => m.reliability
  | _, _ => c.reliability

/-- The message whose chunk was generated is deleted. -/
def deleteMessage (s : Sender) : Sender :=
  match s.dataSource with
  | .application => { s with appLayerBuffer := s.appLayerBuffer.tail }
  | .infinite => s

def genOneDataChunk (c : Config) (s : Sender) : Option (Sender × ℕ) :=
  (s.genDataChunk c).map fun (t, chunk, size) =>
    let d := s.newTxDest
    let record : Sent := ⟨chunk, d, false, size, s.peerRwnd, s.totalOutstanding⟩
    let t := { t with sent := t.sent ++ [record] }
    let t := (t.addToSendBuffer chunk (s.nextReliability c) d).deleteMessage
    let t := t.addOutstanding d chunk.length
    -- the window is compared as an `int`
    let t := { t with
      peerRwnd := if t.peerRwnd < 2 ^ 31 ∧ size ≤ t.peerRwnd then t.peerRwnd - size else 0 }
    (t.ensureT3RtxTimer d, size)

/-- There is data to send. -/
def HasData (s : Sender) : Prop := s.dataSource = .infinite ∨ s.appLayerBuffer ≠ []

instance (s : Sender) : Decidable s.HasData := by
  unfold HasData
  infer_instance

/-- The chunks of a packet of `size` bytes so far. -/
def genMultipleDataChunks (c : Config) : ℕ → Sender → ℕ → Option Sender
  | 0, _, _ => none
  | fuel + 1, s, size =>
    if size + s.nextDataChunkSize c ≤ c.maxDataSize ∧ s.nextDataChunkSize c ≤ s.peerRwnd ∧
        s.HasData then do
      let (s, n) ← s.genOneDataChunk c
      genMultipleDataChunks c fuel s (size + n)
    else some s

/-- The loop of `SendMuch`. -/
def sendMuchLoop (c : Config) : ℕ → Sender → Option Sender
  | 0, _ => none
  | fuel + 1, s =>
    if (s.dest s.newTxDest).outstandingBytes < (s.dest s.newTxDest).cwnd ∧ s.HasData then
      if s.nextDataChunkSize c ≤ s.peerRwnd then
        if c.useMaxBurst ∧ s.applyMaxBurst then
          if maxBurst ≤ s.burstLength then some { s with applyMaxBurst := false }
          else do
            let s ← genMultipleDataChunks c (c.maxDataSize + 1)
              { s with burstLength := s.burstLength + 1 } 0
            sendMuchLoop c fuel s
        else do
          let s ← genMultipleDataChunks c (c.maxDataSize + 1) s 0
          sendMuchLoop c fuel s
      -- a probe of the window
      else if s.totalOutstanding = 0 then do
        let (s, _) ← s.genOneDataChunk c
        sendMuchLoop c fuel s
      else some s
    else some s

/-- `none` is a loop that does not end, as every turn with a chunk takes from the window of the peer
or from the messages. -/
def sendMuch (c : Config) (s : Sender) : Option Sender :=
  (sendMuchLoop c (s.peerRwnd + s.appLayerBuffer.length + maxBurst + 4) s).map fun s =>
    { s with burstLength := 0 }

/-- The destination after `d`, and the first one after the last. -/
def nextInList (l : List ℕ) (d : ℕ) : ℕ :=
  match l.dropWhile (· ≠ d) with
  | _ :: e :: _ => e
  | _ => l.headD d

/-- The loop of `GetNextDest`. -/
def nextActive (s : Sender) (d : ℕ) : ℕ → ℕ → ℕ
  | 0, e => e
  | fuel + 1, e =>
    let e := nextInList s.destList e
    if (s.dest e).status = .inactive ∧ e ≠ d then nextActive s d fuel e else e

def getNextDest (c : Config) (s : Sender) (d : ℕ) : Option ℕ :=
  if d ∈ s.destList then
    let e := s.nextActive d s.destList.length d
    if e = d ∧ (s.dest e).status = .inactive then
      match c.dormantAction with
      | .hop => some (nextInList s.destList e)
      | .primary => some s.primaryDest
      | .lastDest => some e
    else some e
  else none

def markChunkForRtx (m : MarkedForRtx) (s : Sender) (n : SendBufferNode) : Sender × SendBufferNode :=
  let s := s.creditPeerRwnd n.chunk.length
  if (s.outStreams n.chunk.streamId).mode = .unreliable ∧ n.unrelRtxLimit < n.numTxs then
    (s.addOutstanding n.dest (-n.chunk.length),
      { n with advancedAcked := true, markedForRtx := .noRtx })
  else ({ s with markedChunksPending := true }, { n with markedForRtx := m })

def anyMarkedChunks (s : Sender) : Bool := s.sendBuffer.any fun n => n.markedForRtx ≠ .noRtx

/-- Where the marked chunks go, by the first of them. -/
def chooseRtxDest (c : Config) (s : Sender) (n : SendBufferNode) : Option ℕ :=
  match c.rtxToAlt with
  | .off => if (s.dest n.dest).status = .active then some n.dest else s.getNextDest c n.dest
  | .on => s.getNextDest c n.dest
  | .timeoutsOnly =>
    if n.markedForRtx = .fastRtx ∧ (s.dest n.dest).status = .active then some n.dest
    else s.getNextDest c n.dest

/-- The bytes of a marked chunk, counted as outstanding or no more. -/
def countMarked (sign : ℤ) (s : Sender) (n : SendBufferNode) : Sender :=
  if n.markedForRtx ≠ .noRtx then s.addOutstanding n.dest (sign * n.chunk.length) else s

/-- A chunk that can be the first outstanding one of its destination. -/
def noteFirstOutstanding (s : Sender) (n : SendBufferNode) : Sender :=
  if (s.dest n.dest).firstOutstanding = none ∧ n.Unacked then
    s.withDest n.dest fun x => { x with firstOutstanding := some n.chunk.tsn }
  else s

/-- The timers when a marked chunk is sent to `d`. -/
def restartForRtx (d : ℕ) (s : Sender) (n : SendBufferNode) : Sender :=
  let x := s.dest n.dest
  let s := if x.firstOutstanding = some n.chunk.tsn ∧ 0 < x.outstandingBytes then
      s.startT3RtxTimer n.dest
    else s
  if ∀ t ∈ (s.dest d).firstOutstanding, n.chunk.tsn < t then
    (s.withDest d fun x => { x with firstOutstanding := some n.chunk.tsn }).startT3RtxTimer d
  else s

/-- A marked chunk is sent to `d`. -/
def rtxChunk (d : ℕ) (s : Sender) (n : SendBufferNode) : Sender × SendBufferNode :=
  let s := s.restartForRtx d n
  let record : Sent := ⟨n.chunk, d, true, n.chunk.length, s.peerRwnd, s.totalOutstanding⟩
  let s := { s with sent := s.sent ++ [record] }
  ((s.addOutstanding d n.chunk.length).debitPeerRwnd n.chunk.length,
    { n with dest := d, numTxs := n.numTxs + 1, markedForRtx := .noRtx })

/-- A chunk that is given up and was the first outstanding one. -/
def restartForAbandoned (s : Sender) (n : SendBufferNode) : Sender :=
  if n.advancedAcked ∧ (s.dest n.dest).firstOutstanding = some n.chunk.tsn then
    if 0 < (s.dest n.dest).outstandingBytes then s.startT3RtxTimer n.dest
    else s.stopT3RtxTimer n.dest
  else s

/-- The chunks of one packet: those that are passed, and those from the first that does not fit. -/
def rtxPacket (c : Config) (rtxDest : Option ℕ) : Sender → ℕ → List SendBufferNode →
    Option (Sender × ℕ × List SendBufferNode × List SendBufferNode)
  | s, size, [] => some (s, size, [], [])
  | s, size, n :: rest =>
    let s := s.noteFirstOutstanding n
    if n.markedForRtx ≠ .noRtx then
      if c.maxPayloadSize < size + n.chunk.length then some (s, size, [], n :: rest)
      else do
        let d ← rtxDest
        let (s, n) := s.rtxChunk d n
        let (s, size, passed, rest) ← rtxPacket c rtxDest s (size + pad n.chunk.length) rest
        some (s, size, n :: passed, rest)
    else do
      let (s, size, passed, rest) ← rtxPacket c rtxDest (s.restartForAbandoned n) size rest
      some (s, size, n :: passed, rest)

/-- Another packet may be sent. -/
def mayRtx (limit : RtxLimit) (rtxDest : Option ℕ) (s : Sender) (packets : ℕ) : Option Bool :=
  match limit with
  | .onePacket => some (packets < 1)
  | .cwnd => rtxDest.map fun d => (s.dest d).outstandingBytes < (s.dest d).cwnd

/-- The packets; `none` is a chunk that fits none. -/
def rtxPackets (c : Config) (limit : RtxLimit) (rtxDest : Option ℕ) : ℕ → Sender → ℕ →
    List SendBufferNode → Option (Sender × List SendBufferNode)
  | 0, _, _, _ => none
  | fuel + 1, s, packets, rest => do
    if rest = [] then some (s, [])
    else if ← mayRtx limit rtxDest s packets then
      let (s, size, passed, rest) ← rtxPacket c rtxDest s 0 rest
      if 0 < size then
        let d ← rtxDest
        let s := s.ensureT3RtxTimer d
        if c.useMaxBurst ∧ s.applyMaxBurst ∧ maxBurst ≤ s.burstLength then
          some ({ s with applyMaxBurst := false, burstLength := s.burstLength + 1 }, passed ++ rest)
        else
          let s := if c.useMaxBurst ∧ s.applyMaxBurst then
              { s with burstLength := s.burstLength + 1 }
            else s
          let (s, rest) ← rtxPackets c limit rtxDest fuel s (packets + 1) rest
          some (s, passed ++ rest)
      else
        let (s, rest) ← rtxPackets c limit rtxDest fuel s packets rest
        some (s, passed ++ rest)
    else some (s, rest)

/-- The destination of the retransmissions, if there are any. -/
def findRtxDest (c : Config) (s : Sender) : Option (Option ℕ) :=
  match s.sendBuffer.find? fun n => n.markedForRtx ≠ .noRtx with
  | none => some none
  | some n => (s.chooseRtxDest c n).map some

/-- All marked chunks count as not outstanding meanwhile. -/
def rtxMarkedChunks (c : Config) (limit : RtxLimit) (s : Sender) : Option Sender := do
  let l := s.sendBuffer
  let s := { s with burstLength := 0 }
  let s := s.withDests fun x => { x with firstOutstanding := none }
  let rtxDest ← s.findRtxDest c
  let s := l.foldl (countMarked (-1)) s
  let (s, l) ← rtxPackets c limit rtxDest (l.length + 1) s 0 l
  let s := l.foldl (countMarked 1) { s with sendBuffer := l }
  some { s with markedChunksPending := s.anyMarkedChunks }

def getHighestOutstandingTsn (s : Sender) : ℕ :=
  ((s.sendBuffer.reverse.find? fun n => n.markedForRtx = .noRtx).map fun n => n.chunk.tsn).getD 0

/-- The congestion window of a destination after a loss. -/
def cutDest (c : Config) (x : Dest) : Dest :=
  let ssthresh := max (x.cwnd / 2) (c.initialCwnd * c.maxDataSize)
  { x with ssthresh := ssthresh, cwnd := ssthresh, partialBytesAcked := 0, ccApplied := true }

/-- The congestion window of a destination with lost chunks is cut once. -/
def cutCwnd (c : Config) (s : Sender) (n : SendBufferNode) : Sender :=
  if (n.markedForRtx ≠ .noRtx ∨ n.advancedAcked) ∧ (s.dest n.dest).ccApplied = false ∧
      s.recover < n.chunk.tsn then
    let s := s.withDest n.dest (cutDest c)
    { s with recover := s.getHighestOutstandingTsn }
  else s

def fastRtx (c : Config) (s : Sender) : Option Sender :=
  let s := s.withDests fun x => { x with ccApplied := false }
  let s := s.sendBuffer.foldl (cutCwnd c) s
  if s.markedChunksPending then s.rtxMarkedChunks c .onePacket else some s

/-- A chunk of the destination whose timer expired. -/
def markForTimeout (d : ℕ) (s : Sender) (n : SendBufferNode) : Sender × SendBufferNode :=
  if n.dest = d ∧ n.Unacked then
    let (s, n) := s.markChunkForRtx .timeoutRtx n
    (s, { n with numMissingReports := 0 })
  else (s, n)

def timeoutRtx (c : Config) (d : ℕ) (s : Sender) : Option Sender :=
  let (t, l) := mapAccum (markForTimeout d) s s.sendBuffer
  let s := { t with sendBuffer := l }
  if s.markedChunksPending then s.rtxMarkedChunks c .onePacket else some s

end Sender

end Ns2.Sctp
