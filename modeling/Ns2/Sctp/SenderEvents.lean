import Ns2.Sctp.Sender

/-! What the sending side of an association does for the chunks it receives, for its timers and for
the application. -/

namespace Ns2.Sctp

/-- A SACK. `gapAckBlock i` is what is read for the block `i`, the offsets of its start and end. -/
structure SackChunk where
  cumAck : ℕ
  arwnd : UInt32
  numGapAckBlocks : ℕ
  gapAckBlock : ℕ → ℕ × ℕ

namespace SackChunk

def startTsn (k : SackChunk) (i : ℕ) : ℕ := k.cumAck + (k.gapAckBlock i).1

def endTsn (k : SackChunk) (i : ℕ) : ℕ := k.cumAck + (k.gapAckBlock i).2

end SackChunk

/-- The state of the loop of `ProcessGapAckBlocks`. -/
structure GapScan where
  sender : Sender
  numGapAcksProcessed : ℕ
  highestTsnSacked : ℕ

namespace Sender

/-- The error counter of a destination that answers, unless it had a timeout for the chunk. -/
def clearErrorCount (s : Sender) (n : SendBufferNode) : Sender :=
  if (s.dest n.dest).errorCount ≠ 0 ∧ n.markedForRtx ≠ .timeoutRtx ∧ n.gapAcked = false then
    let s := s.withDest n.dest fun x => { x with errorCount := 0, status := .active }
    if n.dest = s.primaryDest ∧ s.newTxDest ≠ s.primaryDest then
      { s with newTxDest := s.primaryDest }
    else s
  else s

def addNewlyAcked (d : ℕ) (bytes partialBytes : ℤ) (s : Sender) : Sender :=
  s.withDest d fun x => { x with
    numNewlyAckedBytes := x.numNewlyAckedBytes + bytes
    partialBytesAcked := x.partialBytesAcked + partialBytes }

/-- A node that `SendBufferDequeueUpTo` deletes. -/
def dequeueNode (s : Sender) (n : SendBufferNode) : Sender :=
  let x := s.dest n.dest
  let s := if n.Unacked then
      { s with highestTsnNewlyAcked := n.chunk.tsn }.addNewlyAcked n.dest n.chunk.length
        (if x.ssthresh < x.cwnd ∧ x.cwnd ≤ x.outstandingBytes then n.chunk.length else 0)
    else s
  let s := if n.ineligibleForFastRtx then { s with applyMaxBurst := true } else s
  let s := if (s.dest n.dest).rtxTimerIsRunning then s.stopT3RtxTimer n.dest else s
  s.clearErrorCount n

/-- The loop over the head of the send buffer. -/
def dequeueLoop (tsn : ℕ) : Sender → List SendBufferNode → Sender
  | s, [] => { s with sendBuffer := [] }
  | s, n :: l =>
    if n.chunk.tsn ≤ tsn then dequeueLoop tsn (s.dequeueNode n) l
    else { s with sendBuffer := n :: l }

def sendBufferDequeueUpTo (tsn : ℕ) (s : Sender) : Sender :=
  dequeueLoop tsn { s with assocErrorCount := 0 } s.sendBuffer

def adjustCwnd (c : Config) (x : Dest) : Dest :=
  if x.cwnd ≤ x.ssthresh then
    if x.cwnd ≤ x.outstandingBytes then
      { x with cwnd := x.cwnd + min x.numNewlyAckedBytes c.maxDataSize }
    else x
  else if x.cwnd ≤ x.partialBytesAcked ∧ x.cwnd ≤ x.outstandingBytes then
    { x with partialBytesAcked := x.partialBytesAcked - x.cwnd, cwnd := x.cwnd + c.maxDataSize }
  else x

/-- The chunks at the head of the send buffer that are acked or given up. -/
def advanceOver : ℕ → List SendBufferNode → ℕ
  | point, [] => point
  | point, n :: l => if n.Unacked then point else advanceOver n.chunk.tsn l

def advancePeerAckPoint (s : Sender) : Sender :=
  { s with
    advancedPeerAckPoint := advanceOver (max s.advancedPeerAckPoint s.cumAckPoint) s.sendBuffer }

/-- A chunk that the SACK does not ack. -/
def withdrawGapAck (s : Sender) (n : SendBufferNode) : Sender × SendBufferNode :=
  if n.gapAcked then
    (s.addOutstanding n.dest n.chunk.length, { n with gapAcked := false })
  else (s, n)

/-- A chunk that is acked by a block. -/
def gapAckNode (newCumAck : Bool) (s : Sender) (n : SendBufferNode) : Sender × SendBufferNode :=
  if n.gapAcked then (s, n)
  else
    let s := { s with highestTsnNewlyAcked := max s.highestTsnNewlyAcked n.chunk.tsn }
    let x := s.dest n.dest
    let s := s.addNewlyAcked n.dest (if n.advancedAcked then 0 else n.chunk.length)
      (if x.ssthresh < x.cwnd ∧ newCumAck ∧ n.addedToPartialBytesAcked = false then n.chunk.length
        else 0)
    let s := if x.firstOutstanding = some n.chunk.tsn ∧ x.rtxTimerIsRunning then
        s.stopT3RtxTimer n.dest
      else s
    ({ s with assocErrorCount := 0 }.clearErrorCount n,
      { n with
        gapAcked := true
        addedToPartialBytesAcked := n.addedToPartialBytesAcked ||
          (x.ssthresh < x.cwnd ∧ newCumAck)
        markedForRtx := .noRtx })

/-- One chunk of the send buffer. After the last block none is acked. -/
def gapStep (k : SackChunk) (newCumAck : Bool) (g : GapScan) (n : SendBufferNode) :
    GapScan × SendBufferNode :=
  let i := g.numGapAcksProcessed
  if i = k.numGapAckBlocks then
    let (s, n) := g.sender.withdrawGapAck n
    ({ g with sender := s }, n)
  else
    let s := g.sender.noteFirstOutstanding n
    if n.chunk.tsn < k.startTsn i then
      let (s, n) := s.withdrawGapAck n
      ({ g with sender := s }, n)
    else if n.chunk.tsn ≤ k.endTsn i then
      let (s, n') := s.gapAckNode newCumAck n
      (⟨s, i, max g.highestTsnSacked n.chunk.tsn⟩, n')
    else
      let (s, n) := s.withdrawGapAck n
      ({ g with sender := s, numGapAcksProcessed := i + 1 }, n)

/-- A chunk is reported missing, which may mark it for a fast retransmit. -/
def reportMissing (c : Config) (newCumAck : Bool) (highestTsnSacked : ℕ) (r : Sender × Bool)
    (n : SendBufferNode) : (Sender × Bool) × SendBufferNode :=
  let s := r.1
  if n.gapAcked = false ∧ (n.chunk.tsn < s.highestTsnNewlyAcked ∨
      (newCumAck ∧ s.highestTsnNewlyAcked ≤ s.recover ∧ n.chunk.tsn < highestTsnSacked)) then
    let n := { n with numMissingReports := n.numMissingReports + 1 }
    if c.fastRtxTrigger ≤ n.numMissingReports ∧ n.ineligibleForFastRtx = false ∧
        n.advancedAcked = false then
      let (s, n) := s.markChunkForRtx .fastRtx n
      ((s, true), { n with ineligibleForFastRtx := true })
    else (r, n)
  else (r, n)

/-- The answer is whether a fast retransmit is necessary. -/
def processGapAckBlocks (c : Config) (k : SackChunk) (newCumAck : Bool) (s : Sender) :
    Sender × Bool :=
  if s.sendBuffer = [] then (s, false)
  else
    let t := s.withDests fun x => { x with firstOutstanding := none }
    let (g, l) := mapAccum (gapStep k newCumAck) ⟨t, 0, t.highestTsnNewlyAcked⟩ s.sendBuffer
    let ((s, fast), l) :=
      mapAccum (reportMissing c newCumAck g.highestTsnSacked) (g.sender, false) l
    ({ s with sendBuffer := l }, fast)

/-- The cum ack and the gap ack blocks of a SACK. -/
def ackChunks (c : Config) (k : SackChunk) (s : Sender) : Sender × Bool :=
  let s := s.withDests fun x => { x with numNewlyAckedBytes := 0, firstOutstanding := none }
  let newCumAck : Bool := s.cumAckPoint < k.cumAck
  let s := if newCumAck then
      { s.sendBufferDequeueUpTo k.cumAck with cumAckPoint := k.cumAck }
    else s
  if k.numGapAckBlocks ≠ 0 then s.processGapAckBlocks c k newCumAck else (s, false)

/-- The windows, the outstanding bytes and the timer of a destination after a SACK. -/
def settleDest (c : Config) (k : SackChunk) (newCumAck : Bool) (recover : ℕ) (x : Dest) : Dest :=
  let x := if newCumAck ∧ 0 < x.numNewlyAckedBytes ∧ recover ≤ k.cumAck then adjustCwnd c x else x
  let x := { x with
    outstandingBytes :=
      if x.numNewlyAckedBytes ≤ x.outstandingBytes then x.outstandingBytes - x.numNewlyAckedBytes
      else 0 }
  let x := if x.outstandingBytes = 0 then
      { x with
        partialBytesAcked := 0
        t3Pending := if x.rtxTimerIsRunning then false else x.t3Pending
        rtxTimerIsRunning := false }
    else x
  if 0 < x.outstandingBytes ∧ x.rtxTimerIsRunning = false then
    { x with t3Pending := true, rtxTimerIsRunning := true }
  else x

/-- What is retransmitted for a SACK. -/
def rtxForSack (c : Config) (fast : Bool) (s : Sender) : Option Sender :=
  if fast then s.fastRtx c
  else
    let s := { s with markedChunksPending := s.anyMarkedChunks }
    if s.markedChunksPending then s.rtxMarkedChunks c .cwnd else some s

/-- The window that is left of the advertised one. -/
def setPeerRwnd (arwnd : UInt32) (s : Sender) : Sender :=
  { s with peerRwnd :=
      if s.totalOutstanding ≤ arwnd.toNat then arwnd.toNat - s.totalOutstanding else 0 }

def processSackChunk (c : Config) (k : SackChunk) (s : Sender) : Option Sender :=
  if k.cumAck < s.cumAckPoint then
    some (s.withDests fun x => { x with numNewlyAckedBytes := 0, firstOutstanding := none })
  else
    let newCumAck : Bool := s.cumAckPoint < k.cumAck
    let (s, fast) := s.ackChunks c k
    let s := s.withDests (settleDest c k newCumAck s.recover)
    (s.advancePeerAckPoint.rtxForSack c fast).map (setPeerRwnd k.arwnd)

def sendHeartbeat (d : ℕ) (s : Sender) : Sender :=
  s.withDest d fun x => { x with heartbeatPending := true }

/-- All timers are stopped; `eRtxTimerIsRunning` and the outstanding bytes stay. -/
def close (s : Sender) : Sender :=
  let s := s.withDests fun x => { x with t3Pending := false, heartbeatPending := false }
  { s with
    state := .closed, t1InitPending := false, t1CookiePending := false
    sendBuffer := [], appLayerBuffer := [] }

/-- The destination after a timeout for its DATA. -/
def dataTimeoutDest (c : Config) (x : Dest) : Dest :=
  let x := { x with rtxTimerIsRunning := false }
  if (c.maxDataSize : ℤ) < x.cwnd then
    { x with
      ssthresh := max (x.cwnd / 2) (c.initialCwnd * c.maxDataSize), cwnd := c.maxDataSize
      partialBytesAcked := 0 }
  else x

/-- A destination with too many errors is inactive, and new data goes to another one. -/
def failDest (c : Config) (d : ℕ) (s : Sender) : Option Sender :=
  if c.pathMaxRetrans < (s.dest d).errorCount then
    let s := s.withDest d fun x => { x with status := .inactive }
    if d = s.newTxDest then (s.getNextDest c d).map fun e => { s with newTxDest := e } else some s
  else some s

/-- One more error of a destination; the answer is whether there are too many for the
association. -/
def countError (c : Config) (d : ℕ) (s : Sender) : Option (Sender × Bool) :=
  let s := s.withDest d fun x => { x with errorCount := x.errorCount + 1 }
  if (s.dest d).status = .active then
    (failDest c d { s with assocErrorCount := s.assocErrorCount + 1 }).map fun s =>
      (s, c.associationMaxRetrans < s.assocErrorCount)
  else some (s, false)

def changePrimary (c : Config) (d : ℕ) (s : Sender) : Sender :=
  if c.changePrimaryThresh < (s.dest d).errorCount ∧ d = s.primaryDest then
    { s with primaryDest := s.newTxDest }
  else s

/-- `Timeout` for DATA, when the T3 timer of `d` expires. -/
def t3Timeout (c : Config) (d : ℕ) (s : Sender) : Option Sender := do
  let s := s.withDest d fun x => dataTimeoutDest c { x with t3Pending := false }
  let (s, tooMany) ← s.countError c d
  if tooMany then some s.close
  else
    let s ← (s.changePrimary c d).timeoutRtx c d
    if (s.dest d).status = .inactive ∧ c.heartbeatInterval ≠ 0 then some (s.sendHeartbeat d)
    else some s

/-- `Timeout` for a HEARTBEAT. -/
def heartbeatTimeout (c : Config) (d : ℕ) (s : Sender) : Option Sender := do
  let s := s.withDest d fun x => { x with heartbeatPending := false }
  let (s, tooMany) ← s.countError c d
  if tooMany then some s.close
  else
    let s := s.changePrimary c d
    if c.heartbeatInterval ≠ 0 ∨ (s.dest d).status = .unconfirmed then some (s.sendHeartbeat d)
    else some s

def cwndDegrade (c : Config) (d : ℕ) (s : Sender) : Sender :=
  s.withDest d fun x =>
    if c.initialCwnd * c.maxDataSize < x.cwnd then
      { x with cwnd := max (x.cwnd / 2) (c.initialCwnd * c.maxDataSize) }
    else x

def t1InitTimerExpiration (c : Config) (s : Sender) : Sender :=
  let s := { s with initTryCount := s.initTryCount + 1, t1InitPending := false }
  if c.maxInitRetransmits < s.initTryCount then s.close else { s with t1InitPending := true }

def t1CookieTimerExpiration (c : Config) (s : Sender) : Sender :=
  let s := { s with initTryCount := s.initTryCount + 1, t1CookiePending := false }
  if c.maxInitRetransmits < s.initTryCount then s.close else { s with t1CookiePending := true }

end Sender

/-- A chunk that is received. -/
inductive InChunk
  | init (arwnd : UInt32)
  | initAck (arwnd : UInt32)
  | cookieEcho
  | cookieAck
  | data
  | sack (k : SackChunk)
  | forwardTsn
  | heartbeat
  | heartbeatAck (d : ℕ)

namespace Sender

def processHeartbeatAckChunk (d : ℕ) (s : Sender) : Sender :=
  let s := { s with assocErrorCount := 0 }.withDest d fun x =>
    { x with status := .active, errorCount := 0, heartbeatPending := false }
  if d = s.primaryDest ∧ s.newTxDest ≠ s.primaryDest then { s with newTxDest := s.primaryDest }
  else s

/-- `ProcessChunk`; `none` is a chunk that is read as one of another type. -/
def processChunk (c : Config) (s : Sender) (x : InChunk) : Option Sender :=
  match s.state with
  | .closed =>
    match x with
    | .init arwnd => some { s with peerRwnd := arwnd.toNat }
    | .cookieEcho => some { s with state := .established }
    | _ => some s
  | .cookieWait =>
    match x with
    | .initAck arwnd =>
      some { s with
        t1InitPending := false, peerRwnd := arwnd.toNat, t1CookiePending := true
        state := .cookieEchoed }
    | _ => none
  | .cookieEchoed =>
    -- any chunk is the COOKIE ACK
    let s := { s with t1CookiePending := false, state := .established }
    let s := s.withDests fun x => { x with status := .unconfirmed, heartbeatPending := true }
    some { s with sendNewDataChunks := false }
  | .established =>
    match x with
    | .sack k => (s.processSackChunk c k).map fun s =>
        { s with
          forwardTsnNeeded := s.forwardTsnNeeded || s.cumAckPoint < s.advancedPeerAckPoint
          sendNewDataChunks := true }
    | .heartbeatAck d =>
      if d ∈ s.destList then
        let unconfirmed := (s.dest d).status = .unconfirmed
        let s := s.processHeartbeatAckChunk d
        if unconfirmed ∧ ∀ e ∈ s.destList, (s.dest e).status ≠ .unconfirmed then
          some { s with sendNewDataChunks := true }
        else some s
      else none
    | _ => some s

/-- The chunks of a packet, one after another. -/
def chunkMachine (c : Config) : Machine Sender InChunk Unit :=
  ⟨fun s x => (s.processChunk c x).map fun s => (s, ())⟩

/-- What `recv` sends after it: a FORWARD TSN, which changes nothing here, and new data. -/
def afterChunks (c : Config) (s : Sender) : Option Sender :=
  let s := { s with forwardTsnNeeded := false }
  if s.sendNewDataChunks ∧ s.markedChunksPending = false then
    (s.sendMuch c).map fun s => { s with sendNewDataChunks := false }
  else some s

def recv (c : Config) (chunks : List InChunk) (s : Sender) : Option Sender :=
  ((chunkMachine c).run s chunks).bind fun (s, _) => s.afterChunks c

end Sender

/-- The messages of `sendmsg`: an infinite source, the message of an application that knows SCTP, or
a number of bytes. -/
inductive AppSend
  | infinite
  | aware (m : AppData)
  | bytes (n : ℕ)
  deriving DecidableEq, Repr

namespace Sender

/-- The loop over the bytes of a message that are left. -/
def fragments (c : Config) (m : AppData) : ℕ → ℕ → List AppData
  | 0, _ => []
  | fuel + 1, n =>
    if n = 0 then []
    else
      let size := min n (c.maxDataSize - dataChunkHdrSize)
      { m with numBytes := size } :: fragments c m fuel (n - size)

/-- The messages are buffered; `none` is an `exit`, no message to check, or no room for a fragment,
which is looked for without end. -/
def bufferMessages (c : Config) (s : Sender) : AppSend → Option Sender
  | .infinite => some { s with dataSource := .infinite }
  | .aware m =>
    if m.numStreams ≤ 65535 ∧ m.numUnreliable ≤ m.numStreams ∧
        m.numBytes + dataChunkHdrSize ≤ c.maxDataSize then
      some { s with
        dataSource := .application, numOutStreams := m.numStreams
        numUnrelStreams := m.numUnreliable, appLayerBuffer := s.appLayerBuffer ++ [m] }
    else none
  | .bytes n =>
    let unrel := if 0 < s.numUnrelStreams then 1 else 0
    if n = 0 ∨ c.maxDataSize ≤ dataChunkHdrSize then none
    else some { s with
      dataSource := .application, numOutStreams := 1, numUnrelStreams := unrel
      appLayerBuffer := s.appLayerBuffer ++
        fragments c ⟨1, unrel, 0, c.reliability, c.unordered, 0⟩ n n }

def sendmsg (c : Config) (m : AppSend) (s : Sender) : Option Sender := do
  let s ← s.bufferMessages c m
  match s.state with
  | .closed => some { s with t1InitPending := true, state := .cookieWait }
  | .established =>
    match s.dataSource with
    | .application => s.sendMuch c
    | .infinite => none
  | _ => some s

/-- A destination after `Reset`. -/
def resetDest (c : Config) (x : Dest) : Dest :=
  { x with
    cwnd := c.initialCwnd * c.maxDataSize, ssthresh := c.initialSsthresh, t3Pending := false
    outstandingBytes := 0, partialBytesAcked := 0, errorCount := 0, status := .active
    heartbeatPending := false, ccApplied := false, firstOutstanding := none }

/-- `Reset`, after `Close` where the association is not closed. -/
def reset (c : Config) (s : Sender) : Sender :=
  let s := if s.state = .closed then s else s.close
  let s := s.withDests (resetDest c)
  { s with
    state := .closed, assocErrorCount := 0, t1InitPending := false, t1CookiePending := false
    initTryCount := 0, nextTsn := 0, nextStreamId := 0
    outStreams := fun i => ⟨if i < s.numUnrelStreams then .unreliable else .reliable, 0⟩
    peerRwnd := 0, cumAckPoint := 0, advancedPeerAckPoint := 0, highestTsnNewlyAcked := 0
    recover := 0, appLayerBuffer := [], sendBuffer := [], forwardTsnNeeded := false
    sendNewDataChunks := false, markedChunksPending := false, applyMaxBurst := false
    dataSource := .application, burstLength := 0 }

end Sender

/-- The destinations are those that were added before `Reset`, which creates their timers. -/
inductive SenderEvent
  | reset
  | close
  | setPrimary (d : ℕ)
  | sendmsg (m : AppSend)
  | recv (chunks : List InChunk)
  | t3Timeout (d : ℕ)
  | heartbeatTimeout (d : ℕ)
  | heartbeatGen (d : ℕ)
  | cwndDegrade (d : ℕ)
  | t1Init
  | t1Cookie

namespace Sender

/-- An event; `none` is one that cannot happen, or that the code does not come back from. -/
def act (c : Config) (s : Sender) : SenderEvent → Option Sender
  | .reset => some (s.reset c)
  | .close => some s.close
  | .setPrimary d =>
    if d ∈ s.destList then some { s with primaryDest := d, newTxDest := d } else none
  | .sendmsg m => s.sendmsg c m
  | .recv chunks => s.recv c chunks
  | .t3Timeout d => if d ∈ s.destList ∧ (s.dest d).t3Pending then s.t3Timeout c d else none
  | .heartbeatTimeout d =>
    if d ∈ s.destList ∧ (s.dest d).heartbeatPending then s.heartbeatTimeout c d else none
  | .heartbeatGen d =>
    if d ∈ s.destList ∧ s.state = .established ∧ c.heartbeatInterval ≠ 0 then
      some (s.sendHeartbeat d)
    else none
  | .cwndDegrade d => if d ∈ s.destList then some (s.cwndDegrade c d) else none
  | .t1Init => if s.t1InitPending then some (s.t1InitTimerExpiration c) else none
  | .t1Cookie => if s.t1CookiePending then some (s.t1CookieTimerExpiration c) else none

def machine (c : Config) : Machine Sender SenderEvent Unit :=
  ⟨fun s e => (s.act c e).map fun t => (t, ())⟩

end Sender

end Ns2.Sctp
