import Ns2.Lib.Machine
import Ns2.LinkState.ComputeRoutes

/-! Link state routing: the messages, what a node does with them, and a network of nodes with its packets
in flight. The message storage is large enough, so that a message stands for its id in the packets and
records that refer to it. The routes that are computed, the delays and the sizes are left out. -/

namespace Ns2.LinkState

/-- `LS_WRAPAROUND_THRESHOLD` -/
def lsWraparoundThreshold : ℕ := 2 ^ 30

/-- `LS_INVALID_MESSAGE_ID` -/
def lsInvalidMessageId : ℕ := 0

/-- `LsLinkState` with its sequence number, which the routes do not depend on. -/
structure LsRecord extends LsLinkState where
  sequenceNumber : ℕ
deriving DecidableEq

/-- `LsTopoMap` with the sequence numbers. -/
abbrev LsDatabase := OrdMap ℤ (List LsRecord)

/-- The test of two sequence numbers in `isNewMessage` and `receiveTopo`. -/
def isNewer (old new : ℕ) : Bool := old < new || lsWraparoundThreshold < old - new

/-- The sequence number of the first link. -/
def headSeq (lsl : List LsRecord) : ℕ := (lsl.head?.map LsRecord.sequenceNumber).getD lsInvalidMessageId

/-- The loop of `LsTopoMap::update` for one new link, and whether anything has changed. -/
def updateLink (own : Bool) (new : LsRecord) : List LsRecord → List LsRecord × Bool
  | [] => ([new], true)
  | old :: l =>
    if new.neighborId = old.neighborId then
      ({ old with
          status := new.status
          cost := new.cost
          sequenceNumber := if own then old.sequenceNumber else new.sequenceNumber } :: l,
        new.status ≠ old.status || new.cost ≠ old.cost)
    else
      let r := updateLink own new l
      (old :: r.1, r.2)

/-- `LsTopoMap::update` -/
def LsDatabase.update (myNodeId nodeId : ℤ) (lsl : List LsRecord) (db : LsDatabase) : LsDatabase × Bool :=
  match db.find nodeId with
  | none => (db.set nodeId lsl, true)
  | some old =>
    let r := lsl.foldl (fun r new =>
      let u := updateLink (nodeId = myNodeId) new r.1
      (u.1, r.2 || u.2)) (old, false)
    (db.set nodeId r.1, r.2)

inductive LsMessageType where
  | lsa
  | tpm
  | lsaAck
  | tpmAck
deriving DecidableEq

/-- What `contentPtr_` points to; `topo` is the database of the node that has made the message. -/
inductive LsContent where
  | null
  | linkStates (lsl : List LsRecord)
  | topo
deriving DecidableEq

structure LsMessage where
  type : LsMessageType
  messageId : ℕ
  sequenceNumber : ℕ
  originNodeId : ℤ
  content : LsContent
deriving DecidableEq

/-- The message history: the sequence number of the last message of each origin. -/
abbrev LsMessageHistory := OrdMap ℤ ℕ

namespace LsMessageHistory

/-- `isNewMessage`, without the change of the history. -/
def isNewMessage (h : LsMessageHistory) (msg : LsMessage) : Bool :=
  (h.find msg.originNodeId).all fun old => isNewer old msg.sequenceNumber

def save (h : LsMessageHistory) (msg : LsMessage) : LsMessageHistory :=
  h.set msg.originNodeId msg.sequenceNumber

end LsMessageHistory

structure LsIdSeq where
  msg : LsMessage
  seq : ℕ

/-- `LsUnackPeer`; its timer may fire at any time. -/
structure LsUnackPeer where
  tpmSeq : ℕ
  lsaMap : OrdMap ℤ LsIdSeq

namespace LsUnackPeer

def empty : LsUnackPeer := ⟨lsInvalidMessageId, .empty⟩

/-- Nothing is to be acknowledged. -/
def isEmpty (u : LsUnackPeer) : Bool := u.tpmSeq = lsInvalidMessageId && u.lsaMap.entries.isEmpty

end LsUnackPeer

abbrev LsRetransmissionManager := OrdMap ℤ LsUnackPeer

namespace LsRetransmissionManager

variable (a : LsRetransmissionManager)

def cancelTimer (nbrId : ℤ) : LsRetransmissionManager :=
  match a.find nbrId with
  | none => a
  | some _ => a.set nbrId .empty

def messageOut (peerId : ℤ) (msg : LsMessage) : LsRetransmissionManager :=
  let u := (a.find peerId).getD .empty
  a.set peerId <|
    match msg.type with
    | .tpm => { u with tpmSeq := msg.sequenceNumber }
    | .lsa => { u with lsaMap := u.lsaMap.set msg.originNodeId ⟨msg, msg.sequenceNumber⟩ }
    | _ => u

def ackIn (peerId : ℤ) (msg : LsMessage) : LsRetransmissionManager :=
  match a.find peerId with
  | none => a
  | some u =>
    match msg.type with
    | .tpmAck =>
      if u.tpmSeq = msg.sequenceNumber then a.set peerId { u with tpmSeq := lsInvalidMessageId } else a
    | .lsaAck =>
      if (u.lsaMap.find msg.originNodeId).any fun x => x.seq = msg.sequenceNumber then
        a.set peerId { u with lsaMap := u.lsaMap.erase msg.originNodeId }
      else a
    | _ => a

end LsRetransmissionManager

/-- `LsRouting`, with the link states and peers of its node. -/
structure LsRouting where
  myNodeId : ℤ
  peerIdList : List ℤ
  linkStateList : List LsLinkState
  linkStateDatabase : LsDatabase
  lsaHistory : LsMessageHistory
  tpmHistory : LsMessageHistory
  ackManager : LsRetransmissionManager
  messageBuffer : List (ℤ × LsMessage)

/-- The link states as `rtProtoLS` makes them; their sequence numbers are not initialised, and not read
before they are set. -/
def newRecords (lsl : List LsLinkState) : List LsRecord :=
  lsl.map fun l => { l with sequenceNumber := lsInvalidMessageId }

namespace LsRouting

def init (myNodeId : ℤ) (peerIdList : List ℤ) (linkStateList : List LsLinkState) : LsRouting where
  myNodeId := myNodeId
  peerIdList := peerIdList
  linkStateList := linkStateList
  linkStateDatabase := OrdMap.empty.set myNodeId (newRecords linkStateList)
  lsaHistory := .empty
  tpmHistory := .empty
  ackManager := .empty
  messageBuffer := []

/-- `isUp` -/
def isUp (r : LsRouting) (neighborId : ℤ) : Bool :=
  (r.linkStateList.find? fun l => l.neighborId = neighborId).any fun l => l.status = .up

end LsRouting

/-- A node in the course of an event: the id of the next LSA or topology message, and the messages that
have been sent, with the peers they are for. -/
structure LsAct where
  routing : LsRouting
  currentLsaId : ℕ
  sent : List (ℤ × LsMessage)

namespace LsAct

variable (x : LsAct)

def sendMessage (peerId : ℤ) (msg : LsMessage) : LsAct := { x with sent := x.sent ++ [(peerId, msg)] }

def messageOut (peerId : ℤ) (msg : LsMessage) : LsAct :=
  { x with routing.ackManager := x.routing.ackManager.messageOut peerId msg }

def bufferedSend (peerId : ℤ) (msg : LsMessage) : LsAct :=
  { x with routing.messageBuffer := x.routing.messageBuffer ++ [(peerId, msg)] }

/-- The id of a new message. When the ids have wrapped, `newMessage` finds the id in the storage and
aborts. -/
def newMessage : Option (ℕ × LsAct) :=
  if x.currentLsaId < 2 ^ 32 then some (x.currentLsaId, { x with currentLsaId := x.currentLsaId + 2 })
  else none

/-- A message for the peers that meet `ok`, in their order. -/
def toPeers (ok : ℤ → Bool) (buffer : Bool) (msg : LsMessage) : LsAct :=
  (x.routing.peerIdList.filter ok).foldl (fun x p =>
    if buffer then x.bufferedSend p msg else (x.messageOut p msg).sendMessage p msg) x

/-- `sendLinkStates` -/
def sendLinkStates (buffer : Bool) : Option LsAct :=
  let me := x.routing.myNodeId
  if x.routing.peerIdList = [] then some x
  else
    match x.routing.linkStateDatabase.find me with
    | none => some x
    | some [] => some x
    | some lsl =>
      x.newMessage.map fun (id, x) =>
        let lsl := lsl.map fun l => { l with sequenceNumber := id }
        let x := { x with routing.linkStateDatabase := x.routing.linkStateDatabase.set me lsl }
        x.toPeers x.routing.isUp buffer ⟨.lsa, id, id, me, .linkStates lsl⟩

/-- `sendTopo` -/
def sendTopo (neighborId : ℤ) : Option LsAct :=
  x.newMessage.map fun (id, x) => x.bufferedSend neighborId ⟨.tpm, id, id, x.routing.myNodeId, .topo⟩

/-- The loop of `linkStateChanged` over the new and the old link states. -/
def peerChanges : List LsLinkState → List LsRecord → LsAct → Option LsAct
  | [], _, x => some x
  | _ :: _, [], _ => none
  | new :: l, old :: l', x =>
    if new.neighborId ≠ old.neighborId then none
    else
      let x := if new.status = .down then
        { x with routing.ackManager := x.routing.ackManager.cancelTimer new.neighborId } else x
      if new.status = .down ∨ old.status = .up then peerChanges l l' x
      else (x.sendTopo new.neighborId).bind (peerChanges l l')

/-- `linkStateChanged`; `none` is a call of `ls_error`. -/
def linkStateChanged : Option LsAct :=
  let me := x.routing.myNodeId
  match x.routing.linkStateDatabase.find me with
  | none => none
  | some oldlsl =>
    let u := LsDatabase.update me me (newRecords x.routing.linkStateList) x.routing.linkStateDatabase
    let x := { x with routing.linkStateDatabase := u.1 }
    (if u.2 then x.sendLinkStates true else some x).bind (peerChanges x.routing.linkStateList oldlsl)

/-- `intfChanged` of `rtProtoLS` -/
def intfChanged (linkStateList : List LsLinkState) : Option LsAct :=
  linkStateChanged { x with routing.linkStateList := linkStateList }

/-- `sendBufferedMessages` -/
def sendBufferedMessages : LsAct :=
  let y := x.routing.messageBuffer.foldl (fun x e => (x.messageOut e.1 e.2).sendMessage e.1 e.2) x
  { y with routing.messageBuffer := [] }

/-- `receiveLSA` -/
def receiveLSA (senderId : ℤ) (msg : LsMessage) : LsAct :=
  let me := x.routing.myNodeId
  let origin := msg.originNodeId
  let x := x.sendMessage senderId ⟨.lsaAck, 0, msg.messageId, origin, .null⟩
  if origin = me ∨ ¬x.routing.lsaHistory.isNewMessage msg then x
  else
    let x := { x with routing.lsaHistory := x.routing.lsaHistory.save msg }
    let x := x.toPeers (fun p => p ≠ origin && p ≠ senderId && x.routing.isUp p) false msg
    match msg.content with
    | .linkStates lsl =>
      { x with
        routing.linkStateDatabase := (LsDatabase.update me origin lsl x.routing.linkStateDatabase).1 }
    | _ => x

/-- `regenAndSend`; the copy of the link states is not put into the message. -/
def regenAndSend (exception origin : ℤ) (lsl : List LsRecord) : Option LsAct :=
  if lsl = [] then none
  else
    x.newMessage.map fun (id, x) =>
      x.toPeers (fun p => p ≠ origin && p ≠ exception && x.routing.isUp p) true
        ⟨.lsa, id, headSeq lsl, origin, .null⟩

/-- The test of `receiveTopo` of the own record of an origin. -/
def outdated (mine : Option (List LsRecord)) (lsl : List LsRecord) : Bool :=
  match mine with
  | none => true
  | some mine => mine.isEmpty || isNewer (headSeq mine) (headSeq lsl)

/-- The loop of `receiveTopo` for one origin. -/
def receiveRecord (neighborId : ℤ) (x : LsAct) (e : ℤ × List LsRecord) : Option LsAct :=
  if e.1 = x.routing.myNodeId then some x
  else if outdated (x.routing.linkStateDatabase.find e.1) e.2 then
    regenAndSend { x with routing.linkStateDatabase := x.routing.linkStateDatabase.set e.1 e.2 }
      neighborId e.1 e.2
  else some x

/-- `receiveTopo`; `topo` is what the content pointer leads to. -/
def receiveTopo (neighborId : ℤ) (msg : LsMessage) (topo : LsDatabase) : Option LsAct :=
  let x := x.sendMessage neighborId ⟨.tpmAck, 0, msg.sequenceNumber, neighborId, .null⟩
  if ¬x.routing.tpmHistory.isNewMessage msg then some x
  else topo.entries.foldlM (receiveRecord neighborId)
    { x with routing.tpmHistory := x.routing.tpmHistory.save msg }

/-- `receiveMessage`; the sender is not `LS_INVALID_NODE_ID`. -/
def receiveMessage (senderId : ℤ) (msg : LsMessage) (topo : LsDatabase) : Option LsAct :=
  match msg.type with
  | .tpm => x.receiveTopo senderId msg topo
  | .lsa => some (x.receiveLSA senderId msg)
  | .lsaAck | .tpmAck =>
    some { x with routing.ackManager := x.routing.ackManager.ackIn senderId msg }

/-- `resendMessages` -/
def resendMessages (peerId : ℤ) : LsAct :=
  match x.routing.ackManager.find peerId with
  | none => x
  | some u =>
    let y := if u.tpmSeq ≠ lsInvalidMessageId then
      x.sendMessage peerId ⟨.tpm, u.tpmSeq, u.tpmSeq, x.routing.myNodeId, .topo⟩ else x
    u.lsaMap.entries.foldl (fun y e => y.sendMessage peerId e.2.msg) y

end LsAct

structure LsPacket where
  src : ℤ
  dst : ℤ
  msg : LsMessage
deriving DecidableEq

/-- A network of nodes. -/
structure LsNetwork where
  node : ℤ → LsRouting
  currentLsaId : ℕ
  flight : List LsPacket

/-- `intfChanged`, `sendUpdates` and `sendBufferedMessages` are the commands of a node; a packet is
delivered, or lost on a link that is down; a retransmission timer fires. -/
inductive LsEvent where
  | intfChanged (node : ℤ) (linkStateList : List LsLinkState)
  | sendUpdates (node : ℤ)
  | sendBufferedMessages (node : ℤ)
  | deliver (k : ℕ)
  | lose (k : ℕ)
  | resendMessages (node peerId : ℤ)

namespace LsNetwork

variable (net : LsNetwork)

/-- A node acts. -/
def act (node : ℤ) (f : LsAct → Option LsAct) : Option LsNetwork :=
  (f ⟨net.node node, net.currentLsaId, []⟩).map fun x =>
    { node := Function.update net.node node x.routing
      currentLsaId := x.currentLsaId
      flight := net.flight ++ x.sent.map fun e => ⟨node, e.1, e.2⟩ }

/-- `none` is a call of `ls_error`; what cannot happen has no effect. A node keeps its interfaces, and
ignores packets of others than its peers. -/
def handle : LsEvent → Option LsNetwork
  | .intfChanged node lsl =>
    if lsl.map LsLinkState.neighborId = (net.node node).linkStateList.map LsLinkState.neighborId then
      net.act node fun x => x.intfChanged lsl
    else some net
  | .sendUpdates node => net.act node fun x => x.sendLinkStates false
  | .sendBufferedMessages node => net.act node fun x => some x.sendBufferedMessages
  | .deliver k =>
    match net.flight[k]? with
    | none => some net
    | some p =>
      let net' := { net with flight := net.flight.eraseIdx k }
      if p.src ∈ (net.node p.dst).peerIdList then
        net'.act p.dst fun x =>
          x.receiveMessage p.src p.msg (net.node p.msg.originNodeId).linkStateDatabase
      else some net'
  | .lose k =>
    match net.flight[k]? with
    | none => some net
    | some p =>
      some (if (net.node p.src).isUp p.dst then net else { net with flight := net.flight.eraseIdx k })
  | .resendMessages node peerId => net.act node fun x => some (x.resendMessages peerId)

end LsNetwork

def lsRouting : Machine LsNetwork LsEvent Unit where
  step net e := (net.handle e).map fun net => (net, ())

end Ns2.LinkState
