import Mathlib.Tactic.NormNum
import Ns2.Lib.Keyed
import Ns2.Lib.Machine

/-! The IMEP agent: the links to the neighbours, the queue of object packets that wait for
acknowledgements, and the queues of those that arrived out of order. Packets are numbered by the
count of the object packets of their sender, of which the low 8 bits are sent. A `double` is a
rational number; the statistics and the traces are left out. -/

namespace Ns2.Imep

/-- `RETRANS_PERIOD` -/
def retransPeriod : ℚ := 1 / 2

/-- `MAX_REXMITS` -/
def maxRexmits : ℕ := 2

/-- `MAX_RETRANS_TIME` -/
def maxRetransTime : ℚ := retransPeriod * (maxRexmits + 1)

/-- `MAX_BEACON_TIME` -/
def maxBeaconTime : ℚ := 3

/-- `ILLEGAL_SEQ` -/
def illegalSeq : ℕ := 257

/-- `imepLink`; the bits of the status are `LINK_IN` and `LINK_OUT`. -/
structure ImepLink where
  index : ℤ
  linkIn : Bool
  linkOut : Bool
  inExpire : ℚ
  outExpire : ℚ
  lastSeq : ℕ

namespace ImepLink

def isDown (l : ImepLink) : Bool := !l.linkIn && !l.linkOut

def isBi (l : ImepLink) : Bool := l.linkIn && l.linkOut

/-- What a packet from the neighbour does to the link. -/
def setIn (now : ℚ) (l : ImepLink) : ImepLink :=
  let l := if l.isDown then { l with lastSeq := 0, outExpire := -1 } else l
  { l with linkIn := true, inExpire := now + maxBeaconTime }

/-- What a packet that says that the neighbour hears us does to the link. -/
def setOut (now : ℚ) (l : ImepLink) : ImepLink :=
  { l with linkOut := true, outExpire := now + maxBeaconTime }

def setDown (l : ImepLink) : ImepLink :=
  { l with linkIn := false, linkOut := false, inExpire := -1, outExpire := -1 }

/-- The bits of the status that have expired are cleared. -/
def expire (now : ℚ) (l : ImepLink) : ImepLink :=
  { l with linkIn := l.linkIn && ¬l.inExpire < now, linkOut := l.linkOut && ¬l.outExpire < now }

/-- `lastSeqValid` returns a reference to `last_seq_`, not to `last_seq_valid`. -/
def lastSeqValid (l : ImepLink) : Bool := l.lastSeq ≠ 0

end ImepLink

/-- The object block of a packet and the memory from the start of its response list on. -/
structure ObjectBlock where
  number : ℕ
  numResponses : ℕ
  resp : ℕ → ℤ

/-- What becomes of a response list from which a neighbour is removed. -/
inductive Removal where
  | absent
  | last
  | shortened (ob : ObjectBlock)

namespace ObjectBlock

/-- The slot where the search for `index` stops: the one behind the end if it is not in the list. -/
def slotOf (index : ℤ) (ob : ObjectBlock) : ℕ :=
  ((List.range ob.numResponses).find? fun i => ob.resp i = index).getD ob.numResponses

/-- The part that `removeObjectResponse` and `purgeReXmitQ` share; the test after the search also
reads the slot behind the end. -/
def dropResponse (index : ℤ) (ob : ObjectBlock) : Removal :=
  let r0 := ob.slotOf index
  if ob.resp r0 ≠ index then .absent
  else if ob.numResponses = 1 then .last
  else
    let r := ob.numResponses - 1
    .shortened { ob with
      resp := if r ≠ r0 then Function.update ob.resp r0 (ob.resp r) else ob.resp
      numResponses := ob.numResponses - 1 }

end ObjectBlock

/-- `rexent` -/
structure Rexent where
  rexmitAt : ℚ
  rexmitsLeft : ℕ
  block : ObjectBlock

namespace Rexent

/-- The packet of the entry. -/
def number (e : Rexent) : ℕ := e.block.number

/-- `ob_sequence` -/
def sequence (e : Rexent) : ℕ := e.number % 256

end Rexent

/-- `txent`; of the packet only its number is kept. -/
structure Txent where
  expire : ℚ
  seqno : ℕ
  number : ℕ

/-- `dstent`, the resequencing queue of one neighbour. -/
structure Dstent where
  ipaddr : ℤ
  txents : List Txent
  seqno : ℕ

/-- What the routing layer is told. `linkDown` is a neighbour that is set down, `holeRetired` the two
notifications of a neighbour that stays up. -/
inductive Upcall where
  | linkUp (index : ℤ)
  | linkDown (index : ℤ)
  | holeRetired (index : ℤ)
  | object (index : ℤ) (number : ℕ)
deriving DecidableEq

/-- The timers are the times they are due at; `rtagent` is what the routing layer is told in the
course of one event. -/
structure ImepAgent where
  now : ℚ
  controlSequence : ℕ
  links : List ImepLink
  rexmitq : List Rexent
  incomingQ : List Dstent
  rexmitTimer : Option ℚ
  incomingTimer : Option ℚ
  rtagent : List Upcall

/-- `ReXmitQ::insert`: in front of the first entry that is due later. -/
def insertRexent (r : Rexent) : List Rexent → List Rexent
  | [] => [r]
  | i :: l => if r.rexmitAt < i.rexmitAt then r :: i :: l else i :: insertRexent r l

/-- The difference of two sequence numbers as an `int8_t`. -/
def seqDiff (a b : ℕ) : ℤ := Int.bmod (a - b) 256

/-- `SEQ_GT` -/
def seqGt (a b : ℕ) : Bool := 0 < seqDiff a b

namespace Dstent

/-- The new entry in front of the first one with a greater sequence number. -/
def insertTxent (t : Txent) : List Txent → List Txent
  | [] => [t]
  | u :: l => if seqGt u.seqno t.seqno then t :: u :: l else u :: insertTxent t l

/-- `dstent::addEntry`; the second copy of a packet is freed. -/
def addEntry (t : Txent) (d : Dstent) : Dstent :=
  match findKey Txent.seqno t.seqno d.txents with
  | none => { d with txents := insertTxent t d.txents }
  | some _ => d

/-- `dstent::expire`: the least time of the entries, 0 if there is none. -/
def expire (d : Dstent) : ℚ :=
  d.txents.foldl (fun min t => if min = 0 ∨ (t.expire ≠ 0 ∧ t.expire < min) then t.expire else min) 0

end Dstent

/-- `dstQueue::addEntry` -/
def addEntry (dst : ℤ) (t : Txent) (q : List Dstent) : List Dstent :=
  match findKey Dstent.ipaddr dst q with
  | none => Dstent.addEntry t ⟨dst, [], illegalSeq⟩ :: q
  | some _ => updateKey Dstent.ipaddr dst (Dstent.addEntry t) q

/-- `dstQueue::getPacket`: the number of the packet, which leaves the queue. -/
def getPacket (dst : ℤ) (seqno : ℕ) (q : List Dstent) : Option (ℕ × List Dstent) := do
  let d ← findKey Dstent.ipaddr dst q
  let t ← findKey Txent.seqno seqno d.txents
  return (t.number, updateKey Dstent.ipaddr dst
    (fun d => { d with txents := eraseKey Txent.seqno seqno d.txents }) q)

/-- `dstQueue::getNextExpire` -/
def getNextExpire (q : List Dstent) : ℚ :=
  q.foldl (fun min d => if min = 0 ∨ (d.expire ≠ 0 ∧ d.expire < min) then d.expire else min) 0

/-- `dstQueue::getNextPacket`: the neighbour and the first of its packets, if one is to be passed on;
`none` is a failed assertion. -/
def getNextPacket (now : ℚ) : List Dstent → Option (Option (ℤ × Txent) × List Dstent)
  | [] => some (none, [])
  | d :: q =>
    match d.txents with
    | [] => (getNextPacket now q).map fun r => (r.1, { d with seqno := illegalSeq } :: r.2)
    | t :: ts =>
      if d.expire = 0 then none
      else if d.expire > now ∧ d.seqno = illegalSeq then
        (getNextPacket now q).map fun r => (r.1, d :: r.2)
      else if t.expire ≤ now then
        some (some (d.ipaddr, t), { d with txents := ts, seqno := t.seqno } :: q)
      else if d.seqno ≠ illegalSeq ∧ t.seqno ≠ (d.seqno + 1) % 256 then
        (getNextPacket now q).map fun r => (r.1, { d with seqno := illegalSeq } :: r.2)
      else
        some (some (d.ipaddr, t),
          { d with txents := ts, seqno := if d.seqno ≠ illegalSeq then t.seqno else d.seqno } :: q)

namespace ImepAgent

def init : ImepAgent := ⟨0, 0, [], [], [], none, none, []⟩

def findLink (index : ℤ) (s : ImepAgent) : Option ImepLink := findKey ImepLink.index index s.links

def setLink (index : ℤ) (f : ImepLink → ImepLink) (s : ImepAgent) : ImepAgent :=
  { s with links := updateKey ImepLink.index index f s.links }

/-- A call of the routing layer. -/
def notify (u : Upcall) (s : ImepAgent) : ImepAgent := { s with rtagent := s.rtagent ++ [u] }

/-- The neighbour has a link, which is down if it is new. -/
def addLink (index : ℤ) (s : ImepAgent) : ImepAgent :=
  match s.findLink index with
  | none => { s with links := ⟨index, false, false, 0, -1, 0⟩ :: s.links }
  | some _ => s

/-- `imepSetLinkInStatus` -/
def imepSetLinkInStatus (index : ℤ) (s : ImepAgent) : ImepAgent :=
  let s := s.addLink index
  let up := (s.findLink index).any fun l => !l.linkIn && l.linkOut
  let s := s.setLink index (ImepLink.setIn s.now)
  if up then s.notify (.linkUp index) else s

/-- `imepSetLinkOutStatus`; `none` is a failed assertion. -/
def imepSetLinkOutStatus (index : ℤ) (s : ImepAgent) : Option ImepAgent :=
  (s.findLink index).map fun l =>
    let up := !l.linkOut && l.linkIn
    let s := s.setLink index (ImepLink.setOut s.now)
    if up then s.notify (.linkUp index) else s

/-- `imepSetLinkBiStatus` -/
def imepSetLinkBiStatus (index : ℤ) (s : ImepAgent) : Option ImepAgent :=
  (s.imepSetLinkInStatus index).imepSetLinkOutStatus index

/-- `purgeReXmitQ`; each round only changes the packet it is about. -/
def purgeReXmitQ (index : ℤ) (s : ImepAgent) : ImepAgent :=
  { s with
    rexmitq := s.rexmitq.filterMap fun e =>
      match e.block.dropResponse index with
      | .absent => some e
      | .last => none
      | .shortened ob => some { e with block := ob } }

/-- `imepSetLinkDownStatus` -/
def imepSetLinkDownStatus (index : ℤ) (s : ImepAgent) : ImepAgent :=
  match s.findLink index with
  | none => s
  | some _ =>
    let s := s.setLink index ImepLink.setDown
    let s := { s with incomingQ := eraseKey Dstent.ipaddr index s.incomingQ }
    (s.purgeReXmitQ index).notify (.linkDown index)

/-- The body of the loop of `purgeLink`, at the link to `index`. -/
def purgeLink (index : ℤ) (s : ImepAgent) : ImepAgent :=
  match s.findLink index with
  | none => s
  | some l =>
    let s' := s.setLink index (ImepLink.expire s.now)
    let s' := if l.isBi && !(s'.findLink index).any ImepLink.isBi then s'.imepSetLinkDownStatus index
      else s'
    if (s'.findLink index).any ImepLink.isDown then
      { s' with links := eraseKey ImepLink.index index s'.links }
    else s'

/-- The neighbours that `createResponseList` writes down. -/
def biLinks (s : ImepAgent) : List ℤ := (s.links.filter ImepLink.isBi).map ImepLink.index

def scheduleReXmit (ob : ObjectBlock) (s : ImepAgent) : ImepAgent :=
  { s with
    rexmitq := insertRexent ⟨s.now + retransPeriod, maxRexmits, ob⟩ s.rexmitq
    rexmitTimer := s.rexmitTimer.or (some (s.now + retransPeriod)) }

/-- `createResponseList` and the end of `aggregateObjectBlock`, for a packet of objects.
`ob_num_responses` has 5 bits; `memory` is what the packet has where the list is written and behind
it. -/
def aggregateObjectBlock (memory : ℕ → ℤ) (s : ImepAgent) : ImepAgent :=
  let s := { s with controlSequence := s.controlSequence + 1 }
  let ob : ObjectBlock :=
    ⟨s.controlSequence, s.biLinks.length % 32, fun i => s.biLinks.getD i (memory i)⟩
  if ob.numResponses > 0 then s.scheduleReXmit ob else s

/-- `findObjectSequence`; the outer `none` is a call of `abort`. -/
def findObjectSequence (seqno : ℕ) (s : ImepAgent) : Option (Option ObjectBlock) :=
  match findKey Rexent.sequence seqno s.rexmitq with
  | none => some none
  | some e => if e.block.numResponses = 0 then none else some (some e.block)

/-- `removeObjectResponse` -/
def removeObjectResponse (ob : ObjectBlock) (index : ℤ) (s : ImepAgent) : ImepAgent :=
  match ob.dropResponse index with
  | .absent => s
  | .last => { s with rexmitq := eraseKey Rexent.number ob.number s.rexmitq }
  | .shortened ob' =>
    { s with rexmitq := updateKey Rexent.number ob.number (fun e => { e with block := ob' }) s.rexmitq }

/-- The body of the loop of `imep_ack_input`, for an acknowledgement of our packet `number`. -/
def imepAckInput (src : ℤ) (number : ℕ) (s : ImepAgent) : Option ImepAgent :=
  match s.findObjectSequence (number % 256) with
  | none => none
  | some none => some s
  | some (some ob) => (s.removeObjectResponse ob src).imepSetLinkBiStatus src

/-- The loop of `handlerReXmitTimer` over the response list of the packet `number`, from the slot `i`
on. If the packet has been dropped it had one neighbour left, and the loop ends. -/
def puntNeighbors (number : ℕ) : ℕ → ℕ → ImepAgent → ImepAgent
  | 0, _, s => s
  | fuel + 1, i, s =>
    match findKey Rexent.number number s.rexmitq with
    | none => s
    | some e =>
      if i < e.block.numResponses then
        puntNeighbors number fuel (i + 1) (s.imepSetLinkDownStatus (e.block.resp i))
      else s

/-- The end of `handlerReXmitTimer`. -/
def restartReXmitTimer (s : ImepAgent) : ImepAgent :=
  match s.rexmitq with
  | [] => s
  | e :: _ => { s with rexmitTimer := some (s.now + (e.rexmitAt - s.now)) }

/-- `handlerReXmitTimer` -/
def handlerReXmitTimer (s : ImepAgent) : ImepAgent :=
  match s.rexmitq with
  | [] => s
  | e :: rest =>
    let s :=
      if e.rexmitsLeft = 0 then puntNeighbors e.number e.block.numResponses 0 s
      else if e.rexmitAt ≤ s.now then
        { s with rexmitq := insertRexent ⟨s.now + retransPeriod, e.rexmitsLeft - 1, e.block⟩ rest }
      else s
    s.restartReXmitTimer

/-- The number of packets in the resequencing queues. -/
def buffered (s : ImepAgent) : ℕ := (s.incomingQ.map fun d => d.txents.length).sum

def setLastSeq (index : ℤ) (seq : ℕ) (s : ImepAgent) : ImepAgent :=
  s.setLink index fun l => { l with lastSeq := seq % 256 }

/-- The packets that follow the last one are passed on. `lastSeq() + 1` is not reduced to 8 bits. The
loop takes a packet from the queues in each round. -/
def deliverInSequence (index : ℤ) : ℕ → ImepAgent → ImepAgent
  | 0, s => s
  | fuel + 1, s =>
    match s.findLink index with
    | none => s
    | some l =>
      match getPacket index (l.lastSeq + 1) s.incomingQ with
      | none => s
      | some (number, q) =>
        deliverInSequence index fuel
          (({ s with incomingQ := q }.setLastSeq index (l.lastSeq + 1)).notify (.object index number))

/-- `scheduleIncoming` -/
def scheduleIncoming (src : ℤ) (number : ℕ) (s : ImepAgent) : ImepAgent :=
  { s with
    incomingQ := addEntry src ⟨s.now + maxRetransTime, number % 256, number⟩ s.incomingQ
    incomingTimer := s.incomingTimer.or (some (s.now + maxRetransTime)) }

/-- `imep_object_input`; `none` is a failed assertion. -/
def imepObjectInput (src : ℤ) (number : ℕ) (s : ImepAgent) : Option ImepAgent :=
  let seq := number % 256
  match s.findLink src with
  | none => none
  | some l =>
    let last := if l.lastSeqValid then l.lastSeq else (seq + 255) % 256
    let s := s.setLastSeq src last
    let reg := seqDiff seq last
    if reg ≤ 0 then some s
    else if reg = 1 then
      let s := s.notify (.object src number)
      if (last + 1) % 256 = seq then
        let s := s.setLastSeq src seq
        some (s.deliverInSequence src s.buffered)
      else none
    else
      let s := s.scheduleIncoming src number
      some (s.deliverInSequence src s.buffered)

/-- The loop of `handlerIncomingTimer`; `none` is a failed assertion. -/
def retireHoles : ℕ → ImepAgent → Option ImepAgent
  | 0, _ => none
  | fuel + 1, s =>
    match getNextPacket s.now s.incomingQ with
    | none => none
    | some (none, q) => some { s with incomingQ := q }
    | some (some (index, t), q) =>
      match s.findLink index with
      | none => none
      | some _ =>
        let s := ({ s with incomingQ := q }.notify (.holeRetired index)).setLastSeq index t.seqno
        let s := s.notify (.object index t.number)
        retireHoles fuel (s.deliverInSequence index s.buffered)

/-- `handlerIncomingTimer`; `none` is a failed assertion. -/
def handlerIncomingTimer (s : ImepAgent) : Option ImepAgent :=
  match s.retireHoles (s.buffered + 1) with
  | none => none
  | some s =>
    let expire := getNextExpire s.incomingQ
    if expire ≠ 0 then
      if expire > s.now then some { s with incomingTimer := some (s.now + (expire - s.now)) } else none
    else some s

end ImepAgent

/-- What a packet of a neighbour carries. One with several blocks or acknowledgements counts as several
packets, one after the other: `imepSetLinkInStatus` has no effect the second time. -/
inductive Block where
  | beacon
  | ack (number : ℕ)
  | hello
  | object (number : ℕ)

/-- `undeliverable` is the call of the MAC layer, `purge` a round of the loop of `purgeLink`. -/
inductive ImepEvent where
  | tick (t : ℚ)
  | send (memory : ℕ → ℤ)
  | recv (src : ℤ) (block : Block)
  | undeliverable (nextHop : ℤ)
  | purge (index : ℤ)
  | rexmitTimer
  | incomingTimer

namespace ImepAgent

/-- `recv_incoming` -/
def recvIncoming (src : ℤ) (block : Block) (s : ImepAgent) : Option ImepAgent :=
  let s := s.imepSetLinkInStatus src
  match block with
  | .beacon => some s
  | .ack number => s.imepAckInput src number
  | .hello => s.imepSetLinkBiStatus src
  | .object number => s.imepObjectInput src number

/-- Time does not run backwards, nor past a timer. -/
def mayTick (t : ℚ) (s : ImepAgent) : Bool :=
  s.now ≤ t && (s.rexmitTimer.all (t ≤ ·)) && (s.incomingTimer.all (t ≤ ·))

/-- `none` is a failed assertion; what cannot happen has no effect. -/
def handle (s : ImepAgent) : ImepEvent → Option ImepAgent
  | .tick t => some (if s.mayTick t then { s with now := t } else s)
  | .send memory => some (s.aggregateObjectBlock memory)
  | .recv src block => s.recvIncoming src block
  | .undeliverable nextHop => some (s.imepSetLinkDownStatus nextHop)
  | .purge index => some (s.purgeLink index)
  | .rexmitTimer =>
    if s.rexmitTimer = some s.now then some { s with rexmitTimer := none }.handlerReXmitTimer
    else some s
  | .incomingTimer =>
    if s.incomingTimer = some s.now then { s with incomingTimer := none }.handlerIncomingTimer
    else some s

end ImepAgent

/-- The answer to an event is what the routing layer is told. -/
def imep : Machine ImepAgent ImepEvent (List Upcall) where
  step s e := ({ s with rtagent := [] }.handle e).map fun s => (s, s.rtagent)

end Ns2.Imep
