import Mathlib.Data.Rat.Floor
import Ns2.Lib.Keyed
import Ns2.Lib.Machine

/-! The AODV agent: the route table, the send buffer, and what the handlers do with them. Sequence numbers
are counted modulo `m`, which is `2 ^ 32`, or 0 when they are without a bound. -/

namespace Ns2.Aodv

def infinity2 : ℕ := 0xff
def ipBroadcast : ℤ := -1

def myRouteTimeout : ℚ := 10
def activeRouteTimeout : ℚ := 10
def revRouteLife : ℚ := 6
def bcastIdSave : ℚ := 6
def rreqRetries : ℕ := 3
def maxRreqTimeout : ℚ := 10
def ttlStart : ℕ := 5
def ttlThreshold : ℕ := 7
def ttlIncrement : ℕ := 2
def nodeTraversalTime : ℚ := 3 / 100
def networkDiameter : ℕ := 30
def helloInterval : ℚ := 1
def allowedHelloLoss : ℚ := 3
def maxHistory : ℕ := 3
def aodvMaxErrors : ℕ := 100
def aodvRtqMaxLen : ℕ := 64
def aodvRtqTimeout : ℚ := 30

inductive RtFlags where
  | down
  | up
  | inRepair
deriving DecidableEq

/-- `aodv_rt_entry` -/
structure RtEntry where
  reqTimeout : ℚ
  reqCnt : ℕ
  dst : ℤ
  seqno : ℕ
  hops : ℕ
  lastHopCount : ℕ
  nexthop : ℤ
  pclist : List ℤ
  expire : ℚ
  flags : RtFlags
  discLatency : List ℚ
  histIndx : ℕ
  reqLastTtl : ℕ
deriving DecidableEq

/-- `aodv_rt_entry()`, with the destination. -/
def RtEntry.new (dst : ℤ) : RtEntry where
  reqTimeout := 0
  reqCnt := 0
  dst := dst
  seqno := 0
  hops := infinity2
  lastHopCount := infinity2
  nexthop := 0
  pclist := []
  expire := 0
  flags := .down
  discLatency := List.replicate maxHistory 0
  histIndx := 0
  reqLastTtl := 0

/-- What AODV reads of a data packet; `up` is the direction, `ts` the time until which it is buffered. -/
structure DataPacket where
  saddr : ℤ
  daddr : ℤ
  ttl : ℤ
  numForwards : ℤ
  up : Bool
  nextHop : ℤ
  ts : ℚ
deriving DecidableEq

structure RouteRequest where
  hopCount : ℕ
  bcastId : ℤ
  dst : ℤ
  dstSeqno : ℕ
  src : ℤ
  srcSeqno : ℕ
  timestamp : ℚ
deriving DecidableEq

structure RouteReply where
  hopCount : ℕ
  dst : ℤ
  dstSeqno : ℕ
  src : ℤ
  lifetime : ℚ
  timestamp : ℚ
deriving DecidableEq

/-- The unreachable destinations, no more than the arrays hold. -/
structure RouteError where
  unreachable : List (ℤ × ℕ)
  fits : unreachable.length ≤ aodvMaxErrors
deriving DecidableEq

/-- A route error for one destination. -/
def RouteError.one (d : ℤ) (n : ℕ) : RouteError :=
  ⟨[(d, n)], by rw [List.length_singleton]; decide⟩

inductive AodvMsg where
  | hello (hopCount : ℕ) (dst : ℤ) (dstSeqno : ℕ) (lifetime : ℚ)
  | request (rq : RouteRequest)
  | reply (rp : RouteReply)
  | error (re : RouteError)
deriving DecidableEq

structure AodvPacket where
  saddr : ℤ
  daddr : ℤ
  ttl : ℤ
  msg : AodvMsg
deriving DecidableEq

/-- A packet handed to `target_`, for the next hop or for all neighbours. -/
inductive Sent where
  | aodv (nextHop : Option ℤ) (p : AodvPacket)
  | data (nextHop : Option ℤ) (p : DataPacket)
deriving DecidableEq

structure Neighbor where
  addr : ℤ
  expire : ℚ
deriving DecidableEq

structure BroadcastID where
  src : ℤ
  id : ℤ
  expire : ℚ
deriving DecidableEq

/-- `here` is the address `here_.addr_` of the agent; `lrtimers` are the destinations that a local repair
timer is set for. -/
structure AodvAgent where
  index : ℤ
  here : ℤ
  seqno : ℕ
  bid : ℤ
  nblist : List Neighbor
  bilist : List BroadcastID
  rtable : List RtEntry
  rqueue : List DataPacket
  lrtimers : List ℤ
deriving DecidableEq

namespace RtEntry

variable (rt : RtEntry)

def rtUpdate (seqnum metric : ℕ) (nexthop : ℤ) (expireTime : ℚ) : RtEntry :=
  { rt with seqno := seqnum, hops := metric, flags := .up, nexthop := nexthop, expire := expireTime }

def rtDown : RtEntry :=
  if rt.flags = .down then rt
  else { rt with lastHopCount := rt.hops, hops := infinity2, flags := .down, nexthop := 0, expire := 0 }

def pcInsert (id : ℤ) : RtEntry :=
  if id ∈ rt.pclist then rt else { rt with pclist := id :: rt.pclist }

def pcDelete (id : ℤ) : RtEntry := { rt with pclist := rt.pclist.erase id }

def perHopTime : ℚ :=
  let known := rt.discLatency.filter fun l => 0 < l
  if 0 < known.length then known.sum / known.length else nodeTraversalTime

/-- A received route is newer, or as new and shorter. -/
def Fresher (seqnum hopCount : ℕ) : Prop :=
  rt.seqno < seqnum ∨ rt.seqno = seqnum ∧ hopCount < rt.hops

instance (seqnum hopCount : ℕ) : Decidable (rt.Fresher seqnum hopCount) :=
  inferInstanceAs (Decidable (_ ∨ _))

/-- The expanding ring search: `reqLastTtl` is the TTL of the next request. -/
def ringSearch : RtEntry :=
  let last := max rt.reqLastTtl rt.lastHopCount
  if last = 0 then { rt with reqLastTtl := ttlStart }
  else if last < ttlThreshold then { rt with reqLastTtl := last + ttlIncrement }
  else { rt with reqLastTtl := networkDiameter, reqCnt := (rt.reqCnt + 1) % 256 }

/-- When the next request may be sent. -/
def nextRequest (now : ℚ) : RtEntry :=
  let wait := 2 * rt.reqLastTtl * rt.perHopTime
  let wait := if 0 < rt.reqCnt then wait * rt.reqCnt else wait
  { rt with reqTimeout := min (wait + now) (now + maxRreqTimeout), expire := 0 }

end RtEntry

/-- The loop removes the aged packets one after another. -/
def purge (now : ℚ) (q : List DataPacket) : List DataPacket := q.filter fun p => now ≤ p.ts

def enque (now : ℚ) (p : DataPacket) (q : List DataPacket) : List DataPacket :=
  let q := purge now q
  let q := if q.length = aodvRtqMaxLen then q.tail else q
  q ++ [{ p with ts := now + aodvRtqTimeout }]

/-- What `deque(dst)` returns until it returns none. -/
def buffered (now : ℚ) (dst : ℤ) (q : List DataPacket) : List DataPacket :=
  (purge now q).filter fun p => p.daddr = dst

/-- What the last `deque(dst)` leaves. -/
def leftBy (now : ℚ) (dst : ℤ) (q : List DataPacket) : List DataPacket :=
  (purge now q).filter fun p => p.daddr ≠ dst

namespace AodvAgent

/-- `AODV(id)` -/
def new (id here : ℤ) : AodvAgent := ⟨id, here, 2, 1, [], [], [], [], []⟩

variable (s : AodvAgent)

def idInsert (now : ℚ) (src id : ℤ) : AodvAgent :=
  { s with bilist := ⟨src, id, now + bcastIdSave⟩ :: s.bilist }

def idLookup (src id : ℤ) : Bool := s.bilist.any fun b => b.src = src ∧ b.id = id

def idPurge (now : ℚ) : AodvAgent := { s with bilist := s.bilist.filter fun b => now < b.expire }

def rtLookup (id : ℤ) : Option RtEntry := findKey RtEntry.dst id s.rtable

/-- `rt_add`, when the destination is not in the table. -/
def rtEnsure (id : ℤ) : AodvAgent :=
  match s.rtLookup id with
  | some _ => s
  | none => { s with rtable := .new id :: s.rtable }

/-- What is written through a pointer to the entry. -/
def writeRt (id : ℤ) (f : RtEntry → RtEntry) : AodvAgent :=
  { s with rtable := updateKey RtEntry.dst id f s.rtable }

/-- `forward` of a data packet over the route to `dst`. -/
def forward (now : ℚ) (dst : ℤ) (p : DataPacket) : Option (AodvAgent × List Sent) :=
  if p.ttl = 0 then some (s, [])
  else if p.up ∧ p.daddr = ipBroadcast ∨ p.daddr = s.here then some (s, [])
  else
    match s.rtLookup dst with
    | none => none
    | some rt =>
      if rt.flags ≠ .up ∨ p.daddr = ipBroadcast then none
      else some (s.writeRt dst fun rt => { rt with expire := now + activeRouteTimeout },
        [.data (some rt.nexthop) { p with nextHop := rt.nexthop, up := false }])

/-- `forward` of a data packet without a route. -/
def broadcast (p : DataPacket) : Option (AodvAgent × List Sent) :=
  if p.ttl = 0 then some (s, [])
  else if p.up ∧ p.daddr = ipBroadcast ∨ p.daddr = s.here then some (s, [])
  else if p.daddr ≠ ipBroadcast then none
  else some (s, [.data none { p with up := false }])

/-- The loop that forwards the packets buffered for `dst`. -/
def forwardAll (now : ℚ) (dst : ℤ) (ps : List DataPacket) : Option (AodvAgent × List Sent) :=
  ps.foldlM (fun r p => (r.1.forward now dst p).map fun r' => (r'.1, r.2 ++ r'.2)) (s, [])

def flush (now : ℚ) (dst : ℤ) : Option (AodvAgent × List Sent) :=
  { s with rqueue := leftBy now dst s.rqueue }.forwardAll now dst (buffered now dst s.rqueue)

/-- `seqno += 2` with the assertion. -/
def raiseSeqno (m : ℕ) : Option AodvAgent :=
  if (s.seqno + 2) % m % 2 = 0 then some { s with seqno := (s.seqno + 2) % m } else none

def sendRequest (m : ℕ) (now : ℚ) (dst : ℤ) : Option (AodvAgent × List Sent) :=
  match s.rtLookup dst with
  | none => none
  | some rt =>
    if rt.flags = .up then
      if rt.hops = infinity2 then none else some (s, [])
    else if now < rt.reqTimeout then some (s, [])
    else if rreqRetries < rt.reqCnt then
      some ({ s.writeRt dst fun rt => { rt with reqTimeout := now + maxRreqTimeout, reqCnt := 0 } with
        rqueue := leftBy now dst s.rqueue }, [])
    else
      let r := s.writeRt dst fun rt => rt.ringSearch.nextRequest now
      ({ r with bid := s.bid + 1 }.raiseSeqno m).map fun r =>
        (r, [.aodv none ⟨s.index, ipBroadcast, rt.ringSearch.reqLastTtl,
          .request ⟨1, s.bid, dst, rt.seqno, s.index, r.seqno, now⟩⟩])

def sendReply (ipdst : ℤ) (hopCount : ℕ) (rpdst : ℤ) (rpseq : ℕ) (lifetime timestamp : ℚ) :
    Option (List Sent) :=
  (s.rtLookup ipdst).map fun rt => [.aodv (some rt.nexthop) ⟨s.index, ipdst, networkDiameter,
    .reply ⟨hopCount % 256, rpdst, rpseq, s.index, lifetime, timestamp⟩⟩]

def sendError (re : RouteError) : List Sent := [.aodv none ⟨s.index, ipBroadcast, 1, .error re⟩]

def sendHello : List Sent :=
  [.aodv none ⟨s.index, ipBroadcast, 1,
    .hello 1 s.index s.seqno ((1 + allowedHelloLoss) * helloInterval)⟩]

/-- One round of `handle_link_failure`, with the unreachable destination. -/
def loseRoute (m : ℕ) (id : ℤ) (rt : RtEntry) : Option (RtEntry × Option (ℤ × ℕ)) :=
  if rt.hops ≠ infinity2 ∧ rt.nexthop = id then
    if rt.flags = .up ∧ rt.seqno % 2 = 0 then
      let rt := { rt with seqno := (rt.seqno + 1) % m }
      some (rt.rtDown.pcDelete id, some (rt.dst, rt.seqno))
    else none
  else some (rt.pcDelete id, none)

/-- A route error that does not fit the arrays overwrites what lies behind them. -/
def handleLinkFailure (m : ℕ) (id : ℤ) : Option (AodvAgent × List Sent) :=
  (s.rtable.mapM (loseRoute m id)).bind fun l =>
    let s := { s with rtable := l.map Prod.fst }
    let dests := l.filterMap Prod.snd
    if h : dests.length ≤ aodvMaxErrors then
      some (s, if 0 < dests.length then s.sendError ⟨dests, h⟩ else [])
    else none

def nbDelete (m : ℕ) (id : ℤ) : Option (AodvAgent × List Sent) :=
  (s.raiseSeqno m).bind fun s =>
    { s with nblist := eraseKey Neighbor.addr id s.nblist }.handleLinkFailure m id

/-- The loop over the neighbours. -/
def nbPurge (m : ℕ) (now : ℚ) : Option (AodvAgent × List Sent) :=
  s.nblist.foldlM (fun r nb =>
    if nb.expire ≤ now then (r.1.nbDelete m nb.addr).map fun r' => (r'.1, r.2 ++ r'.2) else some r) (s, [])

def localRtRepair (m : ℕ) (now : ℚ) (dst : ℤ) (p : DataPacket) : Option (AodvAgent × List Sent) :=
  let s := { s with rqueue := enque now p s.rqueue }.writeRt dst fun rt => { rt with flags := .inRepair }
  (s.sendRequest m now dst).map fun r => ({ r.1 with lrtimers := p.daddr :: r.1.lrtimers }, r.2)

/-- `isData` tells whether the packet is a data packet. -/
def rtLlFailed (m : ℕ) (now : ℚ) (isData : Bool) (p : DataPacket) : Option (AodvAgent × List Sent) :=
  if !isData ∨ p.daddr = ipBroadcast then some (s, [])
  else
    match s.rtLookup p.daddr with
    | none => some (s, [])
    | some rt =>
      if (rt.hops : ℤ) < p.numForwards then s.localRtRepair m now rt.dst p else s.nbDelete m p.nextHop

/-- `LocalRepairTimer::handle`, when a timer is set. -/
def localRepairTimeout (dst : ℤ) : AodvAgent :=
  if dst ∈ s.lrtimers then
    let s := { s with lrtimers := s.lrtimers.erase dst }
    s.writeRt dst fun rt => if rt.flags ≠ .up then rt.rtDown else rt
  else s

def rtResolve (m : ℕ) (now : ℚ) (p : DataPacket) : Option (AodvAgent × List Sent) :=
  let s := s.rtEnsure p.daddr
  match s.rtLookup p.daddr with
  | none => none
  | some rt =>
    if rt.flags = .up then
      if rt.hops = infinity2 then none else s.forward now rt.dst p
    else if p.saddr = s.index then
      { s with rqueue := enque now p s.rqueue }.sendRequest m now rt.dst
    else if rt.flags = .inRepair then some ({ s with rqueue := enque now p s.rqueue }, [])
    else some (s, s.sendError (.one rt.dst rt.seqno))

/-- One round of `rt_purge`. -/
def purgeRoute (m : ℕ) (now : ℚ) (dst : ℤ) : Option (AodvAgent × List Sent) :=
  match s.rtLookup dst with
  | none => none
  | some rt =>
    if rt.flags = .up ∧ rt.expire < now then
      if rt.hops = infinity2 ∨ (rt.seqno + 1) % m % 2 = 0 then none
      else some ({ s.writeRt dst fun rt => { rt with seqno := (rt.seqno + 1) % m }.rtDown with
        rqueue := leftBy now dst s.rqueue }, [])
    else if rt.flags = .up then
      if rt.hops = infinity2 then none else s.flush now dst
    else if s.rqueue.any fun p => p.daddr = dst then s.sendRequest m now dst
    else some (s, [])

/-- The loop over the table; no destination has two entries. -/
def rtPurge (m : ℕ) (now : ℚ) : Option (AodvAgent × List Sent) :=
  (s.rtable.map RtEntry.dst).foldlM (fun r dst =>
    (r.1.purgeRoute m now dst).map fun r' => (r'.1, r.2 ++ r'.2)) (s, [])

/-- The entry after the reverse route of a request has been taken. -/
def takeRequest (now : ℚ) (saddr : ℤ) (rq : RouteRequest) (rt0 : RtEntry) : RtEntry :=
  let rt0 := rt0.rtUpdate rq.srcSeqno rq.hopCount saddr (max rt0.expire (now + revRouteLife))
  if 0 < rt0.reqTimeout then
    { rt0 with
      reqCnt := 0
      reqTimeout := 0
      reqLastTtl := rq.hopCount
      expire := now + activeRouteTimeout }
  else rt0

/-- The reverse route of a request. -/
def updateReverse (now : ℚ) (saddr : ℤ) (rq : RouteRequest) : Option (AodvAgent × List Sent) :=
  let s := (s.rtEnsure rq.src).writeRt rq.src fun rt0 =>
    { rt0 with expire := max rt0.expire (now + revRouteLife) }
  match s.rtLookup rq.src with
  | none => none
  | some rt0 =>
    if rt0.Fresher rq.srcSeqno rq.hopCount then
      let s := s.writeRt rq.src (takeRequest now saddr rq)
      if rq.hopCount = infinity2 ∧ buffered now rq.src s.rqueue ≠ [] then none
      else s.flush now rq.src
    else some (s, [])

/-- `(u_int32_t) t` -/
def truncate (t : ℚ) : ℚ := ((if 0 ≤ t then ⌊t⌋ else ⌈t⌉) % 2 ^ 32 : ℤ)

/-- The request goes on to the neighbours. -/
def forwardRequest (ttl : ℤ) (rq : RouteRequest) : List Sent :=
  let seen := match s.rtLookup rq.dst with
    | some rt => max rt.seqno rq.dstSeqno
    | none => rq.dstSeqno
  if ttl = 0 ∨ ipBroadcast = s.here then []
  else [.aodv none ⟨s.index, ipBroadcast, ttl,
    .request { rq with hopCount := (rq.hopCount + 1) % 256, dstSeqno := seen }⟩]

/-- The route that a request asks for is answered, or the request goes on. -/
def answerRequest (m : ℕ) (now : ℚ) (ttl : ℤ) (rq : RouteRequest) : Option (AodvAgent × List Sent) :=
  if rq.dst = s.index then
    let n := (max s.seqno rq.dstSeqno + 1) % m
    let n := if n % 2 = 1 then (n + 1) % m else n
    (s.sendReply rq.src 1 s.index n myRouteTimeout rq.timestamp).map fun out => ({ s with seqno := n }, out)
  else
    match s.rtLookup rq.src, s.rtLookup rq.dst with
    | some rt0, some rt =>
      if rt.hops ≠ infinity2 ∧ rq.dstSeqno ≤ rt.seqno then
        (s.sendReply rq.src (rt.hops + 1) rq.dst rt.seqno (truncate (rt.expire - now)) rq.timestamp).map
          fun out => ((s.writeRt rq.dst fun rt => rt.pcInsert rt0.nexthop).writeRt rq.src
            fun rt0 => rt0.pcInsert rt.nexthop, out)
      else some (s, s.forwardRequest ttl rq)
    | _, _ => some (s, s.forwardRequest ttl rq)

def recvRequest (m : ℕ) (now : ℚ) (saddr ttl : ℤ) (rq : RouteRequest) : Option (AodvAgent × List Sent) :=
  if rq.src = s.index then some (s, [])
  else if s.idLookup rq.src rq.bcastId then some (s, [])
  else
    ((s.idInsert now rq.src rq.bcastId).updateReverse now saddr rq).bind fun r =>
      (r.1.answerRequest m now ttl rq).map fun r' => (r'.1, r.2 ++ r'.2)

/-- The entry after a reply for the destination has been taken. -/
def takeReply (now : ℚ) (forMe : Bool) (rp : RouteReply) (rt : RtEntry) : RtEntry :=
  let rt := { rt.rtUpdate rp.dstSeqno rp.hopCount rp.src (now + rp.lifetime) with
    reqCnt := 0
    reqTimeout := 0
    reqLastTtl := rp.hopCount }
  if forMe then
    { rt with
      discLatency := rt.discLatency.set rt.histIndx ((now - rp.timestamp) / rp.hopCount)
      histIndx := (rt.histIndx + 1) % maxHistory }
  else rt

/-- `forward` of a reply over the reverse route. -/
def forwardReply (now : ℚ) (daddr ttl : ℤ) (rp : RouteReply) : Option (AodvAgent × List Sent) :=
  match s.rtLookup daddr with
  | none => some (s, [])
  | some rt0 =>
    if rt0.hops = infinity2 then some (s, [])
    else if rt0.flags ≠ .up then none
    else
      let rp' := { rp with hopCount := (rp.hopCount + 1) % 256, src := s.index }
      let noted := fun s : AodvAgent => s.writeRt rp.dst fun rt => rt.pcInsert rt0.nexthop
      if ttl = 0 ∨ daddr = s.here then some (noted s, [])
      else if daddr = ipBroadcast then none
      else some (noted (s.writeRt daddr fun rt0 => { rt0 with expire := now + activeRouteTimeout }),
        [.aodv (some rt0.nexthop) ⟨s.index, daddr, ttl, .reply rp'⟩])

/-- The loop that forwards the packets buffered for the destination of a reply; those for which the hop
count is infinite are lost. -/
def flushReply (now : ℚ) (rp : RouteReply) : Option (AodvAgent × List Sent) :=
  if rp.hopCount = infinity2 then some ({ s with rqueue := leftBy now rp.dst s.rqueue }, [])
  else s.flush now rp.dst

def recvReply (now : ℚ) (daddr ttl : ℤ) (rp : RouteReply) : Option (AodvAgent × List Sent) :=
  let forMe : Bool := daddr = s.index
  let s := s.rtEnsure rp.dst
  match s.rtLookup rp.dst with
  | none => none
  | some rt =>
    if rt.Fresher rp.dstSeqno rp.hopCount then
      ((s.writeRt rp.dst (takeReply now forMe rp)).flushReply now rp).bind fun r =>
        if forMe then some r
        else (r.1.forwardReply now daddr ttl rp).map fun r' => (r'.1, r.2 ++ r'.2)
    else some (s, [])

/-- A destination is passed on to the precursors of its entry. -/
def passedOn (rt : RtEntry) (n : ℕ) : List (ℤ × ℕ) := if rt.pclist = [] then [] else [(rt.dst, n)]

/-- One round of `recvError`, with the destinations to be passed on. -/
def takeError (saddr : ℤ) (r : AodvAgent × List (ℤ × ℕ)) (u : ℤ × ℕ) :
    Option (AodvAgent × List (ℤ × ℕ)) :=
  match r.1.rtLookup u.1 with
  | none => some r
  | some rt =>
    if rt.hops ≠ infinity2 ∧ rt.nexthop = saddr ∧ rt.seqno ≤ u.2 then
      if rt.flags = .up ∧ rt.seqno % 2 = 0 then
        some (r.1.writeRt u.1 fun rt => { { rt with seqno := u.2 }.rtDown with pclist := [] },
          r.2 ++ passedOn rt u.2)
      else none
    else some r

def recvError (saddr : ℤ) (re : RouteError) : Option (AodvAgent × List Sent) :=
  (re.unreachable.foldlM (takeError saddr) (s, [])).bind fun r =>
    if h : r.2.length ≤ aodvMaxErrors then
      some (r.1, if 0 < r.2.length then r.1.sendError ⟨r.2, h⟩ else [])
    else none

/-- When a neighbour that has been heard of expires. -/
def nbExpire (now : ℚ) : ℚ := now + 3 / 2 * allowedHelloLoss * helloInterval

def nbInsert (m : ℕ) (now : ℚ) (id : ℤ) : Option AodvAgent :=
  { s with nblist := ⟨id, nbExpire now⟩ :: s.nblist }.raiseSeqno m

def recvHello (m : ℕ) (now : ℚ) (dst : ℤ) : Option AodvAgent :=
  match findKey Neighbor.addr dst s.nblist with
  | none => s.nbInsert m now dst
  | some _ =>
    let refresh := fun nb : Neighbor => { nb with expire := nbExpire now }
    some { s with nblist := updateKey Neighbor.addr dst refresh s.nblist }

def recvAODV (m : ℕ) (now : ℚ) (p : AodvPacket) : Option (AodvAgent × List Sent) :=
  match p.msg with
  | .request rq => s.recvRequest m now p.saddr (p.ttl - 1) rq
  | .reply rp => s.recvReply now p.daddr (p.ttl - 1) rp
  | .error re => s.recvError p.saddr re
  | .hello _ dst _ _ => (s.recvHello m now dst).map fun s => (s, [])

/-- `recv` of a data packet. -/
def recv (m : ℕ) (now : ℚ) (p : DataPacket) : Option (AodvAgent × List Sent) :=
  let route := fun p : DataPacket =>
    if p.daddr ≠ ipBroadcast then s.rtResolve m now p else s.broadcast p
  if p.saddr = s.index ∧ p.numForwards = 0 then
    route (if p.daddr ≠ ipBroadcast then { p with ttl := networkDiameter } else p)
  else if p.saddr = s.index then some (s, [])
  else if p.ttl - 1 = 0 then some (s, [])
  else route { p with ttl := p.ttl - 1 }

end AodvAgent

/-- What happens at a node: a packet arrives, the link layer fails with a packet, or a timer expires. -/
inductive AodvEvent where
  | recvAODV (p : AodvPacket)
  | recv (p : DataPacket)
  | rtLlFailed (isData : Bool) (p : DataPacket)
  | localRepairTimeout (dst : ℤ)
  | idPurge
  | sendHello
  | nbPurge
  | rtPurge
deriving DecidableEq

def AodvAgent.step (m : ℕ) (s : AodvAgent) (now : ℚ) : AodvEvent → Option (AodvAgent × List Sent)
  | .recvAODV p => s.recvAODV m now p
  | .recv p => s.recv m now p
  | .rtLlFailed isData p => s.rtLlFailed m now isData p
  | .localRepairTimeout dst => some (s.localRepairTimeout dst, [])
  | .idPurge => some (s.idPurge now, [])
  | .sendHello => some (s, s.sendHello)
  | .nbPurge => s.nbPurge m now
  | .rtPurge => s.rtPurge m now

/-- An event comes with its time; the answers are the packets sent. -/
def aodvMachine (m : ℕ) : Machine AodvAgent (ℚ × AodvEvent) (List Sent) where
  step s e := s.step m e.1 e.2

end Ns2.Aodv
